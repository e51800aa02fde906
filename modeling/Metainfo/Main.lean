import Metainfo.Program

/-!
The program on a real machine.  Which files a run looks at is known only as it goes on, so what
has been asked for is loaded and the run is tried again until nothing new is asked for.
-/

namespace Metainfo.Main

structure Found where
  content : Except SystemError Source
  names : Except SystemError (List (List UInt8))
  isFile : Bool

def systemError (error : IO.Error) : SystemError :=
  match error with
  | .noFileOrDirectory _ _ _ => .notFound
  | .inappropriateType _ 20 _ => .notDirectory
  | .resourceExhausted _ 40 _ => .tooManyLinks
  | error => .other (toString error)

def lookUp (path : Path) : IO Found := do
  match Utf8.strict path.bytes with
  | none => return ⟨.error .notFound, .error .notFound, false⟩
  | some "" => return ⟨.error .notFound, .error .notFound, false⟩
  | some name =>
      let place := (← IO.currentDir) / name
      if ← place.isDir then
        let entries ← (place.readDir).toBaseIO
        let names :=
          match entries with
          | .ok entries => .ok (entries.toList.map fun entry => Utf8.encode entry.fileName)
          | .error error => .error (systemError error)
        return ⟨.ok .unreadable, names, false⟩
      else
        match ← (IO.FS.readBinFile place).toBaseIO with
        | .ok bytes => return ⟨.ok (.ofBytes bytes.data.toList), .error .notDirectory, true⟩
        | .error error => return ⟨.error (systemError error), .error .notDirectory, false⟩

def filesOf (found : List (Path × Found)) : Files where
  read path := (found.lookup path).elim (.error .notFound) Found.content
  list path := (found.lookup path).elim (.error .notFound) Found.names
  isFile path := (found.lookup path).any Found.isFile

/-- How often new files are asked for: the configuration, the documents, the desktop files. -/
def maxRounds : Nat := 5

def load (machine : List (Path × Found) → Machine) (words : List (List UInt8)) :
    (rounds : Nat) → List (Path × Found) → IO (List (Path × Found))
  | 0, found => return found
  | rounds + 1, found => do
      let wanted := Program.paths (machine found) words
      let missing := (wanted.filter fun path => (found.lookup path).isNone).eraseDups
      if missing.isEmpty then return found
      let more ← missing.mapM fun path => return (path, ← lookUp path)
      load machine words rounds (found ++ more)

def parseEnvironment (bytes : List UInt8) : List (String × String) :=
  (Affix.parts 0 bytes).filterMap fun entry => do
    let (name, value) ← Affix.cutFirst? (Utf8.byteOf '=') entry
    return (← Utf8.strict name, ← Utf8.strict value)

def environment : IO (List (String × String)) := do
  match ← (IO.FS.readBinFile "/proc/self/environ").toBaseIO with
  | .ok bytes => return parseEnvironment bytes.data.toList
  | .error _ => return []

def configurations (environment : List (String × String)) : Path :=
  let home : Path := .ofString ((environment.lookup "HOME").getD "")
  let named := (environment.lookup "XDG_CONFIG_HOME").map Path.ofString
  match named.filter Path.isAbsolute with
  | some path => path
  | none => home.join (.ofString ".config")

def run (words : List (List UInt8)) : IO UInt32 := do
  let environment ← environment
  let input ←
    if words.contains Program.inputPath.bytes then (← IO.getStdin).readBinToEnd
    else pure ByteArray.empty
  let machine (found : List (Path × Found)) : Machine :=
    ⟨filesOf found, configurations environment, environment, .ofBytes input.data.toList⟩
  let found ← load machine words maxRounds []
  let outcome := Program.run (machine found) words
  let errors ← IO.getStderr
  for message in outcome.messages.getD [Program.usageText] do
    errors.putStrLn message
  let output ← IO.getStdout
  output.putStr outcome.output
  output.flush
  return UInt32.ofNat outcome.code

end Metainfo.Main

def main (arguments : List String) : IO UInt32 :=
  Metainfo.Main.run (arguments.map Metainfo.Utf8.encode)
