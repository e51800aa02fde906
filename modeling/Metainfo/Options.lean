import Metainfo.Files.Path

/-!
The words of a command line.  Switches may stand before the command, after it or both; each of
these places is read on its own, and what is said after the command wins.
-/

namespace Metainfo

open Metainfo.Utf8

inductive Command where
  | documents (paths : List Path)
  /-- Ingest the documents of a directory, the configured one if none is named. -/
  | directory (path : Option Path)
  deriving DecidableEq, Repr

structure Switches where
  config : Option Path
  root : Option Path
  noDesktop : Bool
  searchFileLists : Bool
  json : Bool
  verbosity : Nat
  deriving DecidableEq, Repr

structure Options where
  command : Command
  switches : Switches
  deriving DecidableEq, Repr

inductive Refusal where
  | usage
  | help
  | version
  deriving DecidableEq, Repr

inductive ValueSwitch where
  | config
  | root
  deriving DecidableEq, Repr

inductive PlainSwitch where
  | noDesktop
  | searchFileLists
  | json
  | verbose
  | help
  | version
  deriving DecidableEq, Repr

inductive SwitchName where
  | value (name : ValueSwitch)
  | plain (name : PlainSwitch)
  deriving DecidableEq, Repr

namespace SwitchName

def ofLong? (name : List UInt8) : Option SwitchName :=
  ([("config", .value .config), ("root", .value .root), ("no-desktop", .plain .noDesktop),
    ("search-filelist", .plain .searchFileLists), ("json", .plain .json),
    ("verbose", .plain .verbose), ("help", .plain .help), ("version", .plain .version)] :
      List (String × SwitchName)).findSome? fun (long, switch) =>
    if encode long = name then some switch else none

def ofShort? (letter : UInt8) : Option SwitchName :=
  if letter = byteOf 'c' then some (.value .config)
  else if letter = byteOf 'v' then some (.plain .verbose)
  else if letter = byteOf 'h' then some (.plain .help)
  else if letter = byteOf 'V' then some (.plain .version)
  else none

end SwitchName

namespace Switches

def none : Switches := ⟨.none, .none, false, false, false, 0⟩

def maxVerbosity : Nat := 255

def setValue (switches : Switches) (name : ValueSwitch) (value : List UInt8) :
    Except Refusal Switches :=
  if value.isEmpty then .error .usage
  else
    match name with
    | .config =>
        if switches.config.isSome then .error .usage
        else .ok { switches with config := some ⟨value⟩ }
    | .root =>
        if switches.root.isSome then .error .usage
        else .ok { switches with root := some ⟨value⟩ }

/-- Sets a switch, which only the one for verbosity may be twice.  The version can be asked for
only before the command. -/
def setPlain (switches : Switches) (beforeCommand : Bool) (name : PlainSwitch) :
    Except Refusal Switches :=
  match name with
  | .noDesktop =>
      if switches.noDesktop then .error .usage else .ok { switches with noDesktop := true }
  | .searchFileLists =>
      if switches.searchFileLists then .error .usage
      else .ok { switches with searchFileLists := true }
  | .json => if switches.json then .error .usage else .ok { switches with json := true }
  | .verbose =>
      .ok { switches with verbosity := min maxVerbosity (switches.verbosity + 1) }
  | .help => .error .help
  | .version => .error (if beforeCommand then .version else .usage)

/-- What is said after the command wins over what is said before it. -/
def overriddenBy (before after : Switches) : Switches where
  config := after.config.or before.config
  root := after.root.or before.root
  noDesktop := before.noDesktop || after.noDesktop
  searchFileLists := before.searchFileLists || after.searchFileLists
  json := before.json || after.json
  verbosity := if after.verbosity = 0 then before.verbosity else after.verbosity

end Switches

/-- The switches of a place as far as it has been read, and a value that still has to be checked. -/
structure SwitchReader where
  switches : Switches
  pending : Option (ValueSwitch × List UInt8)
  deriving DecidableEq, Repr

namespace SwitchReader

def initial : SwitchReader := ⟨.none, none⟩

def settle (reader : SwitchReader) : Except Refusal Switches :=
  match reader.pending with
  | none => .ok reader.switches
  | some (name, value) => reader.switches.setValue name value

/-- A reader after a switch, and the switch whose value the next word is, if it is one. -/
abbrev Step : Type :=
  Except Refusal (SwitchReader × Option ValueSwitch)

def setValue (reader : SwitchReader) (name : ValueSwitch) (value : List UInt8) : Step := do
  let switches ← (← reader.settle).setValue name value
  return (⟨switches, none⟩, none)

def setPlain (reader : SwitchReader) (beforeCommand : Bool) (name : PlainSwitch) :
    Except Refusal SwitchReader := do
  let switches ← (← reader.settle).setPlain beforeCommand name
  return ⟨switches, none⟩

def expect (reader : SwitchReader) (name : ValueSwitch) : Step := do
  return (⟨← reader.settle, none⟩, some name)

/-- The version has no name after the command. -/
def isKnown (beforeCommand : Bool) (name : SwitchName) : Bool :=
  beforeCommand || name != .plain .version

def long (reader : SwitchReader) (beforeCommand : Bool) (word : List UInt8) : Step :=
  let name := word.takeWhile (· != byteOf '=')
  match (SwitchName.ofLong? name).filter (isKnown beforeCommand), word.drop name.length with
  | some (.value name), _ :: value => reader.setValue name value
  | some (.value name), [] => reader.expect name
  | some (.plain _), _ :: _ => .error .usage
  | some (.plain name), [] => (reader.setPlain beforeCommand name).map fun reader => (reader, none)
  | none, _ => .error .usage

/-- Letters after one dash; what follows the letter of a switch with a value is the value. -/
def letters (reader : SwitchReader) (beforeCommand : Bool) : List UInt8 → Step
  | [] => .ok (reader, none)
  | letter :: rest =>
      match (SwitchName.ofShort? letter).filter (isKnown beforeCommand) with
      | some (.value name) =>
          match rest with
          | [] => reader.expect name
          | first :: value =>
              reader.setValue name (if first = byteOf '=' then value else first :: value)
      | some (.plain name) => do
          letters (← reader.setPlain beforeCommand name) beforeCommand rest
      | none => .error .usage

end SwitchReader

inductive Word where
  | separator
  | long (rest : List UInt8)
  | letters (rest : List UInt8)
  | plain
  deriving DecidableEq, Repr

/-- A lone dash is a plain word. -/
def Word.ofBytes (word : List UInt8) : Word :=
  match word with
  | first :: second :: rest =>
      if first = byteOf '-' then
        if second = byteOf '-' then
          if rest.isEmpty then .separator else .long rest
        else .letters (second :: rest)
      else .plain
  | _ => .plain

inductive CommandName where
  | documents
  | directory
  deriving DecidableEq, Repr

def CommandName.ofWord? (word : List UInt8) : Option CommandName :=
  if word = encode "file" then some .documents
  else if word = encode "dir" then some .directory
  else none

def CommandName.addPath (name : CommandName) (paths : List Path) (word : List UInt8) :
    Except Refusal (List Path) :=
  if word.isEmpty then .error .usage
  else
    match name, paths with
    | .directory, _ :: _ => .error .usage
    | _, _ => .ok (paths ++ [⟨word⟩])

def CommandName.toCommand (name : CommandName) (paths : List Path) : Except Refusal Command :=
  match name, paths with
  | .documents, [] => .error .usage
  | .documents, paths => .ok (.documents paths)
  | .directory, paths => .ok (.directory paths.head?)

/-- Reads the words after a command.  `expected` is the switch whose value comes next, and
`separated` says that no word is a switch any more. -/
def CommandName.read (name : CommandName) (reader : SwitchReader) (paths : List Path)
    (expected : Option ValueSwitch) (separated : Bool) :
    List (List UInt8) → Except Refusal (Command × Switches)
  | [] =>
      match expected with
      | some _ => .error .usage
      | none => do
          let switches ← reader.settle
          return (← name.toCommand paths, switches)
  | word :: words =>
      if separated then do
        let switches ← reader.settle
        let paths ← name.addPath paths word
        CommandName.read name ⟨switches, none⟩ paths expected true words
      else
        match Word.ofBytes word, expected with
        | .plain, some switch =>
            CommandName.read name { reader with pending := some (switch, word) } paths none false
              words
        | .plain, none => do
            let switches ← reader.settle
            let paths ← name.addPath paths word
            CommandName.read name ⟨switches, none⟩ paths none false words
        | _, some _ => .error .usage
        | .separator, none => CommandName.read name reader paths none true words
        | .long rest, none => do
            let (reader, expected) ← reader.long false rest
            CommandName.read name reader paths expected false words
        | .letters rest, none => do
            let (reader, expected) ← reader.letters false rest
            CommandName.read name reader paths expected false words

def readHelp (words : List (List UInt8)) : Refusal :=
  match words with
  | [] => .help
  | [word] =>
      if (CommandName.ofWord? word).isSome || word = encode "help" then .help else .usage
  | _ => .usage

namespace Options

def read (reader : SwitchReader) (expected : Option ValueSwitch) :
    List (List UInt8) → Except Refusal Options
  | [] => .error .usage
  | word :: words =>
      match Word.ofBytes word, expected with
      | .plain, some switch => read { reader with pending := some (switch, word) } none words
      | .plain, none =>
          match CommandName.ofWord? word with
          | some name => do
              let (command, after) ← name.read .initial [] none false words
              let before ← reader.settle
              return ⟨command, before.overriddenBy after⟩
          | none => .error (if word = encode "help" then readHelp words else .usage)
      | _, some _ => .error .usage
      | .separator, none => .error .usage
      | .long rest, none => do
          let (reader, expected) ← reader.long true rest
          read reader expected words
      | .letters rest, none => do
          let (reader, expected) ← reader.letters true rest
          read reader expected words

def ofWords (words : List (List UInt8)) : Except Refusal Options :=
  read .initial none words

def logFilter (options : Options) : String :=
  match options.switches.verbosity with
  | 0 => "warn"
  | 1 => "info"
  | 2 => "debug"
  | _ => "trace"

end Options

end Metainfo
