import Metainfo.Files.Path
import Metainfo.Text.Source

/-!
What can be asked of the files of a machine.
-/

namespace Metainfo

inductive SystemError where
  | notFound
  | notDirectory
  | nameTooLong
  | tooManyLinks
  | embeddedNul
  | other (text : String)
  deriving DecidableEq, Repr

def SystemError.numbered (text : String) (number : Nat) : String :=
  text ++ " (os error " ++ toString number ++ ")"

def SystemError.message : SystemError → String
  | .notFound => numbered "No such file or directory" 2
  | .notDirectory => numbered "Not a directory" 20
  | .nameTooLong => numbered "File name too long" 36
  | .tooManyLinks => numbered "Too many levels of symbolic links" 40
  | .embeddedNul => "file name contained an unexpected NUL byte"
  | .other text => text

/-- Files by path.  A directory can be opened like a file but not read. -/
structure Files where
  read : Path → Except SystemError Source
  list : Path → Except SystemError (List (List UInt8))
  isFile : Path → Bool

def Files.none : Files where
  read _ := .error .notFound
  list _ := .error .notFound
  isFile _ := false

end Metainfo
