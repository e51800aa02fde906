import Metainfo.Files.Path
import Metainfo.Files.Access
import Metainfo.Markup.Event
import Metainfo.Pool.Record

/-!
What became of the documents of a directory.
-/

namespace Metainfo

structure ListingError where
  directory : Path
  deriving DecidableEq, Repr

namespace ListingError

def message (error : ListingError) : String :=
  "could not list directory " ++ error.directory.display

def isRetryable (_ : ListingError) : Bool :=
  true

end ListingError

inductive DocumentError where
  | cannotOpen (error : SystemError)
  | cannotRead (failure : Markup.Failure)
  deriving DecidableEq, Repr

namespace DocumentError

def message : DocumentError → String
  | .cannotOpen error => "could not open file: " ++ error.message
  | .cannotRead failure => failure.message

/-- A file may become accessible; a document that was rejected stays as it is. -/
def isRetryable : DocumentError → Bool
  | .cannotOpen _ => true
  | .cannotRead _ => false

end DocumentError

structure Problem where
  path : Path
  error : DocumentError
  deriving DecidableEq, Repr

def Problem.display (problem : Problem) : String :=
  problem.path.display ++ ": " ++ problem.error.message

/-- The records of the documents that were ingested to their ends, the problems of the others,
and how many there were of the former. -/
structure Report where
  records : List RecordId
  problems : List Problem
  documents : Nat
  deriving DecidableEq, Repr

namespace Report

def empty : Report := ⟨[], [], 0⟩

def isClean (report : Report) : Bool :=
  report.problems.isEmpty

end Report

end Metainfo
