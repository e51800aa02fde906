import Metainfo.Naming
import Metainfo.Pool.Basic

/-!
The metadata files that the records list among their files.
-/

namespace Metainfo.Pool

open Metainfo.Affix
open Metainfo.Naming

/-- The name of a listed file, if it is a metadata file that lies in the directory itself. -/
def metadataIn? (directory : List Char) (path : String) : Option String := do
  let (parent, basename) ← cutLast? '/' path.toList
  let basename := String.ofList basename
  if parent = directory && hasMetadataEnding basename then some basename else none

/-- The metadata files directly inside a directory with the records that list them, by record
number and in the order of the file lists.  Slashes at the end of the directory do not count. -/
def searchFiles (pool : Pool) (directory : String) : List (RecordId × String) :=
  let directory := (directory.toList.reverse.dropWhile (· = '/')).reverse
  ((List.range pool.slots.size).map RecordId.mk).flatMap fun id =>
    ((pool.lookupList id .files).filterMap (metadataIn? directory)).map fun name => (id, name)

end Metainfo.Pool
