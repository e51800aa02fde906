import Metainfo.DesktopEntry
import Metainfo.Pool.Basic

/-!
How documents are read into a pool.
-/

namespace Metainfo

structure Flags where
  /-- Fill gaps of a record from the desktop file of its id. -/
  checkDesktopFile : Bool
  /-- Find the owners of a document by the file lists. -/
  searchFileLists : Bool
  /-- Look files up below the root directory. -/
  useRoot : Bool
  /-- Leave the attribute writes staged. -/
  deferWrites : Bool
  deriving DecidableEq, Repr

namespace Flags

def none : Flags := ⟨false, false, false, false⟩

def bits (flags : Flags) : Nat :=
  flags.checkDesktopFile.toNat + 2 * flags.searchFileLists.toNat + 4 * flags.useRoot.toNat +
    8 * flags.deferWrites.toNat

end Flags

structure IngestSettings where
  flags : Flags
  filename : Option String
  /-- The records that list the document among their files. -/
  owners : List RecordId
  resolver : Option DesktopResolver

def IngestSettings.ofFlags (flags : Flags) : IngestSettings :=
  ⟨flags, none, [], none⟩

end Metainfo
