import Metainfo.Directory.Report
import Metainfo.Files.DesktopFiles
import Metainfo.Ingest.Basic
import Metainfo.Pool.FileList

/-!
Ingesting every metadata document of a directory.
-/

namespace Metainfo

open Metainfo.Naming

/-- How the documents of a directory are ingested. -/
structure DirectoryIngest where
  flags : Flags
  root : Option Path
  fallback : Bool
  desktopFiles : DesktopFiles
  resolver : Option DesktopResolver

namespace DirectoryIngest

def defaultDirectory : Path := .ofString "/usr/share/metainfo"

def ofFlags (flags : Flags) : DirectoryIngest :=
  ⟨flags, none, true, .default, none⟩

def withRoot (settings : DirectoryIngest) (root : Path) : DirectoryIngest :=
  { settings with root := some root, desktopFiles := settings.desktopFiles.withRoot root }

def withApplicationsDir (settings : DirectoryIngest) (directory : Path) : DirectoryIngest :=
  let desktopFiles := DesktopFiles.inDirectory directory
  { settings with desktopFiles := settings.root.elim desktopFiles desktopFiles.withRoot }

def withFallback (settings : DirectoryIngest) (fallback : Bool) : DirectoryIngest :=
  { settings with fallback }

def withResolver (settings : DirectoryIngest) (resolver : DesktopResolver) : DirectoryIngest :=
  { settings with resolver := some resolver }

def documentNames (names : List (List UInt8)) : List String :=
  ((names.filterMap Utf8.strict).filter isMetadataFile).mergeSort fun a b => !decide (b < a)

/-- The records that list metadata files of the directory, with the names of these. -/
def candidates (settings : DirectoryIngest) (pool : Pool) (directory : Path) :
    List (RecordId × String) :=
  if settings.flags.searchFileLists then pool.searchFiles directory.display else []

def lookupPath (settings : DirectoryIngest) (directory : Path) : Path :=
  if settings.flags.useRoot then Path.below settings.root directory else directory

/-- Writes of all documents stay staged until the whole directory is done. -/
def documentSettings (settings : DirectoryIngest) (files : Files) (name : String)
    (owners : List RecordId) : IngestSettings where
  flags :=
    { settings.flags with deferWrites := true, checkDesktopFile := settings.fallback }
  filename := some name
  owners
  resolver := some (settings.resolver.getD (settings.desktopFiles.resolve files))

structure Progress where
  pool : Pool
  report : Report
  queries : List (String × Bool)

def document (settings : DirectoryIngest) (files : Files) (directory : Path)
    (listed : List (RecordId × String)) (progress : Progress) (name : String) : Progress :=
  let path := directory.join (.ofString name)
  let owners := (listed.filter fun (_, basename) => basename = name).map Prod.fst
  let report := progress.report
  match files.read path with
  | .error error =>
      { progress with
        report := { report with problems := report.problems ++ [⟨path, .cannotOpen error⟩] } }
  | .ok source =>
      let ingested := ingest (settings.documentSettings files name owners) progress.pool source
      { pool := ingested.pool
        queries := progress.queries ++ ingested.queries
        report :=
          match ingested.result with
          | .ok records =>
              { report with
                records := report.records ++ records
                documents := report.documents + 1 }
          | .error failure =>
              { report with
                problems := report.problems ++ [⟨path, .cannotRead failure⟩] } }

/-- Ingests the documents of a directory in the order of their names.  If the directory cannot be
listed, nothing changes; what goes wrong with a single document is reported. -/
def run (settings : DirectoryIngest) (files : Files) (pool : Pool) (directory : Path) :
    Except ListingError Progress :=
  let path := settings.lookupPath directory
  match files.list path with
  | .error _ => .error ⟨path⟩
  | .ok names =>
      let listed := settings.candidates pool directory
      let progress :=
        (documentNames names).foldl (settings.document files path listed) ⟨pool, .empty, []⟩
      .ok
        (if settings.flags.deferWrites then progress
        else { progress with pool := progress.pool.internalize })

end DirectoryIngest

end Metainfo
