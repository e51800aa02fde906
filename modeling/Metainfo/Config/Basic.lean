import Metainfo.Config.Variable
import Metainfo.Directory.Basic

/-!
The settings of a run.  Each is taken from the environment, else from the configuration file, else
from the defaults, and must have the type of its field.
-/

namespace Metainfo

structure Config where
  /-- The root below which files are looked up, if there is one. -/
  root : Option Path
  appdataDir : Path
  applicationsDir : Path
  checkDesktopFiles : Bool
  searchFileLists : Bool
  deferWrites : Bool
  deriving DecidableEq, Repr

namespace Config

def default : Config where
  root := none
  appdataDir := DirectoryIngest.defaultDirectory
  applicationsDir := DesktopFiles.defaultApplicationsDir
  checkDesktopFiles := true
  searchFileLists := false
  deferWrites := false

def flags (config : Config) : Flags where
  checkDesktopFile := config.checkDesktopFiles
  searchFileLists := config.searchFileLists
  useRoot := config.root.isSome
  deferWrites := config.deferWrites

def path? (given : Option Datum) (default : Path) : Option Path :=
  match given with
  | none => some default
  | some (.text text) => some (.ofString text)
  | some _ => none

def optionalPath? (given : Option Datum) : Option (Option Path) :=
  match given with
  | none => some none
  | some .null => some none
  | some (.text text) => some (some (.ofString text))
  | some _ => none

def bool? (given : Option Datum) (default : Bool) : Option Bool :=
  match given with
  | none => some default
  | some (.bool value) => some value
  | some _ => none

def ofMembers? (members : List (String × Datum)) : Option Config := do
  let given := Datum.lookupLast members
  let root ← optionalPath? (given "root")
  let appdataDir ← path? (given "appdata_dir") default.appdataDir
  let applicationsDir ← path? (given "applications_dir") default.applicationsDir
  let checkDesktopFiles ← bool? (given "check_desktop_files") default.checkDesktopFiles
  let searchFileLists ← bool? (given "search_filelist") default.searchFileLists
  let deferWrites ← bool? (given "defer_internalize") default.deferWrites
  return { root, appdataDir, applicationsDir, checkDesktopFiles, searchFileLists, deferWrites }

def ofLayers? (layers : List (List (String × Datum))) : Option Config :=
  ofMembers? layers.flatten

end Config

end Metainfo
