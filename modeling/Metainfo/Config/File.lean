import Metainfo.Config.Basic
import Metainfo.Data.Json.Parser
import Metainfo.Data.Toml.Document
import Metainfo.Data.Yaml.Document

/-!
Configuration files in one of three formats, told apart by the ends of their names.
-/

namespace Metainfo

inductive ConfigError where
  | missingFile (path : Path)
  | unsupportedFormat (extension : String)
  | invalid
  deriving DecidableEq, Repr

namespace ConfigError

def message : ConfigError → String
  | .missingFile path => "config file not found: " ++ path.display
  | .unsupportedFormat extension => "unsupported config format: " ++ extension
  | .invalid => "invalid configuration"

/-- A missing file may be there later. -/
def isRetryable : ConfigError → Bool
  | .missingFile _ => true
  | .unsupportedFormat _ => false
  | .invalid => false

end ConfigError

inductive ConfigFormat where
  | toml
  | yaml
  | json
  deriving DecidableEq, Repr

namespace ConfigFormat

def ofExtension? (extension : String) : Option ConfigFormat :=
  if extension = "toml" then some .toml
  else if extension = "yaml" || extension = "yml" then some .yaml
  else if extension = "json" then some .json
  else none

def parse (format : ConfigFormat) (text : String) : Option (List (String × Datum)) :=
  match format with
  | .toml => Toml.parse text
  | .yaml => Yaml.parse text
  | .json =>
      match Json.parse text with
      | some (.table members) => some members
      | _ => none

end ConfigFormat

namespace Config

def defaultNames : List String :=
  ["config.toml", "config.yaml", "config.yml", "config.json"]

def defaultFiles (configurations : Path) : List Path :=
  defaultNames.map fun name =>
    (configurations.join (.ofString "appdata")).join (.ofString name)

def defaultFile? (files : Files) (configurations : Path) : Option Path :=
  (defaultFiles configurations).find? files.isFile

/-- The file that is read: the one that was named, which must exist, or a default one. -/
def chooseFile (files : Files) (configurations : Path) (named : Option Path) :
    Except ConfigError (Option Path) :=
  match named with
  | none => .ok (defaultFile? files configurations)
  | some path => if files.isFile path then .ok (some path) else .error (.missingFile path)

def readFile (files : Files) (path : Path) : Except ConfigError (List (String × Datum)) :=
  let extension := (path.extension?.bind Utf8.strict).getD ""
  match ConfigFormat.ofExtension? extension with
  | none => .error (.unsupportedFormat extension)
  | some format =>
      match files.read path with
      | .ok ⟨bytes, .complete⟩ =>
          ((Utf8.strict bytes).bind format.parse).elim (.error .invalid) .ok
      | _ => .error .invalid

def fileLayer (files : Files) (configurations : Path) (named : Option Path) :
    Except ConfigError (List (String × Datum)) := do
  match ← chooseFile files configurations named with
  | none => return []
  | some path => readFile files path

def load (files : Files) (configurations : Path) (named : Option Path)
    (environment : List (String × String)) : Except ConfigError Config := do
  let file ← fileLayer files configurations named
  (ofLayers? [file, Variable.members environment]).elim (.error .invalid) .ok

def loadFile (files : Files) (configurations : Path) (named : Option Path) :
    Except ConfigError Config := do
  let file ← fileLayer files configurations named
  (ofLayers? [file]).elim (.error .invalid) .ok

end Config

end Metainfo
