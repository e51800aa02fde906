import Metainfo.Config.File
import Metainfo.Options
import Metainfo.Output.Json
import Metainfo.Output.Text

/-!
A run of the program: what it writes and how it ends, given the files of the machine.
-/

namespace Metainfo

/-- What a run can see. -/
structure Machine where
  files : Files
  configurations : Path
  environment : List (String × String)
  input : Source

/-- How a run ends. -/
structure Outcome where
  code : Nat
  output : String
  messages : Option (List String)
  deriving DecidableEq, Repr

namespace Program

def versionText : String := "appdata 0.1.0-beta\n"

def usageText : String :=
  "Usage: appdata [OPTIONS] file PATH...\n       appdata [OPTIONS] dir [DIR]\n"

/-- What is ingested so far: the pool, whether all went well, the messages, the unread input and
the ids whose desktop entries were asked for. -/
structure Progress where
  pool : Pool
  clean : Bool
  messages : List String
  input : Source
  queries : List (String × Bool)

/-- The settings of a run: switches win over the configuration. -/
def configure (config : Config) (switches : Switches) : Config :=
  { config with
    root := switches.root.or config.root
    checkDesktopFiles := config.checkDesktopFiles && !switches.noDesktop
    searchFileLists := config.searchFileLists || switches.searchFileLists }

def desktopFiles (config : Config) : DesktopFiles :=
  ⟨config.applicationsDir, config.root⟩

def inputPath : Path := .ofString "-"

def blockSize : Nat := 8192

/-- What a document leaves of the standard input: the blocks that were not looked at. -/
def leftOver (input : Source) : Source :=
  let blocks := (Markup.examined input + blockSize - 1) / blockSize
  { input with bytes := input.bytes.drop (blocks * blockSize) }

/-- The content of a document.  Nothing of the standard input is read twice. -/
def readDocument (files : Files) (progress : Progress) (path : Path) :
    Except SystemError Source × Progress :=
  if path = inputPath then
    (.ok progress.input, { progress with input := leftOver progress.input })
  else (files.read path, progress)

def complain (progress : Progress) (path : Path) (message : String) : Progress :=
  { progress with
    clean := false
    messages := progress.messages ++ [path.display ++ ": " ++ message] }

/-- How documents are ingested one by one; their writes stay staged. -/
def documentSettings (files : Files) (flags : Flags) (desktopFiles : DesktopFiles) :
    IngestSettings :=
  { IngestSettings.ofFlags { flags with deferWrites := true } with
    resolver := some (desktopFiles.resolve files) }

def ingestDocument (files : Files) (flags : Flags) (desktopFiles : DesktopFiles)
    (progress : Progress) (path : Path) : Progress :=
  match readDocument files progress path with
  | (.error error, progress) => complain progress path ("could not open file: " ++ error.message)
  | (.ok source, progress) =>
      let ingested := ingest (documentSettings files flags desktopFiles) progress.pool source
      let progress :=
        { progress with
          pool := ingested.pool
          queries := progress.queries ++ ingested.queries }
      match ingested.result with
      | .ok _ => progress
      | .error failure => complain progress path failure.message

/-- Ingests documents into a pool; what they stage is carried out when all are done. -/
def ingestDocuments (files : Files) (flags : Flags) (desktopFiles : DesktopFiles) (pool : Pool)
    (input : Source) (paths : List Path) : Progress :=
  let progress := paths.foldl (ingestDocument files flags desktopFiles) ⟨pool, true, [], input, []⟩
  if flags.deferWrites then progress else { progress with pool := progress.pool.internalize }

def directoryIngest (files : Files) (config : Config) : DirectoryIngest :=
  let settings :=
    ((DirectoryIngest.ofFlags config.flags).withFallback config.checkDesktopFiles).withResolver
      ((desktopFiles config).resolve files)
  config.root.elim settings settings.withRoot

def ingestDirectory (files : Files) (config : Config) (input : Source) (path : Option Path) :
    Except ListingError Progress := do
  let progress ←
    (directoryIngest files config).run files .empty (path.getD config.appdataDir)
  return {
    pool := progress.pool
    clean := progress.report.isClean
    messages := progress.report.problems.map Problem.display
    input
    queries := progress.queries }

def ingestCommand (machine : Machine) (config : Config) (command : Command) :
    Except ListingError Progress :=
  match command with
  | .documents paths =>
      .ok (ingestDocuments machine.files config.flags (desktopFiles config) .empty machine.input
        paths)
  | .directory path => ingestDirectory machine.files config machine.input path

def render (json : Bool) (pool : Pool) : Except ViewError String :=
  pool.views.map fun views => if json then renderJson views else renderText views

def failed (messages : List String) (message : String) : Outcome :=
  ⟨1, "", some (messages ++ ["error: " ++ message])⟩

def settings (machine : Machine) (switches : Switches) : Except ConfigError Config :=
  (Config.load machine.files machine.configurations switches.config machine.environment).map
    fun config => configure config switches

def runWith (machine : Machine) (options : Options) : Outcome :=
  match settings machine options.switches with
  | .error _ => failed [] "could not load configuration"
  | .ok config =>
      match ingestCommand machine config options.command with
      | .error _ => failed [] "could not read metadata"
      | .ok progress =>
          match render options.switches.json progress.pool with
          | .error _ => failed progress.messages "could not write output"
          | .ok output => ⟨if progress.clean then 0 else 1, output, some progress.messages⟩

def run (machine : Machine) (words : List (List UInt8)) : Outcome :=
  match Options.ofWords words with
  | .ok options => runWith machine options
  | .error .usage => ⟨2, "", none⟩
  | .error .help => ⟨0, usageText, some []⟩
  | .error .version => ⟨0, versionText, some []⟩

/-- The desktop files that were asked for. -/
def queriedPaths (config : Config) (queries : List (String × Bool)) : List Path :=
  queries.map fun (id, useRoot) => (desktopFiles config).path id useRoot

/-- The paths that a command looks at, as far as the files say. -/
def commandPaths (machine : Machine) (config : Config) (command : Command) : List Path :=
  let queried :=
    match ingestCommand machine config command with
    | .ok progress => queriedPaths config progress.queries
    | .error _ => []
  match command with
  | .documents paths => paths.filter (· != inputPath) ++ queried
  | .directory path =>
      let directory :=
        (directoryIngest machine.files config).lookupPath (path.getD config.appdataDir)
      let documents :=
        match machine.files.list directory with
        | .ok names =>
            (DirectoryIngest.documentNames names).map fun name => directory.join (.ofString name)
        | .error _ => []
      directory :: documents ++ queried

def paths (machine : Machine) (words : List (List UInt8)) : List Path :=
  match Options.ofWords words with
  | .error _ => []
  | .ok options =>
      let configs :=
        options.switches.config.elim (Config.defaultFiles machine.configurations) fun path => [path]
      match settings machine options.switches with
      | .error _ => configs
      | .ok config => configs ++ commandPaths machine config options.command

end Program

end Metainfo
