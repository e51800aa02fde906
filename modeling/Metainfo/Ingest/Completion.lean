import Metainfo.Ingest.Settings
import Metainfo.Naming

/-!
What is added to a record when its element closes: missing fields, the relations that tie it to
its metadata file, and the relation by which it provides itself.
-/

namespace Metainfo.Completion

open Metainfo.Naming

/-- What was found in a record's element besides what the pool holds. -/
structure Findings where
  /-- The text of the id, the name of the companion desktop file. -/
  id : Option String
  hasSummary : Bool
  deriving DecidableEq, Repr

/-- Every record runs anywhere and has no version unless something else was said. -/
def fillDefaults (pool : Pool) (record : RecordId) : Pool :=
  let pool := if (pool.arch? record).isNone then pool.setArch record .noarch else pool
  if (pool.version? record).isNone then pool.setVersion record .empty else pool

/-- The id whose desktop entry is asked for: only if a gap can be filled from it. -/
def query? (settings : IngestSettings) (findings : Findings) (pool : Pool)
    (record : RecordId) : Option String :=
  findings.id.filter fun _ =>
    ((pool.name? record).isNone || !findings.hasSummary) && settings.flags.checkDesktopFile &&
      settings.resolver.isSome

def entry? (settings : IngestSettings) (findings : Findings) (pool : Pool)
    (record : RecordId) : Option DesktopEntry := do
  let id ← query? settings findings pool record
  let resolver ← settings.resolver
  resolver id settings.flags.useRoot

def setNameText (pool : Pool) (record : RecordId) (name : String) : Pool :=
  match pool.intern name with
  | (id, pool) => pool.setName record id

/-- Takes a missing name and a missing summary over from a desktop entry. -/
def fillFromEntry (findings : Findings) (entry : DesktopEntry) (pool : Pool)
    (record : RecordId) : Pool :=
  let pool :=
    match pool.name? record, entry.name with
    | none, some name => setNameText pool record (applicationName name)
    | _, _ => pool
  match findings.hasSummary, entry.comment with
  | false, some comment => pool.setText record .summary comment
  | _, _ => pool

def fillNameFromId (findings : Findings) (pool : Pool) (record : RecordId) : Pool :=
  match findings.id, pool.name? record with
  | some id, none => setNameText pool record (nameFromId id)
  | _, _ => pool

/-- Requires a capability and provides the link to a target. -/
def link (pool : Pool) (record : RecordId) (requirement : StringId) (target : String) : Pool :=
  match pool.intern (appdataLink target) with
  | (provided, pool) =>
      (pool.addRequires record (.named requirement)).addProvides record (.named provided)

def linkPackage (pool : Pool) (record : RecordId) (package : String) : Pool :=
  match pool.intern package with
  | (requirement, pool) => link pool record requirement package

def linkOwner (record : RecordId) (pool : Pool) (owner : RecordId) : Pool :=
  match pool.name? owner with
  | none => pool
  | some name =>
      match pool.resolve? name with
      | none => pool
      | some text => link pool record name text

/-- Ties a record without requirements to the owners of its document. -/
def linkOwners (settings : IngestSettings) (pool : Pool) (record : RecordId) : Pool :=
  if pool.hasRequires record then pool
  else settings.owners.foldl (linkOwner record) pool

/-- Ties a record without requirements to the file of its document, whose name is guessed from
the id if it is not known. -/
def linkFile (settings : IngestSettings) (findings : Findings) (pool : Pool)
    (record : RecordId) : Pool :=
  if pool.hasRequires record then pool
  else
    match settings.filename.or (findings.id.bind guessFilename) with
    | none => pool
    | some filename =>
        match pool.intern (appdataRequirement filename) with
        | (requirement, pool) => link pool record requirement filename

/-- A record that has a name and is no source package provides itself in its version. -/
def provideSelf (pool : Pool) (record : RecordId) : Pool :=
  match pool.name? record, pool.arch? record with
  | some name, some arch =>
      if arch.isSourceArch then pool
      else pool.addProvides record (.equals name ((pool.version? record).getD .empty))
  | _, _ => pool

def complete (settings : IngestSettings) (findings : Findings) (pool : Pool)
    (record : RecordId) : Pool :=
  let pool := fillDefaults pool record
  let pool :=
    match entry? settings findings pool record with
    | none => pool
    | some entry => fillFromEntry findings entry pool record
  let pool := fillNameFromId findings pool record
  let pool := linkOwners settings pool record
  let pool := linkFile settings findings pool record
  provideSelf pool record

end Metainfo.Completion
