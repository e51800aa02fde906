import Metainfo.Pool.Interner

/-!
What is known of one package: its name, architecture and version, its relations and attributes.
-/

namespace Metainfo

/-- A capability, pinned to a version or not. -/
structure Relation where
  name : StringId
  version : Option StringId
  deriving DecidableEq, Repr

namespace Relation

def named (name : StringId) : Relation := ⟨name, none⟩

def equals (name version : StringId) : Relation := ⟨name, some version⟩

end Relation

/-- Adds an element at the end unless it is there already. -/
def addNew {α : Type} [BEq α] (elements : List α) (element : α) : List α :=
  if elements.contains element then elements else elements ++ [element]

/-- Stands for a record of the pool that allocated it. -/
structure RecordId where
  index : Nat
  deriving DecidableEq, Hashable, Repr

structure Record where
  name : Option StringId
  arch : Option StringId
  version : Option StringId
  requires : List Relation
  provides : List Relation
  deriving DecidableEq, Repr

namespace Record

def empty : Record := ⟨none, none, none, [], []⟩

def addRequires (record : Record) (relation : Relation) : Record :=
  { record with requires := addNew record.requires relation }

def addProvides (record : Record) (relation : Relation) : Record :=
  { record with provides := addNew record.provides relation }

end Record

/-- Attributes with one value; a later value replaces an earlier one. -/
inductive TextKey where
  | category
  | summary
  | description
  | url
  deriving DecidableEq, Repr

def TextKey.name : TextKey → String
  | .category => "category"
  | .summary => "summary"
  | .description => "description"
  | .url => "url"

/-- Attributes with any number of values, kept in the order in which they were added. -/
inductive ListKey where
  | license
  | group
  | extensions
  | keywords
  | files
  deriving DecidableEq, Repr

def ListKey.name : ListKey → String
  | .license => "license"
  | .group => "group"
  | .extensions => "extends"
  | .keywords => "keywords"
  | .files => "filelist"

/-- The attributes of one record, the values of the lists interned. -/
structure RecordAttributes where
  category : Option String
  summary : Option String
  description : Option String
  url : Option String
  license : List StringId
  group : List StringId
  extensions : List StringId
  keywords : List StringId
  files : List StringId
  deriving DecidableEq, Repr

namespace RecordAttributes

def empty : RecordAttributes := ⟨none, none, none, none, [], [], [], [], []⟩

def text? (attributes : RecordAttributes) : TextKey → Option String
  | .category => attributes.category
  | .summary => attributes.summary
  | .description => attributes.description
  | .url => attributes.url

def setText (attributes : RecordAttributes) (key : TextKey) (value : String) :
    RecordAttributes :=
  match key with
  | .category => { attributes with category := some value }
  | .summary => { attributes with summary := some value }
  | .description => { attributes with description := some value }
  | .url => { attributes with url := some value }

def list (attributes : RecordAttributes) : ListKey → List StringId
  | .license => attributes.license
  | .group => attributes.group
  | .extensions => attributes.extensions
  | .keywords => attributes.keywords
  | .files => attributes.files

def addToList (attributes : RecordAttributes) (key : ListKey) (value : StringId) :
    RecordAttributes :=
  match key with
  | .license => { attributes with license := attributes.license ++ [value] }
  | .group => { attributes with group := attributes.group ++ [value] }
  | .extensions => { attributes with extensions := attributes.extensions ++ [value] }
  | .keywords => { attributes with keywords := attributes.keywords ++ [value] }
  | .files => { attributes with files := attributes.files ++ [value] }

end RecordAttributes

end Metainfo
