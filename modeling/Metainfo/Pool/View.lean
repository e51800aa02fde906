import Metainfo.Pool.Basic

/-!
A record with every number replaced by its text.
-/

namespace Metainfo

inductive AttributeValue where
  | text (value : String)
  | list (values : List String)
  deriving DecidableEq, Repr

/-- The attributes are ordered by their names. -/
structure RecordView where
  id : RecordId
  name : Option String
  arch : Option String
  version : Option String
  requires : List String
  provides : List String
  attributes : List (String × AttributeValue)
  deriving DecidableEq, Repr

inductive ViewError where
  | recordNotFound (id : RecordId)
  | unknownId (id : StringId)
  deriving DecidableEq, Repr

def ViewError.message : ViewError → String
  | .recordNotFound id => "record not found: #" ++ toString id.index
  | .unknownId id => "unknown string id: " ++ toString id.index

def ViewError.isRetryable (_ : ViewError) : Bool :=
  false

namespace Pool

/-- A relation as text, an unknown number as the empty text. -/
def render (pool : Pool) (relation : Relation) : String :=
  let name := (pool.resolve? relation.name).getD ""
  match relation.version with
  | none => name
  | some version => name ++ " = " ++ (pool.resolve? version).getD ""

def renderRequires (pool : Pool) (id : RecordId) : List String :=
  (pool.requires id).map pool.render

def renderProvides (pool : Pool) (id : RecordId) : List String :=
  (pool.provides id).map pool.render

def textAttribute (pool : Pool) (id : RecordId) (key : TextKey) :
    List (String × AttributeValue) :=
  ((pool.lookupText id key).map fun value => (key.name, .text value)).toList

def listAttribute (pool : Pool) (id : RecordId) (key : ListKey) :
    List (String × AttributeValue) :=
  match pool.lookupList id key with
  | [] => []
  | value :: rest => [(key.name, .list (value :: rest))]

def viewAttributes (pool : Pool) (id : RecordId) : List (String × AttributeValue) :=
  pool.textAttribute id .category ++ pool.textAttribute id .description ++
    pool.listAttribute id .extensions ++ pool.listAttribute id .files ++
    pool.listAttribute id .group ++ pool.listAttribute id .keywords ++
    pool.listAttribute id .license ++ pool.textAttribute id .summary ++
    pool.textAttribute id .url

def resolveField (pool : Pool) : Option StringId → Except ViewError (Option String)
  | none => .ok none
  | some id =>
      match pool.resolve? id with
      | some text => .ok (some text)
      | none => .error (.unknownId id)

def view (pool : Pool) (id : RecordId) : Except ViewError RecordView := do
  let some record := pool.record? id
    | .error (.recordNotFound id)
  let name ← pool.resolveField record.name
  let arch ← pool.resolveField record.arch
  let version ← pool.resolveField record.version
  return {
    id, name, arch, version
    requires := pool.renderRequires id
    provides := pool.renderProvides id
    attributes := pool.viewAttributes id }

def views (pool : Pool) : Except ViewError (List RecordView) :=
  pool.records.mapM pool.view

end Pool

end Metainfo
