import Metainfo.Pool.View
import Metainfo.Proofs.Pool.Operation

/-!
A store of records without numbers for texts, without staging and without holes: a count of slots
and a map from the live handles to records that hold their texts.
-/

namespace Metainfo

structure PlainRelation where
  name : String
  version : Option String
  deriving DecidableEq, Repr

def PlainRelation.render (relation : PlainRelation) : String :=
  match relation.version with
  | none => relation.name
  | some version => relation.name ++ " = " ++ version

structure PlainRecord where
  name : Option String
  arch : Option String
  version : Option String
  requires : List PlainRelation
  provides : List PlainRelation
  /-- The last value written, if any. -/
  text? : TextKey → Option String
  /-- All values added, in order. -/
  list : ListKey → List String

namespace PlainRecord

def empty : PlainRecord := ⟨none, none, none, [], [], fun _ => none, fun _ => []⟩

def textAttribute (record : PlainRecord) (key : TextKey) : Option (String × AttributeValue) :=
  (record.text? key).map fun value => (key.name, .text value)

def listAttribute (record : PlainRecord) (key : ListKey) : Option (String × AttributeValue) :=
  if record.list key = [] then none else some (key.name, .list (record.list key))

/-- The attributes that have a value, by name. -/
def attributes (record : PlainRecord) : List (String × AttributeValue) :=
  [record.textAttribute .category, record.textAttribute .description,
    record.listAttribute .extensions, record.listAttribute .files,
    record.listAttribute .group, record.listAttribute .keywords,
    record.listAttribute .license, record.textAttribute .summary,
    record.textAttribute .url].flatMap Option.toList

def view (record : PlainRecord) (id : RecordId) : RecordView where
  id := id
  name := record.name
  arch := record.arch
  version := record.version
  requires := record.requires.map PlainRelation.render
  provides := record.provides.map PlainRelation.render
  attributes := record.attributes

end PlainRecord

/-- All that can be seen of a store of records. -/
structure Observation where
  /-- The handle of the next record. -/
  next : RecordId
  records : List RecordId
  size : Nat
  name : RecordId → Option String
  arch : RecordId → Option String
  version : RecordId → Option String
  requires : RecordId → List String
  provides : RecordId → List String
  hasRequires : RecordId → Bool
  text : RecordId → TextKey → Option String
  list : RecordId → ListKey → List String
  view : RecordId → Except ViewError RecordView

def Pool.observe (pool : Pool) : Observation where
  next := pool.addRecord.1
  records := pool.records
  size := pool.size
  name id := (pool.name? id).bind pool.resolve?
  arch id := (pool.arch? id).bind pool.resolve?
  version id := (pool.version? id).bind pool.resolve?
  requires := pool.renderRequires
  provides := pool.renderProvides
  hasRequires := pool.hasRequires
  text := pool.lookupText
  list := pool.lookupList
  view := pool.view

@[ext] structure PlainStore where
  slots : Nat
  record? : RecordId → Option PlainRecord

namespace PlainStore

def empty : PlainStore := ⟨0, fun _ => none⟩

/-- Changes the record of a live handle; other handles are passed over. -/
def update (store : PlainStore) (id : RecordId) (change : PlainRecord → PlainRecord) :
    PlainStore :=
  { store with
    record? := fun other =>
      if other = id then (store.record? id).map change else store.record? other }

def discard (store : PlainStore) (id : RecordId) : PlainStore :=
  if (store.record? id).isSome then
    { slots := if id.index + 1 = store.slots then store.slots - 1 else store.slots
      record? := fun other => if other = id then none else store.record? other }
  else store

def perform (store : PlainStore) : Operation String → PlainStore
  | .addRecord =>
      { slots := store.slots + 1
        record? := fun id => if id = ⟨store.slots⟩ then some .empty else store.record? id }
  | .discard id => store.discard id
  | .intern _ => store
  | .setName id name => store.update id fun record => { record with name := some name }
  | .setArch id arch => store.update id fun record => { record with arch := some arch }
  | .setVersion id version =>
      store.update id fun record => { record with version := some version }
  | .addRequires id name version =>
      store.update id fun record =>
        { record with requires := addNew record.requires ⟨name, version⟩ }
  | .addProvides id name version =>
      store.update id fun record =>
        { record with provides := addNew record.provides ⟨name, version⟩ }
  | .setText id key value =>
      store.update id fun record =>
        { record with
          text? := fun other => if other = key then some value else record.text? other }
  | .addToList id key value =>
      store.update id fun record =>
        { record with
          list := fun other =>
            if other = key then record.list other ++ [value] else record.list other }
  | .internalize => store

def performAll (store : PlainStore) (operations : List (Operation String)) : PlainStore :=
  operations.foldl perform store

def records (store : PlainStore) : List RecordId :=
  ((List.range store.slots).map RecordId.mk).filter fun id => (store.record? id).isSome

def observe (store : PlainStore) : Observation where
  next := ⟨store.slots⟩
  records := store.records
  size := store.records.length
  name id := (store.record? id).bind PlainRecord.name
  arch id := (store.record? id).bind PlainRecord.arch
  version id := (store.record? id).bind PlainRecord.version
  requires id := ((store.record? id).elim [] PlainRecord.requires).map PlainRelation.render
  provides id := ((store.record? id).elim [] PlainRecord.provides).map PlainRelation.render
  hasRequires id := (store.record? id).any fun record => !record.requires.isEmpty
  text id key := (store.record? id).bind (·.text? key)
  list id key := (store.record? id).elim [] (·.list key)
  view id :=
    match store.record? id with
    | none => .error (.recordNotFound id)
    | some record => .ok (record.view id)

end PlainStore

end Metainfo
