import Metainfo.Pool.Record

/-!
The store of all records.  Attribute writes are staged in a log and moved to the records'
attributes by `internalize`; look-ups see both.  Writes to records that are not live are ignored.
-/

namespace Metainfo

inductive Write where
  | set (key : TextKey) (value : String)
  | push (key : ListKey) (value : String)
  deriving DecidableEq, Repr

structure Pool where
  strings : Interner
  slots : Array (Option Record)
  staged : Array (RecordId × Write)
  attributes : Std.HashMap RecordId RecordAttributes

namespace Pool

def empty : Pool := ⟨.initial, #[], #[], {}⟩

def record? (pool : Pool) (id : RecordId) : Option Record :=
  (pool.slots[id.index]?).join

def isLive (pool : Pool) (id : RecordId) : Bool :=
  (pool.record? id).isSome

def records (pool : Pool) : List RecordId :=
  ((List.range pool.slots.size).map RecordId.mk).filter pool.isLive

def size (pool : Pool) : Nat :=
  pool.slots.countP Option.isSome

def isEmpty (pool : Pool) : Bool :=
  pool.size = 0

def stagedSize (pool : Pool) : Nat :=
  pool.staged.size

def addRecord (pool : Pool) : RecordId × Pool :=
  (⟨pool.slots.size⟩, { pool with slots := pool.slots.push (some .empty) })

/-- Drops a live record, its staged writes and its attributes.  The last slot is given back; any
other one stays empty for good. -/
def discard (pool : Pool) (id : RecordId) : Pool :=
  if pool.isLive id then
    { pool with
      slots :=
        if id.index + 1 = pool.slots.size then pool.slots.pop
        else pool.slots.setIfInBounds id.index none
      staged := pool.staged.filter fun (owner, _) => owner != id
      attributes := pool.attributes.erase id }
  else pool

def intern (pool : Pool) (text : String) : StringId × Pool :=
  match pool.strings.intern text with
  | (id, strings) => (id, { pool with strings })

def resolve? (pool : Pool) (id : StringId) : Option String :=
  pool.strings.resolve? id

def update (pool : Pool) (id : RecordId) (change : Record → Record) : Pool :=
  match pool.record? id with
  | some record => { pool with slots := pool.slots.setIfInBounds id.index (some (change record)) }
  | none => pool

def name? (pool : Pool) (id : RecordId) : Option StringId :=
  (pool.record? id).bind Record.name

def arch? (pool : Pool) (id : RecordId) : Option StringId :=
  (pool.record? id).bind Record.arch

def version? (pool : Pool) (id : RecordId) : Option StringId :=
  (pool.record? id).bind Record.version

def setName (pool : Pool) (id : RecordId) (name : StringId) : Pool :=
  pool.update id fun record => { record with name := some name }

def setArch (pool : Pool) (id : RecordId) (arch : StringId) : Pool :=
  pool.update id fun record => { record with arch := some arch }

def setVersion (pool : Pool) (id : RecordId) (version : StringId) : Pool :=
  pool.update id fun record => { record with version := some version }

def requires (pool : Pool) (id : RecordId) : List Relation :=
  (pool.record? id).elim [] Record.requires

def provides (pool : Pool) (id : RecordId) : List Relation :=
  (pool.record? id).elim [] Record.provides

def hasRequires (pool : Pool) (id : RecordId) : Bool :=
  !(pool.requires id).isEmpty

def addRequires (pool : Pool) (id : RecordId) (relation : Relation) : Pool :=
  pool.update id (·.addRequires relation)

def addProvides (pool : Pool) (id : RecordId) (relation : Relation) : Pool :=
  pool.update id (·.addProvides relation)

def stage (pool : Pool) (id : RecordId) (write : Write) : Pool :=
  if pool.isLive id then { pool with staged := pool.staged.push (id, write) } else pool

def setText (pool : Pool) (id : RecordId) (key : TextKey) (value : String) : Pool :=
  pool.stage id (.set key value)

def addToList (pool : Pool) (id : RecordId) (key : ListKey) (value : String) : Pool :=
  pool.stage id (.push key value)

def apply (pool : Pool) (id : RecordId) (write : Write) : Pool :=
  let attributes := pool.attributes.getD id .empty
  match write with
  | .set key value =>
      { pool with attributes := pool.attributes.insert id (attributes.setText key value) }
  | .push key value =>
      match pool.strings.intern value with
      | (number, strings) =>
          { pool with
            strings
            attributes := pool.attributes.insert id (attributes.addToList key number) }

/-- Carries the staged writes out in the order in which they were made. -/
def internalize (pool : Pool) : Pool :=
  pool.staged.foldl (fun pool (id, write) => pool.apply id write) { pool with staged := #[] }

/-- The value of an attribute; the last staged one wins over the one carried out. -/
def lookupText (pool : Pool) (id : RecordId) (key : TextKey) : Option String :=
  let staged := pool.staged.toList.reverse.findSome? fun (owner, write) =>
    match write with
    | .set written value => if owner = id && written = key then some value else none
    | .push _ _ => none
  staged.or (pool.attributes[id]?.bind (·.text? key))

/-- The values of an attribute: those carried out, then the staged ones. -/
def lookupList (pool : Pool) (id : RecordId) (key : ListKey) : List String :=
  let internalized :=
    (pool.attributes[id]?.elim [] (·.list key)).filterMap pool.resolve?
  let staged := pool.staged.toList.filterMap fun (owner, write) =>
    match write with
    | .push written value => if owner = id && written = key then some value else none
    | .set _ _ => none
  internalized ++ staged

end Pool

end Metainfo
