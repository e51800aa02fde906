import Metainfo.Proofs.Pool.WellFormed

/-!
Operations on a pool as data, and the pools that a series of them makes.
-/

namespace Metainfo

/-- An operation on a store of records in which `τ` stands for texts. -/
inductive Operation (τ : Type) where
  | addRecord
  | discard (id : RecordId)
  | intern (text : String)
  | setName (id : RecordId) (name : τ)
  | setArch (id : RecordId) (arch : τ)
  | setVersion (id : RecordId) (version : τ)
  | addRequires (id : RecordId) (name : τ) (version : Option τ)
  | addProvides (id : RecordId) (name : τ) (version : Option τ)
  | setText (id : RecordId) (key : TextKey) (value : String)
  | addToList (id : RecordId) (key : ListKey) (value : String)
  | internalize
  deriving DecidableEq, Repr

namespace Operation

variable {τ υ : Type}

def map (f : τ → υ) : Operation τ → Operation υ
  | .addRecord => .addRecord
  | .discard id => .discard id
  | .intern text => .intern text
  | .setName id name => .setName id (f name)
  | .setArch id arch => .setArch id (f arch)
  | .setVersion id version => .setVersion id (f version)
  | .addRequires id name version => .addRequires id (f name) (version.map f)
  | .addProvides id name version => .addProvides id (f name) (version.map f)
  | .setText id key value => .setText id key value
  | .addToList id key value => .addToList id key value
  | .internalize => .internalize

/-- The texts or numbers that an operation is given to store. -/
def arguments : Operation τ → List τ
  | .setName _ name => [name]
  | .setArch _ arch => [arch]
  | .setVersion _ version => [version]
  | .addRequires _ name version => name :: version.toList
  | .addProvides _ name version => name :: version.toList
  | _ => []

end Operation

namespace Pool

def perform (pool : Pool) : Operation StringId → Pool
  | .addRecord => pool.addRecord.2
  | .discard id => pool.discard id
  | .intern text => (pool.intern text).2
  | .setName id name => pool.setName id name
  | .setArch id arch => pool.setArch id arch
  | .setVersion id version => pool.setVersion id version
  | .addRequires id name version => pool.addRequires id ⟨name, version⟩
  | .addProvides id name version => pool.addProvides id ⟨name, version⟩
  | .setText id key value => pool.setText id key value
  | .addToList id key value => pool.addToList id key value
  | .internalize => pool.internalize

def performAll (pool : Pool) (operations : List (Operation StringId)) : Pool :=
  operations.foldl perform pool

/-- A pool that the operations make of the empty one. -/
def Reachable (pool : Pool) : Prop :=
  ∃ operations, pool = empty.performAll operations

theorem WellFormed.perform {pool : Pool} (h : pool.WellFormed)
    (operation : Operation StringId) : (pool.perform operation).WellFormed := by
  cases operation with
  | addRecord => exact h.addRecord
  | discard id => exact h.discard id
  | intern text => exact h.intern text
  | setName id name => exact h.update id _
  | setArch id arch => exact h.update id _
  | setVersion id version => exact h.update id _
  | addRequires id name version => exact h.update id _
  | addProvides id name version => exact h.update id _
  | setText id key value => exact h.stage id _
  | addToList id key value => exact h.stage id _
  | internalize => exact h.internalize

theorem WellFormed.performAll {pool : Pool} (h : pool.WellFormed)
    (operations : List (Operation StringId)) : (pool.performAll operations).WellFormed := by
  induction operations generalizing pool with
  | nil => exact h
  | cons operation rest ih => exact ih (h.perform operation)

theorem Reachable.wellFormed {pool : Pool} (h : pool.Reachable) : pool.WellFormed := by
  obtain ⟨operations, rfl⟩ := h
  exact wellFormed_empty.performAll operations

end Pool

end Metainfo
