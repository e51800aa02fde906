import Metainfo.Pool.Basic
import Metainfo.Proofs.Pool.Interner

/-!
What each operation of a pool does to its parts: the slots, the staged writes, the attributes
carried out and the known texts.
-/

namespace Metainfo.Pool

theorem record?_eq_some_iff {pool : Pool} {id : RecordId} {record : Record} :
    pool.record? id = some record ↔ pool.slots[id.index]? = some (some record) := by
  simp [record?, Option.join_eq_some_iff]

theorem isLive_iff {pool : Pool} {id : RecordId} :
    pool.isLive id = true ↔ ∃ record, pool.record? id = some record :=
  Option.isSome_iff_exists

theorem index_lt_of_isLive {pool : Pool} {id : RecordId} (h : pool.isLive id = true) :
    id.index < pool.slots.size := by
  obtain ⟨record, hrecord⟩ := isLive_iff.mp h
  exact (Array.getElem?_eq_some_iff.mp (record?_eq_some_iff.mp hrecord)).1

theorem record?_eq_none_of_size_le {pool : Pool} {id : RecordId}
    (h : pool.slots.size ≤ id.index) : pool.record? id = none := by
  simp [record?, h]

/-- The handle of the next record is not live yet. -/
theorem isLive_size (pool : Pool) : pool.isLive ⟨pool.slots.size⟩ = false := by
  have hnone : pool.record? ⟨pool.slots.size⟩ = none :=
    record?_eq_none_of_size_le (Nat.le_refl pool.slots.size)
  simp [isLive, hnone]

theorem isLive_congr {pool pool' : Pool} {id : RecordId}
    (h : pool'.record? id = pool.record? id) : pool'.isLive id = pool.isLive id := by
  rw [isLive, isLive, h]

/-! Allocating and dropping records. -/

@[simp] theorem addRecord_fst (pool : Pool) : pool.addRecord.1 = ⟨pool.slots.size⟩ := rfl

@[simp] theorem size_addRecord (pool : Pool) :
    pool.addRecord.2.slots.size = pool.slots.size + 1 := by
  simp [addRecord]

@[simp] theorem staged_addRecord (pool : Pool) : pool.addRecord.2.staged = pool.staged := rfl

@[simp] theorem attributes_addRecord (pool : Pool) :
    pool.addRecord.2.attributes = pool.attributes := rfl

@[simp] theorem strings_addRecord (pool : Pool) : pool.addRecord.2.strings = pool.strings := rfl

theorem record?_addRecord (pool : Pool) (id : RecordId) :
    pool.addRecord.2.record? id =
      if id = ⟨pool.slots.size⟩ then some .empty else pool.record? id := by
  obtain ⟨index⟩ := id
  simp only [record?, addRecord, Array.getElem?_push, RecordId.mk.injEq]
  split <;> rfl

theorem record?_addRecord_of_isLive {pool : Pool} {id : RecordId} (h : pool.isLive id = true) :
    pool.addRecord.2.record? id = pool.record? id := by
  have hlt := index_lt_of_isLive h
  rw [record?_addRecord, if_neg]
  rintro rfl
  exact Nat.lt_irrefl _ hlt

theorem isLive_addRecord_iff (pool : Pool) (id : RecordId) :
    pool.addRecord.2.isLive id ↔ pool.isLive id ∨ id = pool.addRecord.1 := by
  rw [isLive, record?_addRecord, addRecord_fst]
  by_cases h : id = ⟨pool.slots.size⟩
  · simp [h]
  · rw [if_neg h, isLive]
    simp [h]

@[simp] theorem strings_discard (pool : Pool) (id : RecordId) :
    (pool.discard id).strings = pool.strings := by
  rw [discard]
  split <;> rfl

theorem discard_of_not_isLive {pool : Pool} {id : RecordId} (h : pool.isLive id = false) :
    pool.discard id = pool := by
  simp [discard, h]

theorem size_discard {pool : Pool} {id : RecordId} (h : pool.isLive id = true) :
    (pool.discard id).slots.size =
      if id.index + 1 = pool.slots.size then pool.slots.size - 1 else pool.slots.size := by
  simp only [discard, h, if_true]
  split <;> simp

theorem record?_discard (pool : Pool) (id other : RecordId) :
    (pool.discard id).record? other = if other = id then none else pool.record? other := by
  obtain ⟨index⟩ := id
  obtain ⟨position⟩ := other
  cases hlive : pool.isLive ⟨index⟩ with
  | false =>
      rw [discard_of_not_isLive hlive]
      split
      · rename_i heq
        rw [heq]
        simpa [isLive] using hlive
      · rfl
  | true =>
      have hlt := index_lt_of_isLive hlive
      simp only [RecordId.mk.injEq]
      simp only [record?, discard, hlive, if_true]
      by_cases hlast : index + 1 = pool.slots.size
      · rw [if_pos hlast, Array.getElem?_pop]
        by_cases heq : position = index
        · rw [if_pos heq, if_neg (by omega)]
          rfl
        · rw [if_neg heq]
          split
          · rfl
          · rw [Array.getElem?_eq_none (by omega)]
      · rw [if_neg hlast, Array.getElem?_setIfInBounds]
        by_cases heq : position = index
        · subst heq
          have hlt : position < pool.slots.size := hlt
          simp [hlt]
        · simp [heq, Ne.symm heq]

theorem isLive_discard_iff (pool : Pool) (id other : RecordId) :
    (pool.discard id).isLive other ↔ pool.isLive other ∧ other ≠ id := by
  rw [isLive, record?_discard]
  by_cases h : other = id
  · simp [h]
  · rw [if_neg h, isLive]
    simp [h]

theorem staged_discard {pool : Pool} {id : RecordId} (h : pool.isLive id = true) :
    (pool.discard id).staged.toList = pool.staged.toList.filter fun entry => entry.1 != id := by
  simp [discard, h]

theorem attributes_discard {pool : Pool} {id : RecordId} (h : pool.isLive id = true) :
    (pool.discard id).attributes = pool.attributes.erase id := by
  simp [discard, h]

/-! Changing a record. -/

@[simp] theorem size_update (pool : Pool) (id : RecordId) (change : Record → Record) :
    (pool.update id change).slots.size = pool.slots.size := by
  rw [update]
  split <;> simp

@[simp] theorem staged_update (pool : Pool) (id : RecordId) (change : Record → Record) :
    (pool.update id change).staged = pool.staged := by
  rw [update]
  split <;> rfl

@[simp] theorem attributes_update (pool : Pool) (id : RecordId) (change : Record → Record) :
    (pool.update id change).attributes = pool.attributes := by
  rw [update]
  split <;> rfl

@[simp] theorem strings_update (pool : Pool) (id : RecordId) (change : Record → Record) :
    (pool.update id change).strings = pool.strings := by
  rw [update]
  split <;> rfl

theorem record?_update (pool : Pool) (id other : RecordId) (change : Record → Record) :
    (pool.update id change).record? other =
      if other = id then (pool.record? id).map change else pool.record? other := by
  obtain ⟨index⟩ := id
  obtain ⟨position⟩ := other
  cases hrecord : pool.record? ⟨index⟩ with
  | none =>
      simp only [update, hrecord]
      split
      · rename_i heq
        rw [heq, hrecord]
        rfl
      · rfl
  | some record =>
      have hlt : index < pool.slots.size := index_lt_of_isLive (isLive_iff.mpr ⟨record, hrecord⟩)
      simp only [update, hrecord]
      simp only [record?, RecordId.mk.injEq, Array.getElem?_setIfInBounds]
      by_cases heq : position = index
      · subst heq
        simp [hlt]
      · simp [heq, Ne.symm heq]

@[simp] theorem isLive_update (pool : Pool) (id other : RecordId) (change : Record → Record) :
    (pool.update id change).isLive other = pool.isLive other := by
  simp only [isLive, record?_update]
  split
  · rename_i heq
    simp [heq]
  · rfl

theorem name?_update {pool : Pool} {id : RecordId} {change : Record → Record}
    (h : ∀ record, (change record).name = record.name) (other : RecordId) :
    (pool.update id change).name? other = pool.name? other := by
  rw [name?, name?, record?_update]
  split
  · rename_i heq
    rw [heq]
    cases pool.record? id with
    | none => rfl
    | some found => exact h found
  · rfl

/-! Interning and staging. -/

@[simp] theorem slots_intern (pool : Pool) (text : String) :
    (pool.intern text).2.slots = pool.slots := rfl

@[simp] theorem staged_intern (pool : Pool) (text : String) :
    (pool.intern text).2.staged = pool.staged := rfl

@[simp] theorem attributes_intern (pool : Pool) (text : String) :
    (pool.intern text).2.attributes = pool.attributes := rfl

@[simp] theorem strings_intern (pool : Pool) (text : String) :
    (pool.intern text).2.strings = (pool.strings.intern text).2 := rfl

@[simp] theorem intern_fst (pool : Pool) (text : String) :
    (pool.intern text).1 = (pool.strings.intern text).1 := rfl

@[simp] theorem record?_intern (pool : Pool) (text : String) (id : RecordId) :
    (pool.intern text).2.record? id = pool.record? id := rfl

@[simp] theorem slots_stage (pool : Pool) (id : RecordId) (write : Write) :
    (pool.stage id write).slots = pool.slots := by
  rw [stage]
  split <;> rfl

@[simp] theorem attributes_stage (pool : Pool) (id : RecordId) (write : Write) :
    (pool.stage id write).attributes = pool.attributes := by
  rw [stage]
  split <;> rfl

@[simp] theorem strings_stage (pool : Pool) (id : RecordId) (write : Write) :
    (pool.stage id write).strings = pool.strings := by
  rw [stage]
  split <;> rfl

@[simp] theorem record?_stage (pool : Pool) (id other : RecordId) (write : Write) :
    (pool.stage id write).record? other = pool.record? other := by
  rw [record?, slots_stage, record?]

theorem staged_stage (pool : Pool) (id : RecordId) (write : Write) :
    (pool.stage id write).staged.toList =
      pool.staged.toList ++ if pool.isLive id then [(id, write)] else [] := by
  rw [stage]
  split <;> simp

/-! Carrying writes out. -/

@[simp] theorem slots_apply (pool : Pool) (id : RecordId) (write : Write) :
    (pool.apply id write).slots = pool.slots := by
  cases write <;> rfl

@[simp] theorem staged_apply (pool : Pool) (id : RecordId) (write : Write) :
    (pool.apply id write).staged = pool.staged := by
  cases write <;> rfl

/-- Carries writes out one after the other. -/
def applyAll (pool : Pool) (writes : List (RecordId × Write)) : Pool :=
  writes.foldl (fun pool entry => pool.apply entry.1 entry.2) pool

theorem internalize_eq_applyAll (pool : Pool) :
    pool.internalize = { pool with staged := #[] }.applyAll pool.staged.toList := by
  rw [internalize, ← Array.foldl_toList, applyAll]

@[simp] theorem slots_applyAll (pool : Pool) (writes : List (RecordId × Write)) :
    (pool.applyAll writes).slots = pool.slots := by
  induction writes generalizing pool with
  | nil => rfl
  | cons entry rest ih =>
      change ((pool.apply entry.1 entry.2).applyAll rest).slots = pool.slots
      rw [ih, slots_apply]

@[simp] theorem staged_applyAll (pool : Pool) (writes : List (RecordId × Write)) :
    (pool.applyAll writes).staged = pool.staged := by
  induction writes generalizing pool with
  | nil => rfl
  | cons entry rest ih =>
      change ((pool.apply entry.1 entry.2).applyAll rest).staged = pool.staged
      rw [ih, staged_apply]

@[simp] theorem slots_internalize (pool : Pool) : pool.internalize.slots = pool.slots := by
  rw [internalize_eq_applyAll, slots_applyAll]

@[simp] theorem staged_internalize (pool : Pool) : pool.internalize.staged = #[] := by
  rw [internalize_eq_applyAll, staged_applyAll]

@[simp] theorem record?_internalize (pool : Pool) (id : RecordId) :
    pool.internalize.record? id = pool.record? id := by
  rw [record?, slots_internalize, record?]

end Metainfo.Pool
