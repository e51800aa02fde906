import Metainfo.Proofs.Pool.History

/-!
Operations on one record, and what they leave alone: all other records with their attributes, and
the texts of all numbers given out before.
-/

namespace Metainfo

/-- The operations that concern one record only; interning concerns none. -/
def Operation.Edits {τ : Type} (id : RecordId) : Operation τ → Prop
  | .intern _ => True
  | .setName target _ | .setArch target _ | .setVersion target _ => target = id
  | .addRequires target _ _ | .addProvides target _ _ => target = id
  | .setText target _ _ | .addToList target _ _ => target = id
  | .addRecord | .discard _ | .internalize => False

namespace Pool

/-- The second pool is made of the first one by operations on one record. -/
def EditedTo (id : RecordId) (before after : Pool) : Prop :=
  ∃ operations, (∀ operation ∈ operations, operation.Edits id) ∧
    after = before.performAll operations

namespace EditedTo

variable {id : RecordId} {before middle after : Pool}

theorem refl (id : RecordId) (pool : Pool) : EditedTo id pool pool :=
  ⟨[], by simp, rfl⟩

theorem trans (hfirst : EditedTo id before middle) (hsecond : EditedTo id middle after) :
    EditedTo id before after := by
  obtain ⟨first, hfirst, rfl⟩ := hfirst
  obtain ⟨second, hsecond, rfl⟩ := hsecond
  refine ⟨first ++ second, ?_, (performAll_append before first second).symm⟩
  intro operation hoperation
  rcases List.mem_append.mp hoperation with h | h
  · exact hfirst operation h
  · exact hsecond operation h

theorem of_perform (pool : Pool) (operation : Operation StringId) (h : operation.Edits id) :
    EditedTo id pool (pool.perform operation) :=
  ⟨[operation], by simpa using h, rfl⟩

theorem intern (pool : Pool) (text : String) : EditedTo id pool (pool.intern text).2 :=
  of_perform pool (.intern text) trivial

theorem setName (pool : Pool) (name : StringId) : EditedTo id pool (pool.setName id name) :=
  of_perform pool (.setName id name) rfl

theorem setArch (pool : Pool) (arch : StringId) : EditedTo id pool (pool.setArch id arch) :=
  of_perform pool (.setArch id arch) rfl

theorem setVersion (pool : Pool) (version : StringId) :
    EditedTo id pool (pool.setVersion id version) :=
  of_perform pool (.setVersion id version) rfl

theorem addRequires (pool : Pool) (relation : Relation) :
    EditedTo id pool (pool.addRequires id relation) :=
  of_perform pool (.addRequires id relation.name relation.version) rfl

theorem addProvides (pool : Pool) (relation : Relation) :
    EditedTo id pool (pool.addProvides id relation) :=
  of_perform pool (.addProvides id relation.name relation.version) rfl

theorem setText (pool : Pool) (key : TextKey) (value : String) :
    EditedTo id pool (pool.setText id key value) :=
  of_perform pool (.setText id key value) rfl

theorem addToList (pool : Pool) (key : ListKey) (value : String) :
    EditedTo id pool (pool.addToList id key value) :=
  of_perform pool (.addToList id key value) rfl

theorem ite {condition : Prop} [Decidable condition] (h : EditedTo id before after) :
    EditedTo id before (if condition then after else before) := by
  split
  · exact h
  · exact .refl id before

theorem wellFormed (h : EditedTo id before after) (hbefore : before.WellFormed) :
    after.WellFormed := by
  obtain ⟨operations, -, rfl⟩ := h
  exact hbefore.performAll operations

end EditedTo

/-- The second pool shows the same as the first one but for one record. -/
structure EqualExcept (id : RecordId) (before after : Pool) : Prop where
  size : after.slots.size = before.slots.size
  isLive : after.isLive id = before.isLive id
  record? : ∀ other, other ≠ id → after.record? other = before.record? other
  staged : ∃ writes, after.staged.toList = before.staged.toList ++ writes ∧
    ∀ entry ∈ writes, entry.1 = id
  attributes : after.attributes = before.attributes
  strings : before.strings.Extends after.strings

namespace EqualExcept

variable {id other : RecordId} {before middle after : Pool}

theorem refl (id : RecordId) (pool : Pool) : EqualExcept id pool pool where
  size := rfl
  isLive := rfl
  record? _ _ := rfl
  staged := ⟨[], by simp, by simp⟩
  attributes := rfl
  strings := Interner.Extends.refl _

theorem trans (hfirst : EqualExcept id before middle) (hsecond : EqualExcept id middle after) :
    EqualExcept id before after where
  size := hsecond.size.trans hfirst.size
  isLive := hsecond.isLive.trans hfirst.isLive
  record? other hother := (hsecond.record? other hother).trans (hfirst.record? other hother)
  staged := by
    obtain ⟨first, hstaged, hwrites⟩ := hfirst.staged
    obtain ⟨second, hstaged', hwrites'⟩ := hsecond.staged
    refine ⟨first ++ second, by rw [hstaged', hstaged, List.append_assoc], ?_⟩
    intro entry hentry
    rcases List.mem_append.mp hentry with h | h
    · exact hwrites entry h
    · exact hwrites' entry h
  attributes := hsecond.attributes.trans hfirst.attributes
  strings := hfirst.strings.trans hsecond.strings

theorem intern (pool : Pool) (text : String) : EqualExcept id pool (pool.intern text).2 where
  size := rfl
  isLive := rfl
  record? _ _ := rfl
  staged := ⟨[], by simp, by simp⟩
  attributes := rfl
  strings := Interner.extends_intern _ text

theorem update (pool : Pool) (change : Record → Record) :
    EqualExcept id pool (pool.update id change) where
  size := size_update pool id change
  isLive := isLive_update pool id id change
  record? other hother := by rw [record?_update, if_neg hother]
  staged := ⟨[], by simp, by simp⟩
  attributes := attributes_update pool id change
  strings := by
    rw [strings_update]
    exact Interner.Extends.refl _

theorem stage (pool : Pool) (write : Write) : EqualExcept id pool (pool.stage id write) where
  size := by rw [slots_stage]
  isLive := isLive_congr (record?_stage pool id id write)
  record? other _ := record?_stage pool id other write
  staged := by
    refine ⟨_, staged_stage pool id write, ?_⟩
    split <;> simp
  attributes := attributes_stage pool id write
  strings := by
    rw [strings_stage]
    exact Interner.Extends.refl _

theorem perform (pool : Pool) {operation : Operation StringId} (h : operation.Edits id) :
    EqualExcept id pool (pool.perform operation) := by
  cases operation with
  | intern text => exact intern pool text
  | setName target name => obtain rfl := h; exact update pool _
  | setArch target arch => obtain rfl := h; exact update pool _
  | setVersion target version => obtain rfl := h; exact update pool _
  | addRequires target name version => obtain rfl := h; exact update pool _
  | addProvides target name version => obtain rfl := h; exact update pool _
  | setText target key value => obtain rfl := h; exact stage pool _
  | addToList target key value => obtain rfl := h; exact stage pool _
  | addRecord | discard target | internalize => exact h.elim

theorem lookupText (h : EqualExcept id before after) (hother : other ≠ id) (key : TextKey) :
    after.lookupText other key = before.lookupText other key := by
  obtain ⟨writes, hstaged, hwrites⟩ := h.staged
  have hnone : lastWritten writes other key = none :=
    lastWritten_of_ne (fun entry hentry => hwrites entry hentry ▸ hother.symm) key
  rw [lookupText_eq, lookupText_eq, hstaged, lastWritten_append, hnone, Option.none_or,
    internalText, internalText, h.attributes]

theorem lookupList (h : EqualExcept id before after) (hbefore : before.WellFormed)
    (hother : other ≠ id) (key : ListKey) :
    after.lookupList other key = before.lookupList other key := by
  obtain ⟨writes, hstaged, hwrites⟩ := h.staged
  have hnone : writes.filterMap (addedValue other key) = [] :=
    addedValues_of_ne (fun entry hentry => hwrites entry hentry ▸ hother.symm) key
  rw [lookupList_eq, lookupList_eq, hstaged, List.filterMap_append, hnone, List.append_nil,
    internalNumbers, h.attributes, ← internalNumbers]
  congr 1
  apply List.filterMap_congr
  intro number hnumber
  obtain ⟨text, htext⟩ := hbefore.numbers_known other key number hnumber
  rw [htext]
  exact h.strings number text htext

end EqualExcept

theorem EditedTo.equalExcept {id : RecordId} {before after : Pool} (h : EditedTo id before after) :
    EqualExcept id before after := by
  obtain ⟨operations, hoperations, rfl⟩ := h
  induction operations generalizing before with
  | nil => exact .refl id before
  | cons operation rest ih =>
      exact (EqualExcept.perform before (hoperations operation List.mem_cons_self)).trans
        (ih fun other hother => hoperations other (List.mem_cons_of_mem _ hother))

theorem EqualExcept.isLive_eq {id : RecordId} {before after : Pool}
    (h : EqualExcept id before after) (other : RecordId) :
    after.isLive other = before.isLive other := by
  by_cases hother : other = id
  · rw [hother]
    exact h.isLive
  · exact isLive_congr (h.record? other hother)

/-- The second pool shows of a record what the first one shows of it. -/
structure Kept (id : RecordId) (before after : Pool) : Prop where
  record? : after.record? id = before.record? id
  lookupText : ∀ key, after.lookupText id key = before.lookupText id key
  lookupList : ∀ key, after.lookupList id key = before.lookupList id key
  strings : before.strings.Extends after.strings

namespace Kept

variable {id other : RecordId} {before middle after : Pool}

theorem refl (id : RecordId) (pool : Pool) : Kept id pool pool :=
  ⟨rfl, fun _ => rfl, fun _ => rfl, Interner.Extends.refl _⟩

theorem trans (hfirst : Kept id before middle) (hsecond : Kept id middle after) :
    Kept id before after where
  record? := hsecond.record?.trans hfirst.record?
  lookupText key := (hsecond.lookupText key).trans (hfirst.lookupText key)
  lookupList key := (hsecond.lookupList key).trans (hfirst.lookupList key)
  strings := hfirst.strings.trans hsecond.strings

theorem isLive (h : Kept id before after) : after.isLive id = before.isLive id :=
  isLive_congr h.record?

theorem name? (h : Kept id before after) : after.name? id = before.name? id := by
  rw [Pool.name?, Pool.name?, h.record?]

theorem edited (h : EditedTo other before after) (hbefore : before.WellFormed)
    (hother : id ≠ other) : Kept id before after where
  record? := h.equalExcept.record? id hother
  lookupText := h.equalExcept.lookupText hother
  lookupList := h.equalExcept.lookupList hbefore hother
  strings := h.equalExcept.strings

theorem addRecord (hlive : before.isLive id) : Kept id before before.addRecord.2 where
  record? := record?_addRecord_of_isLive hlive
  lookupText _ := rfl
  lookupList _ := rfl
  strings := Interner.Extends.refl _

theorem discard (pool : Pool) (hother : id ≠ other) : Kept id pool (pool.discard other) where
  record? := by rw [record?_discard, if_neg hother]
  lookupText key := congrFun (lookupText_discard_of_ne hother) key
  lookupList key := congrFun (lookupList_discard_of_ne hother) key
  strings := by
    rw [strings_discard]
    exact Interner.Extends.refl _

theorem internalize {pool : Pool} (h : pool.WellFormed) (id : RecordId) :
    Kept id pool pool.internalize where
  record? := record?_internalize pool id
  lookupText := lookupText_internalize pool id
  lookupList := h.lookupList_internalize id
  strings := strings_internalize_extends pool

end Kept

/-- The second pool has the same records as the first one and shows the same of them; it may only
know more texts. -/
structure Restored (before after : Pool) : Prop where
  size : after.slots.size = before.slots.size
  record? : ∀ id, after.record? id = before.record? id
  staged : after.staged = before.staged
  lookupText : ∀ id key, after.lookupText id key = before.lookupText id key
  lookupList : ∀ id key, after.lookupList id key = before.lookupList id key

namespace Restored

variable {before after : Pool}

theorem refl (pool : Pool) : Restored pool pool :=
  ⟨rfl, fun _ => rfl, rfl, fun _ _ => rfl, fun _ _ => rfl⟩

theorem isLive (h : Restored before after) (id : RecordId) :
    after.isLive id = before.isLive id :=
  isLive_congr (h.record? id)

theorem addRecord (h : Restored before after) : after.addRecord.1 = before.addRecord.1 := by
  rw [addRecord_fst, addRecord_fst, h.size]

theorem records (h : Restored before after) : after.records = before.records := by
  rw [Pool.records, Pool.records, h.size, funext h.isLive]

theorem internalize (h : Restored before after) (hbefore : before.WellFormed)
    (hafter : after.WellFormed) : Restored before.internalize after.internalize where
  size := by simp [h.size]
  record? id := by simp [h.record?]
  staged := by simp
  lookupText id key := by rw [lookupText_internalize, lookupText_internalize, h.lookupText]
  lookupList id key := by
    rw [hafter.lookupList_internalize, hbefore.lookupList_internalize, h.lookupList]

end Restored

/-- Dropping the newest record undoes whatever was done to it. -/
theorem EditedTo.restored_discard {id : RecordId} {before after : Pool}
    (h : EditedTo id before.addRecord.2 after) (hid : before.addRecord.1 = id)
    (hbefore : before.WellFormed) : Restored before (after.discard id) := by
  have hequal := h.equalExcept
  have hfresh : before.addRecord.2.isLive id = true := by
    simp [Pool.isLive, record?_addRecord, ← hid]
  have hlive : after.isLive id = true := hequal.isLive.trans hfresh
  have hdead : before.isLive id = false := by
    rw [← hid]
    exact isLive_size before
  have hne {other : RecordId} (hother : before.isLive other = true) : other ≠ id := by
    rintro rfl
    simp [hdead] at hother
  have hrecord (other : RecordId) : (after.discard id).record? other = before.record? other := by
    rw [record?_discard]
    split
    · rename_i hother
      have hnone : before.record? id = none := by simpa [Pool.isLive] using hdead
      rw [hother, hnone]
    · rename_i hother
      rw [hequal.record? other hother, record?_addRecord, if_neg]
      rw [← hid] at hother
      exact hother
  have hdiscarded : (after.discard id).isLive id = false :=
    (isLive_congr (hrecord id)).trans hdead
  have hafter := h.wellFormed hbefore.addRecord
  constructor
  · have hsize : after.slots.size = before.slots.size + 1 := by
      rw [hequal.size, size_addRecord]
    rw [size_discard hlive, hsize, ← hid]
    simp
  · exact hrecord
  · obtain ⟨writes, hstaged, hwrites⟩ := hequal.staged
    rw [staged_addRecord] at hstaged
    apply Array.toList_inj.mp
    rw [staged_discard hlive, hstaged, List.filter_append]
    have hkept : before.staged.toList.filter (fun entry => entry.1 != id) =
        before.staged.toList :=
      List.filter_eq_self.mpr fun entry hentry => by
        simpa using hne (hbefore.staged_live entry hentry)
    have hdropped : writes.filter (fun entry => entry.1 != id) = [] :=
      List.filter_eq_nil_iff.mpr fun entry hentry => by simp [hwrites entry hentry]
    rw [hkept, hdropped, List.append_nil]
  · intro other key
    by_cases hother : other = id
    · rw [hother, (hafter.discard id).lookupText_of_not_isLive hdiscarded,
        hbefore.lookupText_of_not_isLive hdead]
    · rw [lookupText_discard_of_ne hother, hequal.lookupText hother]
      rfl
  · intro other key
    by_cases hother : other = id
    · rw [hother, (hafter.discard id).lookupList_of_not_isLive hdiscarded,
        hbefore.lookupList_of_not_isLive hdead]
    · rw [lookupList_discard_of_ne hother, hequal.lookupList hbefore.addRecord hother]
      rfl

end Pool

end Metainfo
