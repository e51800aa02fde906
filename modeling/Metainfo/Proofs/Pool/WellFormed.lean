import Mathlib.Data.List.Basic
import Metainfo.Proofs.Pool.Attributes

/-!
What holds of every pool that the operations make: only live records have staged writes or
attributes, and the numbers kept for the values of lists are known. No look-up in such a pool
changes when the staged writes are carried out.
-/

namespace Metainfo.Pool

structure WellFormed (pool : Pool) : Prop where
  strings : pool.strings.Valid
  staged_live : ∀ entry ∈ pool.staged.toList, pool.isLive entry.1 = true
  attributes_live : ∀ id attributes,
    pool.attributes[id]? = some attributes → pool.isLive id = true
  numbers_known : ∀ id key, ∀ number ∈ pool.internalNumbers id key,
    ∃ text, pool.resolve? number = some text

theorem wellFormed_empty : empty.WellFormed where
  strings := Interner.valid_initial
  staged_live := by simp [empty]
  attributes_live := by simp [empty]
  numbers_known := by simp [internalNumbers, empty]

namespace WellFormed

variable {pool later : Pool} (h : pool.WellFormed)

include h

/-- Growing keeps a pool well-formed: no attributes change, no record dies, no number loses its
text, and only live records get writes. -/
theorem grow (strings : later.strings.Valid) (extends_strings : pool.strings.Extends later.strings)
    (attributes : later.attributes = pool.attributes)
    (live : ∀ id, pool.isLive id = true → later.isLive id = true)
    (staged : ∀ entry ∈ later.staged.toList,
      entry ∈ pool.staged.toList ∨ later.isLive entry.1 = true) : later.WellFormed where
  strings := strings
  staged_live := by
    intro entry hentry
    rcases staged entry hentry with hold | hlive
    · exact live _ (h.staged_live entry hold)
    · exact hlive
  attributes_live := by
    intro id found hfound
    rw [attributes] at hfound
    exact live id (h.attributes_live id found hfound)
  numbers_known := by
    intro id key number hnumber
    rw [internalNumbers, attributes] at hnumber
    obtain ⟨text, htext⟩ := h.numbers_known id key number hnumber
    exact ⟨text, extends_strings number text htext⟩

theorem addRecord : pool.addRecord.2.WellFormed := by
  have hstrings : pool.addRecord.2.strings.Valid := h.strings
  refine h.grow hstrings (Interner.Extends.refl _) rfl ?_ ?_
  · intro id hlive
    rw [isLive_congr (record?_addRecord_of_isLive hlive)]
    exact hlive
  · exact fun entry hentry => .inl hentry

theorem update (id : RecordId) (change : Record → Record) :
    (pool.update id change).WellFormed := by
  apply h.grow
  · rw [strings_update]
    exact h.strings
  · rw [strings_update]
    exact Interner.Extends.refl _
  · exact attributes_update ..
  · exact fun other hlive => (isLive_update pool id other change).trans hlive
  · exact fun entry hentry => .inl (by rwa [staged_update] at hentry)

theorem intern (text : String) : (pool.intern text).2.WellFormed :=
  h.grow (h.strings.intern text) (Interner.extends_intern _ text) rfl (fun _ hlive => hlive)
    fun _ hentry => .inl hentry

theorem stage (id : RecordId) (write : Write) : (pool.stage id write).WellFormed := by
  have hlive (other : RecordId) : (pool.stage id write).isLive other = pool.isLive other :=
    isLive_congr (record?_stage ..)
  apply h.grow
  · rw [strings_stage]
    exact h.strings
  · rw [strings_stage]
    exact Interner.Extends.refl _
  · exact attributes_stage ..
  · exact fun other hother => (hlive other).trans hother
  · intro entry hentry
    rw [staged_stage, List.mem_append] at hentry
    rcases hentry with hold | hnew
    · exact .inl hold
    · right
      split at hnew
      · rename_i hid
        rw [List.mem_singleton.mp hnew, hlive]
        exact hid
      · simp at hnew

theorem discard (id : RecordId) : (pool.discard id).WellFormed := by
  cases hlive : pool.isLive id with
  | false =>
      rw [discard_of_not_isLive hlive]
      exact h
  | true =>
      have hother (other : RecordId) (hne : other ≠ id) :
          (pool.discard id).isLive other = pool.isLive other :=
        isLive_congr (by rw [record?_discard, if_neg hne])
      have hattributes (other : RecordId) : (pool.discard id).attributes[other]? =
          if id = other then none else pool.attributes[other]? := by
        simp [attributes_discard hlive, Std.HashMap.getElem?_erase]
      constructor
      · rw [strings_discard]
        exact h.strings
      · intro entry hentry
        simp only [staged_discard hlive, List.mem_filter, bne_iff_ne] at hentry
        rw [hother _ hentry.2]
        exact h.staged_live entry hentry.1
      · intro other found hfound
        rw [hattributes] at hfound
        split at hfound
        · simp at hfound
        · rename_i hne
          rw [hother _ (Ne.symm hne)]
          exact h.attributes_live other found hfound
      · intro other key number hnumber
        rw [internalNumbers, hattributes] at hnumber
        split at hnumber
        · simp at hnumber
        · rw [resolve?, strings_discard]
          exact h.numbers_known other key number hnumber

theorem apply {id : RecordId} (hlive : pool.isLive id = true) (write : Write) :
    (pool.apply id write).WellFormed := by
  have hsame (other : RecordId) : (pool.apply id write).isLive other = pool.isLive other :=
    isLive_congr (by rw [record?, slots_apply, record?])
  constructor
  · exact strings_apply_valid h.strings id write
  · intro entry hentry
    rw [staged_apply] at hentry
    rw [hsame]
    exact h.staged_live entry hentry
  · intro other found hfound
    rw [attributes_apply] at hfound
    rw [hsame]
    split at hfound
    · rename_i heq
      exact heq ▸ hlive
    · exact h.attributes_live other found hfound
  · intro other key number hnumber
    rw [internalNumbers_apply pool (id, write), List.mem_append] at hnumber
    rcases hnumber with hold | hnew
    · obtain ⟨text, htext⟩ := h.numbers_known other key number hold
      exact ⟨text, strings_apply_extends pool id write number text htext⟩
    · cases write with
      | set written value => simp [addedValue] at hnew
      | push written value =>
          simp only [addedValue] at hnew
          split at hnew
          · simp only [Option.map_some, Option.toList_some, List.mem_singleton] at hnew
            exact ⟨value, hnew ▸ h.strings.resolve?_intern value⟩
          · simp at hnew

theorem internalValues_apply (entry : RecordId × Write) (id : RecordId) (key : ListKey) :
    ((pool.apply entry.1 entry.2).internalNumbers id key).filterMap
        (pool.apply entry.1 entry.2).resolve? =
      (pool.internalNumbers id key).filterMap pool.resolve? ++
        (addedValue id key entry).toList := by
  rw [internalNumbers_apply, List.filterMap_append]
  congr 1
  · apply List.filterMap_congr
    intro number hnumber
    obtain ⟨text, htext⟩ := h.numbers_known id key number hnumber
    rw [htext]
    exact strings_apply_extends pool entry.1 entry.2 number text htext
  · obtain ⟨owner, write⟩ := entry
    cases write with
    | set written value => rfl
    | push written value =>
        cases hadded : addedValue id key (owner, .push written value) with
        | none => rfl
        | some added =>
            have hvalue : value = added := by
              simp only [addedValue] at hadded
              split at hadded
              · exact Option.some.inj hadded
              · simp at hadded
            subst hvalue
            have htext : (pool.apply owner (.push written value)).resolve?
                (pool.strings.intern value).1 = some value := h.strings.resolve?_intern value
            simp [htext]

omit h in
theorem applyAll {pool : Pool} (h : pool.WellFormed) {writes : List (RecordId × Write)}
    (hlive : ∀ entry ∈ writes, pool.isLive entry.1 = true) :
    (pool.applyAll writes).WellFormed ∧
      ∀ id key, ((pool.applyAll writes).internalNumbers id key).filterMap
          (pool.applyAll writes).resolve? =
        (pool.internalNumbers id key).filterMap pool.resolve? ++
          writes.filterMap (addedValue id key) := by
  induction writes generalizing pool with
  | nil => exact ⟨h, fun id key => (List.append_nil _).symm⟩
  | cons entry rest ih =>
      have happly := h.apply (hlive entry List.mem_cons_self) entry.2
      have hrest : ∀ other ∈ rest, (pool.apply entry.1 entry.2).isLive other.1 = true := by
        intro other hother
        rw [isLive_congr (by rw [record?, slots_apply, record?] :
          (pool.apply entry.1 entry.2).record? other.1 = pool.record? other.1)]
        exact hlive other (List.mem_cons_of_mem _ hother)
      obtain ⟨hwell, hvalues⟩ := ih happly hrest
      refine ⟨hwell, fun id key => ?_⟩
      change (((pool.apply entry.1 entry.2).applyAll rest).internalNumbers id key).filterMap
        ((pool.apply entry.1 entry.2).applyAll rest).resolve? = _
      rw [hvalues, h.internalValues_apply, List.append_assoc, List.filterMap_cons]
      cases addedValue id key entry <;> rfl

theorem withoutStaged : { pool with staged := #[] }.WellFormed where
  strings := h.strings
  staged_live := by simp
  attributes_live := h.attributes_live
  numbers_known := h.numbers_known

theorem internalize : pool.internalize.WellFormed := by
  rw [internalize_eq_applyAll]
  exact (h.withoutStaged.applyAll h.staged_live).1

/-- Carrying the staged writes out does not change what the look-ups show. -/
theorem lookupList_internalize (id : RecordId) (key : ListKey) :
    pool.internalize.lookupList id key = pool.lookupList id key := by
  rw [lookupList_eq, lookupList_eq, staged_internalize, internalize_eq_applyAll,
    (h.withoutStaged.applyAll h.staged_live).2]
  exact List.append_nil _

theorem lookupList_of_extends (extends_strings : pool.strings.Extends later.strings)
    (staged : later.staged = pool.staged) (attributes : later.attributes = pool.attributes) :
    later.lookupList = pool.lookupList := by
  funext id key
  rw [lookupList_eq, lookupList_eq, staged, internalNumbers, attributes, ← internalNumbers]
  congr 1
  apply List.filterMap_congr
  intro number hnumber
  obtain ⟨text, htext⟩ := h.numbers_known id key number hnumber
  rw [htext]
  exact extends_strings number text htext

theorem lookupText_of_not_isLive {id : RecordId} (hdead : pool.isLive id = false)
    (key : TextKey) : pool.lookupText id key = none := by
  have hstaged : ∀ entry ∈ pool.staged.toList, entry.1 ≠ id := by
    rintro entry hentry rfl
    simp [h.staged_live entry hentry] at hdead
  rw [lookupText_eq, lastWritten_of_ne hstaged, Option.none_or, internalText]
  cases hattributes : pool.attributes[id]? with
  | none => rfl
  | some found => simp [h.attributes_live id found hattributes] at hdead

theorem lookupList_of_not_isLive {id : RecordId} (hdead : pool.isLive id = false)
    (key : ListKey) : pool.lookupList id key = [] := by
  have hstaged : ∀ entry ∈ pool.staged.toList, entry.1 ≠ id := by
    rintro entry hentry rfl
    simp [h.staged_live entry hentry] at hdead
  rw [lookupList_eq, addedValues_of_ne hstaged, List.append_nil, internalNumbers]
  cases hattributes : pool.attributes[id]? with
  | none => rfl
  | some found => simp [h.attributes_live id found hattributes] at hdead

end WellFormed

end Metainfo.Pool
