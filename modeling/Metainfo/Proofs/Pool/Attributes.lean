import Metainfo.Proofs.Pool.Basic

/-!
Attributes of records as the look-ups show them: the writes carried out, then the staged ones.
Carrying the staged writes out moves them from one part to the other, which no look-up sees.
-/

namespace Metainfo

namespace RecordAttributes

theorem text?_empty (key : TextKey) : empty.text? key = none := by
  cases key <;> rfl

theorem list_empty (key : ListKey) : empty.list key = [] := by
  cases key <;> rfl

theorem text?_setText (attributes : RecordAttributes) (key other : TextKey) (value : String) :
    (attributes.setText key value).text? other =
      if key = other then some value else attributes.text? other := by
  cases key <;> cases other <;> rfl

theorem list_setText (attributes : RecordAttributes) (key : TextKey) (other : ListKey)
    (value : String) : (attributes.setText key value).list other = attributes.list other := by
  cases key <;> cases other <;> rfl

theorem text?_addToList (attributes : RecordAttributes) (key : ListKey) (other : TextKey)
    (value : StringId) : (attributes.addToList key value).text? other = attributes.text? other := by
  cases key <;> cases other <;> rfl

theorem list_addToList (attributes : RecordAttributes) (key other : ListKey)
    (value : StringId) :
    (attributes.addToList key value).list other =
      if key = other then attributes.list other ++ [value] else attributes.list other := by
  cases key <;> cases other <;> rfl

end RecordAttributes

namespace Pool

/-- The value that a write gives an attribute. -/
def writtenText (id : RecordId) (key : TextKey) : RecordId × Write → Option String
  | (owner, .set written value) => if owner = id && written = key then some value else none
  | (_, .push _ _) => none

/-- The value that a write adds to an attribute. -/
def addedValue (id : RecordId) (key : ListKey) : RecordId × Write → Option String
  | (owner, .push written value) => if owner = id && written = key then some value else none
  | (_, .set _ _) => none

/-- The value that the last of the writes gives an attribute. -/
def lastWritten (writes : List (RecordId × Write)) (id : RecordId) (key : TextKey) :
    Option String :=
  writes.reverse.findSome? (writtenText id key)

/-- The value of an attribute among the writes carried out. -/
def internalText (pool : Pool) (id : RecordId) (key : TextKey) : Option String :=
  pool.attributes[id]?.bind (·.text? key)

/-- The numbers of an attribute's values among the writes carried out. -/
def internalNumbers (pool : Pool) (id : RecordId) (key : ListKey) : List StringId :=
  pool.attributes[id]?.elim [] (·.list key)

theorem lookupText_eq (pool : Pool) (id : RecordId) (key : TextKey) :
    pool.lookupText id key =
      (lastWritten pool.staged.toList id key).or (pool.internalText id key) := by
  rw [lookupText, lastWritten, internalText]
  congr 2
  funext ⟨owner, write⟩
  cases write <;> rfl

theorem lookupList_eq (pool : Pool) (id : RecordId) (key : ListKey) :
    pool.lookupList id key = (pool.internalNumbers id key).filterMap pool.resolve? ++
      pool.staged.toList.filterMap (addedValue id key) := by
  rw [lookupList, internalNumbers]
  congr 2
  funext ⟨owner, write⟩
  cases write <;> rfl

theorem lastWritten_append (first second : List (RecordId × Write)) (id : RecordId)
    (key : TextKey) :
    lastWritten (first ++ second) id key =
      (lastWritten second id key).or (lastWritten first id key) := by
  rw [lastWritten, List.reverse_append, List.findSome?_append]
  rfl

theorem lastWritten_singleton (entry : RecordId × Write) (id : RecordId) (key : TextKey) :
    lastWritten [entry] id key = writtenText id key entry := by
  cases hwritten : writtenText id key entry <;> simp [lastWritten, hwritten]

/-- Writes to other records do not show. -/
theorem writtenText_of_ne {id : RecordId} {entry : RecordId × Write} (h : entry.1 ≠ id)
    (key : TextKey) : writtenText id key entry = none := by
  obtain ⟨owner, write⟩ := entry
  cases write with
  | set written value => simp only [writtenText, decide_eq_false h, Bool.false_and]; rfl
  | push written value => rfl

theorem addedValue_of_ne {id : RecordId} {entry : RecordId × Write} (h : entry.1 ≠ id)
    (key : ListKey) : addedValue id key entry = none := by
  obtain ⟨owner, write⟩ := entry
  cases write with
  | set written value => rfl
  | push written value => simp only [addedValue, decide_eq_false h, Bool.false_and]; rfl

theorem lastWritten_of_ne {writes : List (RecordId × Write)} {id : RecordId}
    (h : ∀ entry ∈ writes, entry.1 ≠ id) (key : TextKey) : lastWritten writes id key = none := by
  rw [lastWritten, List.findSome?_eq_none_iff]
  intro entry hentry
  exact writtenText_of_ne (h entry (List.mem_reverse.mp hentry)) key

theorem addedValues_of_ne {writes : List (RecordId × Write)} {id : RecordId}
    (h : ∀ entry ∈ writes, entry.1 ≠ id) (key : ListKey) :
    writes.filterMap (addedValue id key) = [] := by
  rw [List.filterMap_eq_nil_iff]
  exact fun entry hentry => addedValue_of_ne (h entry hentry) key

/-! Look-ups in a pool that has changed elsewhere. -/

theorem lookupText_of_same {pool later : Pool} (staged : later.staged = pool.staged)
    (attributes : later.attributes = pool.attributes) : later.lookupText = pool.lookupText := by
  funext id key
  rw [lookupText_eq, lookupText_eq, staged, internalText, attributes, internalText]

theorem lookupText_stage {pool : Pool} {id : RecordId} (h : pool.isLive id = true)
    (write : Write) (other : RecordId) (key : TextKey) :
    (pool.stage id write).lookupText other key =
      (writtenText other key (id, write)).or (pool.lookupText other key) := by
  rw [lookupText_eq, lookupText_eq, staged_stage, if_pos h, lastWritten_append,
    lastWritten_singleton, Option.or_assoc, internalText, attributes_stage, internalText]

theorem lookupList_stage {pool : Pool} {id : RecordId} (h : pool.isLive id = true)
    (write : Write) (other : RecordId) (key : ListKey) :
    (pool.stage id write).lookupList other key =
      pool.lookupList other key ++ (addedValue other key (id, write)).toList := by
  have hresolve : (pool.stage id write).resolve? = pool.resolve? := by
    funext number
    rw [resolve?, strings_stage, resolve?]
  rw [lookupList_eq, lookupList_eq, staged_stage, if_pos h, List.filterMap_append, hresolve,
    internalNumbers, attributes_stage, internalNumbers, List.append_assoc]
  congr 2

theorem lastWritten_filter_ne {id other : RecordId} (h : other ≠ id)
    (writes : List (RecordId × Write)) (key : TextKey) :
    lastWritten (writes.filter fun entry => entry.1 != id) other key =
      lastWritten writes other key := by
  induction writes with
  | nil => rfl
  | cons entry rest ih =>
      rw [List.filter_cons, ← List.singleton_append (l := rest), lastWritten_append, ← ih]
      split
      · rw [← List.singleton_append, lastWritten_append]
      · rename_i hentry
        have hne : entry.1 ≠ other := by
          rintro rfl
          simp [h] at hentry
        rw [lastWritten_singleton, writtenText_of_ne hne, Option.or_none]

theorem addedValues_filter_ne {id other : RecordId} (h : other ≠ id)
    (writes : List (RecordId × Write)) (key : ListKey) :
    (writes.filter fun entry => entry.1 != id).filterMap (addedValue other key) =
      writes.filterMap (addedValue other key) := by
  induction writes with
  | nil => rfl
  | cons entry rest ih =>
      rw [List.filter_cons]
      split
      · rw [List.filterMap_cons, List.filterMap_cons, ih]
      · rename_i hentry
        have hne : entry.1 ≠ other := by
          rintro rfl
          simp [h] at hentry
        rw [List.filterMap_cons, addedValue_of_ne hne, ih]

theorem lookupText_discard_of_ne {pool : Pool} {id other : RecordId} (h : other ≠ id) :
    (pool.discard id).lookupText other = pool.lookupText other := by
  funext key
  cases hlive : pool.isLive id with
  | false => rw [discard_of_not_isLive hlive]
  | true =>
      rw [lookupText_eq, lookupText_eq, staged_discard hlive, lastWritten_filter_ne h,
        internalText, attributes_discard hlive, Std.HashMap.getElem?_erase,
        if_neg (by simpa using Ne.symm h), internalText]

theorem lookupList_discard_of_ne {pool : Pool} {id other : RecordId} (h : other ≠ id) :
    (pool.discard id).lookupList other = pool.lookupList other := by
  funext key
  have hresolve : (pool.discard id).resolve? = pool.resolve? := by
    funext number
    rw [resolve?, strings_discard, resolve?]
  cases hlive : pool.isLive id with
  | false => rw [discard_of_not_isLive hlive]
  | true =>
      rw [lookupList_eq, lookupList_eq, staged_discard hlive, addedValues_filter_ne h, hresolve,
        internalNumbers, attributes_discard hlive, Std.HashMap.getElem?_erase,
        if_neg (by simpa using Ne.symm h), internalNumbers]

/-! One write carried out. -/

theorem attributes_apply (pool : Pool) (id other : RecordId) (write : Write) :
    (pool.apply id write).attributes[other]? =
      if id = other then (pool.apply id write).attributes[id]? else pool.attributes[other]? := by
  cases write <;>
    simp only [apply, Std.HashMap.getElem?_insert, beq_iff_eq] <;>
    split <;> simp_all

theorem strings_apply_extends (pool : Pool) (id : RecordId) (write : Write) :
    pool.strings.Extends (pool.apply id write).strings := by
  cases write with
  | set key value => exact Interner.Extends.refl _
  | push key value => exact Interner.extends_intern _ _

theorem strings_apply_valid {pool : Pool} (h : pool.strings.Valid) (id : RecordId)
    (write : Write) : (pool.apply id write).strings.Valid := by
  cases write with
  | set key value => exact h
  | push key value => exact h.intern value

theorem internalText_apply (pool : Pool) (entry : RecordId × Write) (id : RecordId)
    (key : TextKey) :
    (pool.apply entry.1 entry.2).internalText id key =
      (writtenText id key entry).or (pool.internalText id key) := by
  obtain ⟨owner, write⟩ := entry
  by_cases howner : owner = id
  · subst howner
    cases write with
    | set written value =>
        simp only [internalText, apply, Std.HashMap.getElem?_insert_self, Option.bind_some,
          RecordAttributes.text?_setText, writtenText, decide_true, Bool.true_and]
        cases hattributes : pool.attributes[owner]? <;>
          by_cases hkey : written = key <;>
          simp [hkey, hattributes, Std.HashMap.getD_eq_getD_getElem?, RecordAttributes.text?_empty]
    | push written value =>
        simp only [internalText, apply, Std.HashMap.getElem?_insert_self, Option.bind_some,
          RecordAttributes.text?_addToList, writtenText, Option.none_or]
        cases hattributes : pool.attributes[owner]? <;>
          simp [hattributes, Std.HashMap.getD_eq_getD_getElem?, RecordAttributes.text?_empty]
  · rw [writtenText_of_ne howner, Option.none_or, internalText, attributes_apply, if_neg howner]
    rfl

theorem internalNumbers_apply (pool : Pool) (entry : RecordId × Write) (id : RecordId)
    (key : ListKey) :
    (pool.apply entry.1 entry.2).internalNumbers id key =
      pool.internalNumbers id key ++
        ((addedValue id key entry).map fun value => (pool.strings.intern value).1).toList := by
  obtain ⟨owner, write⟩ := entry
  by_cases howner : owner = id
  · subst howner
    cases write with
    | set written value =>
        simp only [internalNumbers, apply, Std.HashMap.getElem?_insert_self, Option.elim_some,
          RecordAttributes.list_setText, addedValue, Option.map_none, Option.toList_none,
          List.append_nil]
        cases hattributes : pool.attributes[owner]? <;>
          simp [hattributes, Std.HashMap.getD_eq_getD_getElem?, RecordAttributes.list_empty]
    | push written value =>
        simp only [internalNumbers, apply, Std.HashMap.getElem?_insert_self, Option.elim_some,
          RecordAttributes.list_addToList, addedValue, decide_true, Bool.true_and]
        cases hattributes : pool.attributes[owner]? <;>
          by_cases hkey : written = key <;>
          simp [hkey, hattributes, Std.HashMap.getD_eq_getD_getElem?, RecordAttributes.list_empty]
  · rw [addedValue_of_ne howner, internalNumbers, attributes_apply, if_neg howner]
    simp [internalNumbers]

/-! All staged writes carried out. -/

theorem internalText_applyAll (pool : Pool) (writes : List (RecordId × Write)) (id : RecordId)
    (key : TextKey) :
    (pool.applyAll writes).internalText id key =
      (lastWritten writes id key).or (pool.internalText id key) := by
  induction writes generalizing pool with
  | nil => simp [applyAll, lastWritten]
  | cons entry rest ih =>
      change ((pool.apply entry.1 entry.2).applyAll rest).internalText id key = _
      rw [ih, internalText_apply, ← List.singleton_append, lastWritten_append,
        lastWritten_singleton, Option.or_assoc]

theorem lookupText_internalize (pool : Pool) (id : RecordId) (key : TextKey) :
    pool.internalize.lookupText id key = pool.lookupText id key := by
  rw [lookupText_eq, lookupText_eq, staged_internalize, internalize_eq_applyAll,
    internalText_applyAll]
  rfl

end Pool

end Metainfo
