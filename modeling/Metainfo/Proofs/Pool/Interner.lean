import Metainfo.Pool.Interner

/-!
Interning keeps the texts and their numbers inverse to each other, and a number once given out
stands for the same text ever after.
-/

namespace Metainfo.Interner

/-- Texts and numbers are inverse to each other. -/
def Inverse (interner : Interner) : Prop :=
  ∀ text id, interner.find? text = some id ↔ interner.resolve? id = some text

/-- Texts and numbers are inverse to each other, and the predefined texts come first. -/
structure Valid (interner : Interner) : Prop where
  inverse : interner.Inverse
  predefined : predefined <+: interner.strings.toList

/-- Every text that an interner knows has the same number in a later one. -/
def Extends (earlier later : Interner) : Prop :=
  ∀ id text, earlier.resolve? id = some text → later.resolve? id = some text

theorem Extends.refl (interner : Interner) : interner.Extends interner :=
  fun _ _ h => h

theorem Extends.trans {first second third : Interner} (h : first.Extends second)
    (h' : second.Extends third) : first.Extends third :=
  fun id text hid => h' id text (h id text hid)

theorem intern_of_find? {interner : Interner} {text : String} {id : StringId}
    (h : interner.find? text = some id) : interner.intern text = (id, interner) := by
  simp [intern, h]

theorem intern_of_find?_none {interner : Interner} {text : String}
    (h : interner.find? text = none) :
    interner.intern text = (⟨interner.size⟩,
      ⟨interner.strings.push text, interner.numbers.insert text ⟨interner.size⟩⟩) := by
  simp [intern, h]

theorem extends_intern (interner : Interner) (text : String) :
    interner.Extends (interner.intern text).2 := by
  intro id known hid
  cases hfind : interner.find? text with
  | some number =>
      rw [intern_of_find? hfind]
      exact hid
  | none =>
      rw [intern_of_find?_none hfind]
      have hlt : id.index < interner.strings.size := (Array.getElem?_eq_some_iff.mp hid).1
      simpa [resolve?, Array.getElem?_push, Nat.ne_of_lt hlt] using hid

theorem Inverse.intern {interner : Interner} (h : interner.Inverse) (text : String) :
    (interner.intern text).2.Inverse := by
  cases hfind : interner.find? text with
  | some number =>
      rw [intern_of_find? hfind]
      exact h
  | none =>
      rw [intern_of_find?_none hfind]
      rintro other ⟨index⟩
      have hother := h other ⟨index⟩
      simp only [find?, resolve?, size, Std.HashMap.getElem?_insert, Array.getElem?_push]
        at hother hfind ⊢
      by_cases htext : text = other
      · subst htext
        have hnew : interner.strings[index]? ≠ some text := by
          intro hknown
          simp [hfind] at hother
          exact hother hknown
        by_cases hid : index = interner.strings.size
        · simp [hid]
        · simp [hid, hnew, Ne.symm hid]
      · by_cases hid : index = interner.strings.size
        · subst hid
          simp [htext, hother]
        · simp [htext, hid, hother]

theorem strings_intern_prefix (interner : Interner) (text : String) :
    interner.strings.toList <+: (interner.intern text).2.strings.toList := by
  cases hfind : interner.find? text with
  | some number => simp [intern_of_find? hfind]
  | none => simp [intern_of_find?_none hfind]

theorem Valid.intern {interner : Interner} (h : interner.Valid) (text : String) :
    (interner.intern text).2.Valid where
  inverse := h.inverse.intern text
  predefined := h.predefined.trans (interner.strings_intern_prefix text)

theorem valid_initial : initial.Valid where
  inverse := by
    have hempty : Inverse ⟨#[], {}⟩ := by
      intro text id
      simp [find?, resolve?]
    exact (((hempty.intern _).intern _).intern _).intern _
  predefined := by
    simp [initial, internAll, Interner.predefined, Interner.intern, find?, size]

namespace Valid

variable {interner : Interner} (h : interner.Valid)

include h

theorem resolve?_injective {first second : StringId} {text : String}
    (hfirst : interner.resolve? first = some text)
    (hsecond : interner.resolve? second = some text) : first = second := by
  have hfind := (h.inverse text first).mpr hfirst
  rw [(h.inverse text second).mpr hsecond] at hfind
  exact (Option.some.inj hfind).symm

theorem resolve?_intern (text : String) :
    (interner.intern text).2.resolve? (interner.intern text).1 = some text := by
  cases hfind : interner.find? text with
  | some number =>
      rw [intern_of_find? hfind]
      exact (h.inverse text number).mp hfind
  | none =>
      rw [intern_of_find?_none hfind]
      simp [resolve?, size]

theorem resolve?_of_predefined {index : Nat} {text : String}
    (htext : Interner.predefined[index]? = some text) :
    interner.resolve? ⟨index⟩ = some text := by
  obtain ⟨rest, hrest⟩ := h.predefined
  have hlt : index < Interner.predefined.length := (List.getElem?_eq_some_iff.mp htext).1
  change interner.strings[index]? = some text
  rw [← Array.getElem?_toList, ← hrest, List.getElem?_append_left hlt]
  exact htext

theorem resolve?_empty : interner.resolve? .empty = some "" :=
  h.resolve?_of_predefined rfl

end Valid

end Metainfo.Interner
