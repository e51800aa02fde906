import Metainfo.Proofs.Pool.Interner
import Metainfo.Proofs.Pool.Observation
import Metainfo.Proofs.Pool.Spelling

/-!
What is known after a series of texts has been interned: the predefined texts and, behind them, the
others in the order in which they first came. The number of a text is its place among them.
-/

namespace Metainfo.Interner

/-- The texts of an interner that has been given these, in the order of their numbers. -/
def known (texts : List String) : List String :=
  predefined ++ (texts.filter fun text => !predefined.contains text).eraseDups

theorem known_eq_eraseDups (texts : List String) :
    known texts = (predefined ++ texts).eraseDups := by
  rw [List.eraseDups_append]
  rfl

theorem mem_known {texts : List String} {text : String} :
    text ∈ known texts ↔ text ∈ predefined ∨ text ∈ texts := by
  rw [known, List.mem_append, List.mem_eraseDups, List.mem_filter]
  by_cases hpredefined : text ∈ predefined <;> simp [hpredefined]

section

variable {interner : Interner} (h : interner.Inverse)

include h

theorem Inverse.mem_toList_iff {text : String} :
    text ∈ interner.strings.toList ↔ (interner.find? text).isSome := by
  rw [List.mem_iff_getElem?, Option.isSome_iff_exists]
  constructor
  · rintro ⟨index, hindex⟩
    rw [Array.getElem?_toList] at hindex
    exact ⟨⟨index⟩, (h text ⟨index⟩).mpr hindex⟩
  · rintro ⟨id, hid⟩
    refine ⟨id.index, ?_⟩
    rw [Array.getElem?_toList]
    exact (h text id).mp hid

/-- A text is added at the end unless it is known. -/
theorem Inverse.toList_intern (text : String) :
    (interner.intern text).2.strings.toList = addNew interner.strings.toList text := by
  rw [addNew]
  cases hfind : interner.find? text with
  | some id =>
      have hmem : text ∈ interner.strings.toList := h.mem_toList_iff.mpr (by rw [hfind]; rfl)
      rw [intern_of_find? hfind, if_pos (List.contains_iff_mem.mpr hmem)]
  | none =>
      have hnew : text ∉ interner.strings.toList := fun hmem => by
        simpa [hfind] using h.mem_toList_iff.mp hmem
      rw [intern_of_find?_none hfind, if_neg (mt List.contains_iff_mem.mp hnew),
        Array.toList_push]

theorem Inverse.toList_internAll (texts : List String) :
    (interner.internAll texts).strings.toList = texts.foldl addNew interner.strings.toList := by
  induction texts generalizing interner with
  | nil => rfl
  | cons text texts ih =>
      rw [List.foldl_cons, ← h.toList_intern]
      exact ih (h.intern text)

end

theorem Valid.internAll {interner : Interner} (h : interner.Valid) (texts : List String) :
    (interner.internAll texts).Valid := by
  induction texts generalizing interner with
  | nil => exact h
  | cons text texts ih => exact ih (h.intern text)

theorem extends_internAll (interner : Interner) (texts : List String) :
    interner.Extends (interner.internAll texts) := by
  induction texts generalizing interner with
  | nil => exact .refl interner
  | cons text texts ih => exact (interner.extends_intern text).trans (ih (interner.intern text).2)

theorem toList_initial : initial.strings.toList = predefined := by
  simp [initial, internAll, predefined, intern, find?, size]

theorem toList_internAll_initial (texts : List String) :
    (initial.internAll texts).strings.toList = known texts := by
  have hstart : predefined = predefined.foldl addNew [] := by decide
  rw [valid_initial.inverse.toList_internAll, toList_initial, hstart, ← List.foldl_append,
    foldl_addNew, known_eq_eraseDups]

theorem resolve?_internAll_initial (texts : List String) (id : StringId) :
    (initial.internAll texts).resolve? id = (known texts)[id.index]? := by
  rw [← toList_internAll_initial, Array.getElem?_toList]
  rfl

theorem find?_internAll_initial {texts : List String} {text : String} (h : text ∈ known texts) :
    (initial.internAll texts).find? text = some ⟨(known texts).idxOf text⟩ := by
  rw [(valid_initial.internAll texts).inverse, resolve?_internAll_initial]
  exact List.getElem?_idxOf h

/-- Each text of a series is given the place that it has among all texts of the series. -/
theorem intern_internAll_initial (before after : List String) (text : String) :
    ((initial.internAll before).intern text).1 =
      ⟨(known (before ++ text :: after)).idxOf text⟩ := by
  let once := ((initial.internAll before).intern text).2
  have hlater : once.Extends (initial.internAll (before ++ text :: after)) := by
    have hrest : initial.internAll (before ++ text :: after) = once.internAll after := by
      simp [once, internAll]
    rw [hrest]
    exact extends_internAll once after
  have hresolved := hlater _ text ((valid_initial.internAll before).resolve?_intern text)
  have hfound := ((valid_initial.internAll _).inverse _ _).mpr hresolved
  rw [find?_internAll_initial (mem_known.mpr (by simp))] at hfound
  exact (Option.some.inj hfound).symm

/-- Of all texts that have come, and of no others, each has one number, which is its place in the
order of first coming behind the predefined ones; the numbers are those below the size. A text that
is known already gets the number it has and changes nothing, and whatever comes later, a number goes
on standing for its text. -/
theorem internAll_bijective (texts : List String) :
    let interner := initial.internAll texts
    interner.size = (known texts).length ∧
    (∀ id, interner.resolve? id = (known texts)[id.index]?) ∧
    (∀ id, (interner.resolve? id).isSome ↔ id.index < interner.size) ∧
    (∀ text, (interner.find? text).isSome ↔ text ∈ predefined ∨ text ∈ texts) ∧
    (∀ text id, interner.find? text = some id ↔ interner.resolve? id = some text) ∧
    predefined.map interner.find? = [some .empty, some .noarch, some .src, some .nosrc] ∧
    (∀ before text after, texts = before ++ text :: after →
      ((initial.internAll before).intern text).1 = ⟨(known texts).idxOf text⟩) ∧
    (∀ text, (interner.find? text).isSome →
      interner.intern text = (⟨(known texts).idxOf text⟩, interner)) ∧
    ∀ later, interner.Extends (interner.internAll later) := by
  intro interner
  have hvalid : interner.Valid := valid_initial.internAll texts
  have htexts : interner.strings.toList = known texts := toList_internAll_initial texts
  have hfound (text : String) : (interner.find? text).isSome ↔ text ∈ known texts := by
    rw [← hvalid.inverse.mem_toList_iff, htexts]
  refine ⟨?_, resolve?_internAll_initial texts, ?_, ?_, hvalid.inverse, ?_, ?_, ?_,
    extends_internAll interner⟩
  · rw [← htexts, Array.length_toList]
    rfl
  · intro id
    simp [resolve?, size]
  · intro text
    rw [hfound, mem_known]
  · have hnumber (index : Nat) (text : String) (h : predefined[index]? = some text) :
        interner.find? text = some ⟨index⟩ :=
      (hvalid.inverse text ⟨index⟩).mpr (hvalid.resolve?_of_predefined h)
    rw [predefined, List.map_cons, List.map_cons, List.map_cons, List.map_cons, List.map_nil,
      hnumber 0 _ rfl, hnumber 1 _ rfl, hnumber 2 _ rfl, hnumber 3 _ rfl]
    rfl
  · rintro before text after rfl
    exact intern_internAll_initial before after text
  · intro text hknown
    exact intern_of_find? (find?_internAll_initial ((hfound text).mp hknown))

end Metainfo.Interner
