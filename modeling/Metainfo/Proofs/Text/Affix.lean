import Mathlib.Data.List.TakeDrop
import Mathlib.Data.List.TakeWhile
import Metainfo.Text.Affix

/-!
Taking a text apart: what was taken off and what is left make the text again.
-/

namespace Metainfo.Affix

variable {α : Type} [DecidableEq α] {separator : α} {text before after : List α}

theorem dropWhile_of_notMem (h : separator ∉ text) : text.dropWhile (· ≠ separator) = [] :=
  List.dropWhile_eq_nil_iff.mpr fun _ helement => decide_eq_true fun heq => h (heq ▸ helement)

theorem dropWhile_of_mem (h : separator ∈ text) :
    ∃ after, text.dropWhile (· ≠ separator) = separator :: after := by
  cases hdrop : text.dropWhile (· ≠ separator) with
  | nil => simpa using List.dropWhile_eq_nil_iff.mp hdrop separator h
  | cons first after =>
      have hfirst := List.head?_dropWhile_not (· ≠ separator) text
      rw [hdrop] at hfirst
      exact ⟨after, by rw [of_not_not (of_decide_eq_false hfirst)]⟩

/-- The text is cut where the separator is first met. -/
theorem cutFirst?_eq (separator : α) (text : List α) :
    cutFirst? separator text =
      if separator ∈ text then
        some (text.takeWhile (· ≠ separator), (text.dropWhile (· ≠ separator)).drop 1)
      else none := by
  have hne (element : α) : (element != separator) = decide (element ≠ separator) := by
    by_cases heq : element = separator <;> simp [heq]
  simp only [cutFirst?, List.span_eq_takeWhile_dropWhile, hne]
  by_cases hmem : separator ∈ text
  · obtain ⟨after, hdrop⟩ := dropWhile_of_mem hmem
    rw [if_pos hmem, hdrop]
    rfl
  · rw [if_neg hmem, dropWhile_of_notMem hmem]

theorem cutFirst?_eq_some_iff :
    cutFirst? separator text = some (before, after) ↔
      text = before ++ separator :: after ∧ separator ∉ before := by
  rw [cutFirst?_eq]
  constructor
  · intro h
    split at h
    · rename_i hmem
      obtain ⟨rfl, rfl⟩ := Prod.mk.inj (Option.some.inj h)
      obtain ⟨after, hdrop⟩ := dropWhile_of_mem hmem
      have hparts : text.takeWhile (· ≠ separator) ++ text.dropWhile (· ≠ separator) = text :=
        List.takeWhile_append_dropWhile
      refine ⟨?_, fun hbefore => ?_⟩
      · rw [hdrop] at hparts ⊢
        exact hparts.symm
      · simpa using List.mem_takeWhile_imp hbefore
    · contradiction
  · rintro ⟨rfl, hnot⟩
    have hkeep : ∀ element ∈ before, decide (element ≠ separator) = true :=
      fun element helement => decide_eq_true fun heq => hnot (heq ▸ helement)
    rw [if_pos (List.mem_append_right before List.mem_cons_self),
      List.takeWhile_append_of_pos hkeep, List.dropWhile_append_of_pos hkeep]
    simp

theorem cutLast?_eq_some_iff :
    cutLast? separator text = some (before, after) ↔
      text = before ++ separator :: after ∧ separator ∉ after := by
  rw [cutLast?, Option.map_eq_some_iff]
  constructor
  · rintro ⟨⟨behind, ahead⟩, hcut, hparts⟩
    obtain ⟨rfl, rfl⟩ := Prod.mk.inj hparts
    obtain ⟨htext, hnot⟩ := cutFirst?_eq_some_iff.mp hcut
    refine ⟨?_, by simpa using hnot⟩
    have hreverse := congrArg List.reverse htext
    simpa using hreverse
  · rintro ⟨rfl, hnot⟩
    refine ⟨(after.reverse, before.reverse), cutFirst?_eq_some_iff.mpr ⟨by simp, ?_⟩, by simp⟩
    simpa using hnot

theorem withoutEnding?_eq_some_iff {ending : List α} :
    withoutEnding? text ending = some before ↔ text = before ++ ending := by
  rw [withoutEnding?]
  constructor
  · intro h
    split at h
    · rename_i hsuffix
      obtain ⟨front, rfl⟩ := List.isSuffixOf_iff_suffix.mp hsuffix
      have hbefore : before = front := by simpa using h.symm
      rw [hbefore]
    · contradiction
  · rintro rfl
    rw [if_pos (List.isSuffixOf_iff_suffix.mpr (List.suffix_append before ending))]
    simp

end Metainfo.Affix
