import Mathlib.Data.List.Basic
import Mathlib.Data.List.Sort

/-!
Sorting by a key. Elements with the same key stay in the order in which they were given, so the
sorted list is told by the elements of each key.
-/

namespace Metainfo.Sorting

variable {α : Type} (key : α → Nat)

/-- The elements by ascending keys, those with the same key in the order given. -/
def sortedBy (elements : List α) : List α :=
  elements.mergeSort fun first second => key first ≤ key second

variable {key}

theorem sortedBy_perm (elements : List α) : (sortedBy key elements).Perm elements :=
  List.mergeSort_perm elements _

theorem keyOrder_trans (first second third : α)
    (hfirst : decide (key first ≤ key second) = true)
    (hsecond : decide (key second ≤ key third) = true) :
    decide (key first ≤ key third) = true :=
  decide_eq_true ((of_decide_eq_true hfirst).trans (of_decide_eq_true hsecond))

theorem keyOrder_total (first second : α) :
    (decide (key first ≤ key second) || decide (key second ≤ key first)) = true := by
  rw [Bool.or_eq_true, decide_eq_true_eq, decide_eq_true_eq]
  exact Nat.le_total (key first) (key second)

theorem sortedBy_pairwise (elements : List α) :
    (sortedBy key elements).Pairwise fun first second => key first ≤ key second :=
  (List.pairwise_mergeSort keyOrder_trans keyOrder_total elements).imp of_decide_eq_true

/-- Sorting leaves the elements of one key in their order. -/
theorem filter_sortedBy (elements : List α) (number : Nat) :
    (sortedBy key elements).filter (key · = number) = elements.filter (key · = number) := by
  have hkey : ∀ element ∈ elements.filter (key · = number), key element = number :=
    fun element helement => of_decide_eq_true (List.mem_filter.mp helement).2
  have hsame : (elements.filter (key · = number)).Pairwise
      fun first second => decide (key first ≤ key second) = true := by
    refine List.pairwise_of_forall_mem_list fun first hfirst second hsecond => ?_
    rw [hkey first hfirst, hkey second hsecond]
    exact decide_eq_true (Nat.le_refl number)
  have hsublist := (List.sublist_mergeSort keyOrder_trans keyOrder_total hsame
    List.filter_sublist).filter (key · = number)
  rw [List.filter_filter] at hsublist
  simp only [Bool.and_self] at hsublist
  exact (hsublist.eq_of_length ((sortedBy_perm elements).filter _).length_eq.symm).symm

/-- Two lists with ascending keys are equal if they have the same elements of each key in the same
order. -/
theorem eq_of_filter_eq {first second : List α}
    (hfirst : first.Pairwise fun one other => key one ≤ key other)
    (hsecond : second.Pairwise fun one other => key one ≤ key other)
    (h : ∀ number, first.filter (key · = number) = second.filter (key · = number)) :
    first = second := by
  have hmem {one other : List α} (hsame : ∀ number, one.filter (key · = number) =
      other.filter (key · = number)) {element : α} (helement : element ∈ one) :
      element ∈ other := by
    have hfound : element ∈ one.filter (key · = key element) :=
      List.mem_filter.mpr ⟨helement, decide_eq_true rfl⟩
    rw [hsame] at hfound
    exact List.mem_of_mem_filter hfound
  induction first generalizing second with
  | nil =>
      cases second with
      | nil => rfl
      | cons head tail => simpa using hmem (fun number => (h number).symm) List.mem_cons_self
  | cons head tail ih =>
      cases second with
      | nil => simpa using hmem h List.mem_cons_self
      | cons other rest =>
          obtain ⟨hhead, htail⟩ := List.pairwise_cons.mp hfirst
          obtain ⟨hother, hrest⟩ := List.pairwise_cons.mp hsecond
          -- Each head is in the other list, so its key is at least the key of the other head.
          have hkey : key other = key head := by
            have hlow : key other ≤ key head := by
              rcases List.mem_cons.mp (hmem h List.mem_cons_self) with rfl | hin
              · exact Nat.le_refl _
              · exact hother head hin
            have hhigh : key head ≤ key other := by
              rcases List.mem_cons.mp
                (hmem (fun number => (h number).symm) List.mem_cons_self) with rfl | hin
              · exact Nat.le_refl _
              · exact hhead other hin
            exact Nat.le_antisymm hlow hhigh
          have hheads : head :: tail.filter (key · = key head) =
              other :: rest.filter (key · = key head) := by
            have hsame := h (key head)
            rwa [List.filter_cons_of_pos (by simp), List.filter_cons_of_pos (by simpa using hkey)]
              at hsame
          obtain rfl := (List.cons.inj hheads).1
          congr 1
          refine ih htail hrest fun number => ?_
          by_cases hnumber : key head = number
          · rw [← hnumber]
            exact (List.cons.inj hheads).2
          · have hsame := h number
            rwa [List.filter_cons_of_neg (by simpa using hnumber),
              List.filter_cons_of_neg (by simpa using hnumber)] at hsame

/-- Of blocks with different numbers, the one with this number. -/
theorem flatMap_filter_filter {numbers : List Nat} (hnumbers : numbers.Nodup) (number : Nat)
    (elements : List α) :
    (numbers.flatMap fun block =>
        (elements.filter (key · = block)).filter (key · = number)) =
      if number ∈ numbers then elements.filter (key · = number) else [] := by
  induction numbers with
  | nil => rfl
  | cons block rest ih =>
      obtain ⟨hblock, hrest⟩ := List.nodup_cons.mp hnumbers
      rw [List.flatMap_cons, ih hrest, List.filter_filter]
      rcases eq_or_ne block number with rfl | hne
      · simp [hblock]
      · have hnone : (elements.filter fun element =>
            decide (key element = number) && decide (key element = block)) = [] := by
          refine List.filter_eq_nil_iff.mpr fun element _ hboth => ?_
          obtain ⟨hnumber, heq⟩ := Bool.and_eq_true_iff.mp hboth
          exact hne ((of_decide_eq_true heq).symm.trans (of_decide_eq_true hnumber))
        rw [hnone, List.nil_append]
        simp [hne.symm]

/-- A sorted list is made of the elements of each key, one key after the other. -/
theorem sortedBy_eq_flatMap {numbers : List Nat} (hnumbers : numbers.Pairwise (· < ·))
    {elements : List α} (h : ∀ element ∈ elements, key element ∈ numbers) :
    sortedBy key elements =
      numbers.flatMap fun number => elements.filter (key · = number) := by
  have hkey {number : Nat} {element : α}
      (helement : element ∈ elements.filter (key · = number)) : key element = number :=
    of_decide_eq_true (List.mem_filter.mp helement).2
  refine eq_of_filter_eq (sortedBy_pairwise elements) ?_ fun number => ?_
  · refine List.pairwise_flatMap.mpr ⟨fun number _ => ?_, hnumbers.imp ?_⟩
    · refine List.pairwise_of_forall_mem_list fun first hfirst second hsecond => ?_
      rw [hkey hfirst, hkey hsecond]
    · intro low high hlt first hfirst second hsecond
      rw [hkey hfirst, hkey hsecond]
      exact Nat.le_of_lt hlt
  · rw [filter_sortedBy, List.filter_flatMap,
      flatMap_filter_filter (hnumbers.imp fun hlt => Nat.ne_of_lt hlt)]
    split
    · rfl
    · rename_i hout
      refine List.filter_eq_nil_iff.mpr fun element helement hnumber => ?_
      exact hout (of_decide_eq_true hnumber ▸ h element helement)

end Metainfo.Sorting
