import Metainfo.Element.Table
import Mathlib.Data.List.Basic

/-!
What the look-ups of a table find in the list that it was made of.
-/

namespace Metainfo

theorem Element.index_injective {first second : Element} (h : first.index = second.index) :
    first = second := by
  have hfirst := first.all_getElem?_index
  rw [h, second.all_getElem?_index] at hfirst
  exact (Option.some.inj hfirst).symm

theorem Element.index_lt (element : Element) : element.index < Element.all.length :=
  (List.getElem?_eq_some_iff.mp element.all_getElem?_index).1

namespace TransitionTable

/-- A table with a place for every element. -/
def Covers (table : TransitionTable) : Prop :=
  table.first.size = Element.all.length ∧ table.parents.size = Element.all.length

theorem Covers.note {table : TransitionTable} (h : table.Covers) (position : Nat)
    (transition : Transition) : (table.note position transition).Covers := by
  constructor
  · rw [TransitionTable.note]
    split <;> simp [h.1]
  · simp [TransitionTable.note, h.2]

theorem first_note {table : TransitionTable} (h : table.Covers) (position : Nat)
    (transition : Transition) (element : Element) :
    (table.note position transition).first.getD element.index none =
      (table.first.getD element.index none).or
        (if transition.source = element then some position else none) := by
  have hindex := element.index_lt
  rw [← h.1] at hindex
  rw [note]
  cases hfound : table.first.getD transition.source.index none with
  | some start =>
      simp only [Option.isSome_some, if_true]
      by_cases hsource : transition.source = element
      · rw [← hsource, hfound, Option.some_or]
      · simp [hsource]
  | none =>
      simp only [Option.isSome_none, Bool.false_eq_true, if_false]
      by_cases hsource : transition.source = element
      · subst hsource
        rw [hfound]
        simp [Array.getD_eq_getD_getElem?, hindex]
      · have hne : transition.source.index ≠ element.index :=
          fun heq => hsource (Element.index_injective heq)
        simp [Array.getD_eq_getD_getElem?, hne, hsource]

theorem parent_note {table : TransitionTable} (h : table.Covers) (position : Nat)
    (transition : Transition) (element : Element) :
    (table.note position transition).parent element =
      if transition.target = element then transition.source else table.parent element := by
  have hindex := element.index_lt
  rw [← h.2] at hindex
  by_cases htarget : transition.target = element
  · subst htarget
    simp [parent, note, Array.getD_eq_getD_getElem?, hindex]
  · have hne : transition.target.index ≠ element.index :=
      fun heq => htarget (Element.index_injective heq)
    simp [parent, note, Array.getD_eq_getD_getElem?, hne, htarget]

theorem transitions_noteFrom (table : TransitionTable) (position : Nat)
    (transitions : List Transition) :
    (table.noteFrom position transitions).transitions = table.transitions := by
  induction transitions generalizing table position with
  | nil => rfl
  | cons transition rest ih => exact ih _ _

theorem first_noteFrom {table : TransitionTable} (h : table.Covers) (position : Nat)
    (transitions : List Transition) (element : Element) :
    (table.noteFrom position transitions).first.getD element.index none =
      (table.first.getD element.index none).or
        ((transitions.findIdx? (·.source = element)).map (position + ·)) := by
  induction transitions generalizing table position with
  | nil => simp [noteFrom]
  | cons transition rest ih =>
      rw [noteFrom, ih (h.note position transition), first_note h, Option.or_assoc,
        List.findIdx?_cons]
      congr 1
      by_cases hsource : transition.source = element
      · simp [hsource]
      · simp [hsource, Function.comp_def, Nat.add_comm, Nat.add_left_comm]

theorem parent_noteFrom {table : TransitionTable} (h : table.Covers) (position : Nat)
    (transitions : List Transition) (element : Element) :
    (table.noteFrom position transitions).parent element =
      ((transitions.filter (·.target = element)).getLast?.map Transition.source).getD
        (table.parent element) := by
  induction transitions generalizing table position with
  | nil => rfl
  | cons transition rest ih =>
      rw [noteFrom, ih (h.note position transition), parent_note h, List.filter_cons]
      by_cases htarget : transition.target = element
      · simp only [htarget, if_true, decide_true, List.getLast?_cons]
        cases (rest.filter (·.target = element)).getLast? <;> rfl
      · simp [htarget]

/-- The transitions of one source stand together. -/
theorem grouped_eq (transitions : List Transition) (element : Element) :
    ∃ before after,
      grouped transitions = before ++ transitions.filter (·.source = element) ++ after ∧
        (∀ transition ∈ before, transition.source ≠ element) ∧
        ∀ transition ∈ after, transition.source ≠ element := by
  have hmem : element ∈ Element.all := List.mem_of_getElem? element.all_getElem?_index
  obtain ⟨lower, upper, hall⟩ := List.append_of_mem hmem
  have hnodup : Element.all.Nodup := by decide
  rw [hall] at hnodup
  have hlower : element ∉ lower := fun h =>
    (List.nodup_append.mp hnodup).2.2 element h element List.mem_cons_self rfl
  have hupper : element ∉ upper := (List.nodup_cons.mp (List.nodup_append.mp hnodup).2.1).1
  have hother (elements : List Element) (hout : element ∉ elements) (transition : Transition)
      (h : transition ∈ elements.flatMap fun source =>
        transitions.filter (·.source = source)) : transition.source ≠ element := by
    obtain ⟨source, hsource, htransition⟩ := List.mem_flatMap.mp h
    have := of_decide_eq_true (List.mem_filter.mp htransition).2
    rintro rfl
    exact hout (this ▸ hsource)
  refine ⟨_, _, ?_, hother lower hlower, hother upper hupper⟩
  rw [grouped, hall, List.flatMap_append, List.flatMap_cons, List.append_assoc]

theorem covers_empty (transitions : List Transition) :
    Covers ⟨transitions, Array.replicate Element.all.length none,
      Array.replicate Element.all.length .start⟩ :=
  ⟨Array.size_replicate, Array.size_replicate⟩

theorem lookup_ofList (transitions : List Transition) (source : Element) (tag : String) :
    (ofList transitions).lookup source tag =
      transitions.find? fun transition => transition.source = source ∧ transition.tag = tag := by
  obtain ⟨before, after, hgrouped, hbefore, hafter⟩ := grouped_eq transitions source
  have hfirst : (ofList transitions).first.getD source.index none =
      (grouped transitions).findIdx? (·.source = source) := by
    rw [ofList, first_noteFrom (covers_empty _)]
    simp [Array.getD_eq_getD_getElem?, source.index_lt]
  have hfind : (transitions.find? fun transition =>
      transition.source = source ∧ transition.tag = tag) =
        (transitions.filter (·.source = source)).find? (·.tag = tag) := by
    simp [List.find?_filter]
  have htransitions : (ofList transitions).transitions = grouped transitions :=
    transitions_noteFrom _ _ _
  have hskip : before.findIdx? (fun transition : Transition => transition.source = source) =
      none := by
    simpa [List.findIdx?_eq_none_iff] using hbefore
  rw [hfind, lookup, hfirst, htransitions, hgrouped]
  cases hblock : transitions.filter (·.source = source) with
  | nil =>
      have hnone : (before ++ [] ++ after).findIdx?
          (fun transition : Transition => transition.source = source) = none := by
        simpa [List.findIdx?_eq_none_iff, or_imp, forall_and] using ⟨hbefore, hafter⟩
      rw [hnone]
      rfl
  | cons head rest =>
      have hsources : ∀ transition ∈ head :: rest, transition.source = source := by
        intro transition h
        rw [← hblock] at h
        exact of_decide_eq_true (List.mem_filter.mp h).2
      have hsome : (before ++ head :: rest ++ after).findIdx?
          (fun transition : Transition => transition.source = source) = some before.length := by
        simp [List.findIdx?_append, hskip, List.findIdx?_cons, hsources head]
      have hend : after.takeWhile (fun transition => transition.source = source) = [] := by
        cases after with
        | nil => rfl
        | cons transition after => simp [hafter transition]
      rw [hsome, List.append_assoc]
      simp only [Option.bind_eq_bind, Option.bind_some, List.drop_left]
      rw [List.takeWhile_append_of_pos (by simpa using hsources), hend, List.append_nil]

/-- An element is left for the source of the last transition into it. -/
theorem parent_ofList (transitions : List Transition) (element : Element) :
    (ofList transitions).parent element =
      (((grouped transitions).filter (·.target = element)).getLast?.map
        Transition.source).getD .start := by
  have hstart : TransitionTable.parent ⟨grouped transitions,
      Array.replicate Element.all.length none,
      Array.replicate Element.all.length .start⟩ element = .start := by
    simp [parent, Array.getD_eq_getD_getElem?, element.index_lt]
  rw [ofList, parent_noteFrom (covers_empty _), hstart]

end TransitionTable

end Metainfo
