import Metainfo.Proofs.Element.Table
import Metainfo.Proofs.Sorting

/-!
What a table tells of a list of transitions, in whatever order they are listed. Regrouping sorts
them by their sources; where each element is entered from one source only, the order plays no part
in how elements are left.
-/

namespace Metainfo

open Metainfo.Sorting

/-- All transitions into an element come from the same source. -/
def EntersFromOne (transitions : List Transition) : Prop :=
  ∀ first ∈ transitions, ∀ second ∈ transitions,
    first.target = second.target → first.source = second.source

instance (transitions : List Transition) : Decidable (EntersFromOne transitions) :=
  inferInstanceAs (Decidable (∀ first ∈ transitions, ∀ second ∈ transitions,
    first.target = second.target → first.source = second.source))

theorem EntersFromOne.of_perm {transitions reordered : List Transition}
    (h : EntersFromOne transitions) (hperm : reordered.Perm transitions) :
    EntersFromOne reordered :=
  fun first hfirst second hsecond =>
    h first (hperm.mem_iff.mp hfirst) second (hperm.mem_iff.mp hsecond)

namespace TransitionTable

/-- Regrouping is sorting by the source. -/
theorem grouped_eq_sortedBy (transitions : List Transition) :
    grouped transitions = sortedBy (·.source.index) transitions := by
  have hascending : (Element.all.map Element.index).Pairwise (· < ·) := by decide
  have hindices : ∀ transition ∈ transitions,
      transition.source.index ∈ Element.all.map Element.index := fun transition _ =>
    List.mem_map_of_mem (List.mem_of_getElem? transition.source.all_getElem?_index)
  rw [sortedBy_eq_flatMap hascending hindices, List.flatMap_map, grouped]
  refine List.flatMap_congr fun source _ => List.filter_congr fun transition _ => ?_
  exact decide_eq_decide.mpr ⟨congrArg Element.index, Element.index_injective⟩

theorem mem_grouped {transitions : List Transition} {transition : Transition} :
    transition ∈ grouped transitions ↔ transition ∈ transitions := by
  rw [grouped_eq_sortedBy]
  exact (sortedBy_perm transitions).mem_iff

theorem parent_ofList_of_not_target {transitions : List Transition} {element : Element}
    (h : ∀ transition ∈ transitions, transition.target ≠ element) :
    (ofList transitions).parent element = .start := by
  have hnone : (grouped transitions).filter (·.target = element) = [] := by
    refine List.filter_eq_nil_iff.mpr fun transition htransition htarget => ?_
    exact h transition (mem_grouped.mp htransition) (of_decide_eq_true htarget)
  rw [parent_ofList, hnone]
  rfl

theorem parent_ofList_target {transitions : List Transition} (h : EntersFromOne transitions)
    {transition : Transition} (htransition : transition ∈ transitions) :
    (ofList transitions).parent transition.target = transition.source := by
  have hmem : transition ∈
      (grouped transitions).filter (·.target = transition.target) :=
    List.mem_filter.mpr ⟨mem_grouped.mpr htransition, decide_eq_true rfl⟩
  rw [parent_ofList, List.getLast?_eq_some_getLast (List.ne_nil_of_mem hmem)]
  obtain ⟨hlast, htarget⟩ :=
    List.mem_filter.mp (List.getLast_mem (List.ne_nil_of_mem hmem))
  exact h _ (mem_grouped.mp hlast) _ htransition (of_decide_eq_true htarget)

/-- A table keeps the transitions sorted by their sources, and a look-up in it finds the first of
the transitions listed, in the order given, that leaves the element by the tag. An element that no
transition enters is left for the outside. If each element is entered from one source only, then,
however the transitions are ordered, an element is left for the source of every transition into it,
and so for the element in which it was looked up. -/
theorem lookup_parent_ofList (transitions : List Transition) :
    (ofList transitions).transitions = sortedBy (·.source.index) transitions ∧
      (∀ source tag, (ofList transitions).lookup source tag =
        transitions.find? fun transition =>
          transition.source = source ∧ transition.tag = tag) ∧
      (∀ element, (∀ transition ∈ transitions, transition.target ≠ element) →
        (ofList transitions).parent element = .start) ∧
      (EntersFromOne transitions → ∀ reordered, reordered.Perm transitions →
        (∀ source tag transition,
          (ofList reordered).lookup source tag = some transition →
            (ofList reordered).parent transition.target = source) ∧
        (∀ transition ∈ transitions,
          (ofList reordered).parent transition.target = transition.source) ∧
        ∀ element, (ofList reordered).parent element = (ofList transitions).parent element) := by
  refine ⟨?_, lookup_ofList transitions, fun element => parent_ofList_of_not_target, ?_⟩
  · exact (transitions_noteFrom _ _ _).trans (grouped_eq_sortedBy transitions)
  · intro hone reordered hperm
    have hparent : ∀ transition ∈ transitions,
        (ofList reordered).parent transition.target = transition.source :=
      fun transition htransition =>
        parent_ofList_target (hone.of_perm hperm) (hperm.mem_iff.mpr htransition)
    refine ⟨?_, hparent, ?_⟩
    · intro source tag transition hlookup
      rw [lookup_ofList] at hlookup
      have hsource := List.find?_some hlookup
      simp only [decide_eq_true_eq] at hsource
      rw [hparent transition (hperm.mem_iff.mp (List.mem_of_find?_eq_some hlookup)), hsource.1]
    · intro element
      by_cases hentered : ∃ transition ∈ transitions, transition.target = element
      · obtain ⟨transition, htransition, rfl⟩ := hentered
        rw [hparent transition htransition, parent_ofList_target hone htransition]
      · have hnot : ∀ transition ∈ transitions, transition.target ≠ element :=
          fun transition htransition htarget => hentered ⟨transition, htransition, htarget⟩
        rw [parent_ofList_of_not_target hnot, parent_ofList_of_not_target fun transition hmem =>
          hnot transition (hperm.mem_iff.mp hmem)]

/-- Of two transitions by one tag the one listed first counts, and the order in which they are
listed makes no difference to how their elements are left. -/
theorem lookup_parent_ofList_reversed :
    let listed : List Transition :=
      [⟨.description, "p", .paragraph, true⟩, ⟨.start, "component", .application, false⟩,
        ⟨.description, "p", .unorderedList, false⟩]
    EntersFromOne listed ∧ listed.reverse.Perm listed ∧
      (ofList listed).lookup .description "p" = some ⟨.description, "p", .paragraph, true⟩ ∧
      (ofList listed.reverse).lookup .description "p" =
        some ⟨.description, "p", .unorderedList, false⟩ ∧
      (ofList listed.reverse).parent .unorderedList = .description ∧
      (ofList listed.reverse).parent .paragraph = .description ∧
      (ofList listed.reverse).parent .keyword = .start := by
  intro listed
  have hone : EntersFromOne listed := by decide
  have hperm : listed.reverse.Perm listed := List.reverse_perm listed
  have hreversed : (ofList listed.reverse).lookup .description "p" =
      some ⟨.description, "p", .unorderedList, false⟩ := by decide
  obtain ⟨-, hlookup, -, hparent⟩ := lookup_parent_ofList listed
  obtain ⟨-, -, hstart, -⟩ := lookup_parent_ofList listed.reverse
  obtain ⟨hleft, hentered, -⟩ := hparent hone listed.reverse hperm
  refine ⟨hone, hperm, ?_, hreversed, hleft _ _ _ hreversed, ?_, hstart _ (by decide)⟩
  · rw [hlookup]
    rfl
  · exact hentered ⟨.description, "p", .paragraph, true⟩ List.mem_cons_self

end TransitionTable

end Metainfo
