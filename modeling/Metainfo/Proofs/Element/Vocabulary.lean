import Metainfo.Proofs.Element.Table

/-!
The vocabulary as a tree of elements: what leads into an element comes from one place, text is
only gathered where no further element means anything, and applications do not contain each other.
-/

namespace Metainfo.Element

/-- What a tag means inside an element. -/
def transition? (element : Element) (tag : String) : Option Transition :=
  vocabulary.find? fun transition => transition.source = element ∧ transition.tag = tag

theorem lookup_vocabulary (element : Element) (tag : String) :
    vocabularyTable.lookup element tag = element.transition? tag :=
  TransitionTable.lookup_ofList vocabulary element tag

variable {element : Element} {tag : String} {transition : Transition}

theorem mem_of_transition? (h : element.transition? tag = some transition) :
    transition ∈ vocabulary :=
  List.mem_of_find?_eq_some h

theorem source_of_transition? (h : element.transition? tag = some transition) :
    transition.source = element := by
  have := List.find?_some h
  simp only [decide_eq_true_eq] at this
  exact this.1

theorem tag_of_transition? (h : element.transition? tag = some transition) :
    transition.tag = tag := by
  have := List.find?_some h
  simp only [decide_eq_true_eq] at this
  exact this.2

theorem transition?_eq_none (h : ∀ transition ∈ vocabulary, transition.source ≠ element)
    (tag : String) : element.transition? tag = none := by
  rw [transition?, List.find?_eq_none]
  intro transition hmem
  simp [h transition hmem]

theorem parent_target (h : element.transition? tag = some transition) :
    vocabularyTable.parent transition.target = element := by
  have hall : ∀ transition ∈ vocabulary,
      vocabularyTable.parent transition.target = transition.source := by decide
  rw [hall _ (mem_of_transition? h), source_of_transition? h]

/-- The outside of applications is never inside something else. -/
theorem source_of_target_start (h : element.transition? tag = some transition)
    (htarget : transition.target = .start ∨ transition.target = .application) :
    element = .start := by
  have hall : ∀ transition ∈ vocabulary,
      transition.target = .start ∨ transition.target = .application →
        transition.source = .start := by decide
  rw [← source_of_transition? h]
  exact hall _ (mem_of_transition? h) htarget

/-- Where text is gathered, no tag means anything. -/
theorem transition?_of_captures (h : element.transition? tag = some transition)
    (hcaptures : transition.captures) (inner : String) :
    transition.target.transition? inner = none := by
  have hall : ∀ transition ∈ vocabulary, transition.captures →
      ∀ other ∈ vocabulary, other.source ≠ transition.target := by decide
  exact transition?_eq_none (hall _ (mem_of_transition? h) hcaptures) inner

/-- The text in an element counts. -/
def gathers (element : Element) : Bool :=
  vocabulary.any fun transition => transition.target = element && transition.captures

theorem gathers_target (h : element.transition? tag = some transition) :
    transition.target.gathers = transition.captures := by
  have hall : ∀ transition ∈ vocabulary, transition.target.gathers = transition.captures := by
    decide
  exact hall _ (mem_of_transition? h)

theorem gathers_eq_false (h : element.transition? tag = some transition) :
    element.gathers = false := by
  have hall : ∀ transition ∈ vocabulary, transition.source.gathers = false := by decide
  rw [← source_of_transition? h]
  exact hall _ (mem_of_transition? h)

theorem gathers_parent (element : Element) :
    (vocabularyTable.parent element).gathers = false := by
  cases element <;> decide

/-- Inside applications an element opens by one tag only. -/
theorem target_eq_iff {other : Transition} {name : String}
    (h : element.transition? name = some other) (h' : element.transition? tag = some transition)
    (helement : element ≠ .start) : other.target = transition.target ↔ name = tag := by
  have hall : ∀ transition ∈ vocabulary, ∀ other ∈ vocabulary,
      transition.source = other.source → transition.source ≠ .start →
        (other.target = transition.target ↔ other.tag = transition.tag) := by decide
  have hsource := source_of_transition? h'
  rw [← tag_of_transition? h, ← tag_of_transition? h']
  exact hall _ (mem_of_transition? h') _ (mem_of_transition? h)
    (hsource.trans (source_of_transition? h).symm) (hsource ▸ helement)

end Metainfo.Element
