import Metainfo.Proofs.Ingest.Evaluation

/-!
The children of an element that count in it: those that mean something there and are for all
languages. Reading its content comes to reading them, one after the other.
-/

namespace Metainfo

open Metainfo.Markup
open Metainfo.Utf8

namespace Markup.Fragment

/-- The child elements that are for all languages, each with its name and content. -/
def elements : Fragment → List (String × Fragment)
  | .empty => []
  | .text _ rest => rest.elements
  | .element name attributes children rest =>
      if attributes.get? Context.languageAttribute = none then
        (name, children) :: rest.elements
      else rest.elements

/-- The values of the children with a tag that are for all languages. -/
def childValues (tag : String) : Fragment → List String
  | .empty => []
  | .text _ rest => rest.childValues tag
  | .element name attributes children rest =>
      if name = tag ∧ attributes.get? Context.languageAttribute = none then
        children.value :: rest.childValues tag
      else rest.childValues tag

/-- The contents of the children with a tag that are for all languages. -/
def contents (fragment : Fragment) (tag : String) : List Fragment :=
  fragment.elements.filterMap fun child => if child.1 = tag then some child.2 else none

/-- The children that mean something in an element, each with what it means there. -/
def members (fragment : Fragment) (element : Element) : List (Element × Fragment) :=
  fragment.elements.filterMap fun child =>
    (element.transition? child.1).map fun transition => (transition.target, child.2)

theorem childValues_eq (fragment : Fragment) (tag : String) :
    fragment.childValues tag = (fragment.contents tag).map value := by
  induction fragment with
  | empty => rfl
  | text content rest ih => exact ih
  | element name attributes children rest ihChildren ihRest =>
      rw [childValues, contents, elements]
      by_cases hlanguage : attributes.get? Context.languageAttribute = none
      · by_cases hname : name = tag <;> simp [hlanguage, hname, ihRest, contents]
      · simp [hlanguage, ihRest, contents]

variable {element : Element} {tag : String} {transition : Transition}

/-- In an application and below, what a child means tells its tag. -/
theorem flatMap_members {α : Type} (fragment : Fragment)
    (htransition : element.transition? tag = some transition) (helement : element ≠ .start)
    (f : Fragment → List α) :
    (fragment.members element).flatMap
        (fun member => if member.1 = transition.target then f member.2 else []) =
      (fragment.contents tag).flatMap f := by
  rw [members, contents]
  induction fragment.elements with
  | nil => rfl
  | cons child rest ih =>
      obtain ⟨name, children⟩ := child
      rw [List.filterMap_cons, List.filterMap_cons]
      cases hother : element.transition? name with
      | none =>
          have hname : name ≠ tag := by
            rintro rfl
            rw [htransition] at hother
            contradiction
          simpa [hname] using ih
      | some other =>
          have htarget := Element.target_eq_iff hother htransition helement
          by_cases hname : name = tag
          · simp [hname, htarget.mpr hname, ih]
          · simpa [hname, mt htarget.mp hname] using ih

end Markup.Fragment

namespace Context

variable {settings : IngestSettings} {context : Context} {element : Element}

theorem text_eq (context : Context) (piece : String) :
    ∃ content, context.text piece = { context with content } := by
  rw [text]
  split
  · exact ⟨_, rfl⟩
  · exact ⟨context.content, rfl⟩

/-- Between the children that mean something, only the buffer changes. What holds of a context, with
a state that each of them carries on, holds when all are read. -/
theorem At.run_children {σ β : Type} (h : context.At element) (settings : IngestSettings)
    (invariant : σ → Context → Prop) (read : σ → β → σ)
    (select : String × Fragment → Option β)
    (hunknown : ∀ name children, element.transition? name = none → select (name, children) = none)
    (hbuffer : ∀ state later content captures, invariant state later →
      invariant state { later with content, captures })
    (hvisit : ∀ state later name transition attributes children, later.At element →
      element.transition? name = some transition → invariant state later →
        ∃ child, select (name, children) = some child ∧
          invariant (read state child) (later.visit settings transition attributes children))
    {state : σ} (hstate : invariant state context) (fragment : Fragment) :
    invariant ((fragment.elements.filterMap select).foldl read state)
      (context.run settings fragment.events) := by
  induction fragment generalizing context state with
  | empty => exact hstate
  | text piece rest ih =>
      obtain ⟨content, htext⟩ := context.text_eq piece
      refine ih (h.text piece) ?_
      rw [htext]
      exact hbuffer state context content context.captures hstate
  | element name attributes children rest ihChildren ihRest =>
      rw [Fragment.elements]
      cases htransition : element.transition? name with
      | none =>
          have hskip : (if attributes.get? languageAttribute = none then
              (name, children) :: rest.elements else rest.elements).filterMap select =
                rest.elements.filterMap select := by
            split
            · rw [List.filterMap_cons_none (hunknown name children htransition)]
            · rfl
          rw [run_unknown h.depth (h.element ▸ htransition), hskip]
          exact ihRest (h.gather children.texts) (hbuffer state context _ context.captures hstate)
      | some transition =>
          have hcurrent : context.element.transition? name = some transition :=
            h.element ▸ htransition
          cases hlanguage : attributes.get? languageAttribute with
          | some language =>
              have hat : At { context with captures := false, content := .empty } element :=
                ⟨h.depth, h.skipDepth, h.element⟩
              rw [run_localized h.depth hcurrent h.skipDepth (by simp [hlanguage]),
                if_neg (by simp)]
              exact ihRest hat (hbuffer state context .empty false hstate)
          | none =>
              obtain ⟨child, hchild, hvisited⟩ :=
                hvisit state context name transition attributes children h htransition hstate
              rw [run_known h.depth hcurrent h.skipDepth (by simp [hlanguage]), if_pos rfl,
                List.filterMap_cons_some hchild, List.foldl_cons]
              exact ihRest (at_visit htransition settings context attributes children) hvisited

end Context

end Metainfo
