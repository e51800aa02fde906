import Metainfo.Proofs.Ingest.Frames

/-!
Running whole elements. An element that means nothing comes to no more than the text in it, an
element that is left out to nothing but an emptied buffer, and any other one to its opening, its
content and its closing.
-/

namespace Metainfo

open Metainfo.Markup
open Metainfo.Utf8

namespace Markup.Fragment

/-- All pieces of text of a fragment, at any depth. -/
def texts : Fragment → List String
  | .empty => []
  | .text content rest => content :: rest.texts
  | .element _ _ children rest => children.texts ++ rest.texts

/-- The text of a fragment as it is taken for a value. -/
def value (fragment : Fragment) : String :=
  (ContentBuffer.ofContent (encode (String.join fragment.texts))).collapse.text

end Markup.Fragment

theorem ContentBuffer.append_append (buffer : ContentBuffer) (first second : List UInt8) :
    (buffer.append first).append second = buffer.append (first ++ second) := by
  apply congrArg ContentBuffer.mk
  apply Array.toList_inj.mp
  simp [append]

theorem Utf8.encode_append (first second : String) :
    encode (first ++ second) = encode first ++ encode second := by
  simp [encode]

namespace Context

variable {settings : IngestSettings} {context : Context} {name : String}
  {attributes : Attributes} {transition : Transition}

/-- Takes pieces of text one after the other. -/
def gather (context : Context) (texts : List String) : Context :=
  { context with
    content :=
      if context.captures then
        texts.foldl (fun content piece => content.append (encode piece)) context.content
      else context.content }

@[simp]
theorem gather_nil (context : Context) : context.gather [] = context := by
  simp [gather]

theorem gather_cons (context : Context) (piece : String) (texts : List String) :
    context.gather (piece :: texts) = (context.text piece).gather texts := by
  cases h : context.captures <;> simp [gather, text, h]

theorem gather_append (context : Context) (first second : List String) :
    context.gather (first ++ second) = (context.gather first).gather second := by
  induction first generalizing context with
  | nil => simp
  | cons piece first ih => rw [List.cons_append, gather_cons, gather_cons, ih]

theorem gather_deepened (context : Context) (texts : List String) :
    context.deepened.gather texts = (context.gather texts).deepened :=
  rfl

theorem content_gather (h : context.captures) {data : List UInt8}
    (hcontent : context.content = .ofContent data) (texts : List String) :
    (context.gather texts).content = .ofContent (data ++ encode (String.join texts)) := by
  induction texts generalizing context data with
  | nil => simpa [encode] using hcontent
  | cons piece texts ih =>
      have htext : (context.text piece).content = .ofContent (data ++ encode piece) := by
        simp [text, h, hcontent, ContentBuffer.ofContent, ContentBuffer.append_append]
      have hcaptures : (context.text piece).captures := by simp [text, h]
      rw [gather_cons, ih hcaptures htext, List.append_assoc, ← encode_append,
        String.join_cons]

/-- Nothing inside means anything: an unknown element is open, or the current one has no
meaningful children. -/
def Blind (context : Context) : Prop :=
  context.knownDepth < context.depth ∨
    context.knownDepth = context.depth ∧ ∀ tag, context.element.transition? tag = none

theorem Blind.start (h : context.Blind) (name : String) (attributes : Attributes) :
    context.start name attributes = context.deepened := by
  rcases h with hdepth | ⟨-, hnone⟩
  · exact start_deeper (Nat.ne_of_gt hdepth)
  · exact start_unknown (hnone name)

/-- An unknown element that closes gives back the depth at which it opened. -/
theorem stop_deepened (context : Context) (h : context.knownDepth ≤ context.depth) :
    context.deepened.stop settings = context := by
  rw [stop_deeper]
  · rfl
  · exact Nat.ne_of_gt (Nat.lt_succ_of_le h)

theorem Blind.run (h : context.Blind) (fragment : Fragment) :
    context.run settings fragment.events = context.gather fragment.texts := by
  induction fragment generalizing context with
  | empty => exact context.gather_nil.symm
  | text content rest ih =>
      have hnext : (context.text content).Blind := by
        rw [Context.text]
        split <;> exact h
      change (context.text content).run settings rest.events = _
      rw [ih hnext, Fragment.texts, gather_cons]
  | element name attributes children rest ihChildren ihRest =>
      have hle : context.knownDepth ≤ context.depth := by
        rcases h with hdepth | ⟨hdepth, -⟩
        · exact Nat.le_of_lt hdepth
        · exact Nat.le_of_eq hdepth
      have hinside : context.deepened.Blind :=
        Or.inl (Nat.lt_succ_of_le hle)
      rw [Fragment.events, List.cons_append, run_cons, step, h.start, run_append,
        ihChildren hinside, gather_deepened, run_cons, step,
        stop_deepened (context.gather children.texts) hle, Fragment.texts,
        gather_append]
      exact ihRest h

theorem run_unknown (hdepth : context.depth = context.knownDepth)
    (htransition : context.element.transition? name = none) (children rest : Fragment) :
    context.run settings (Fragment.element name attributes children rest).events =
      (context.gather children.texts).run settings rest.events := by
  have hinside : context.deepened.Blind :=
    Or.inl (Nat.lt_succ_of_le (Nat.le_of_eq hdepth.symm))
  rw [Fragment.events, List.cons_append, run_cons, step, start_unknown htransition, run_append,
    hinside.run, gather_deepened, run_cons, step,
    stop_deepened (context.gather children.texts) (Nat.le_of_eq hdepth.symm)]

theorem outside_inside (hdepth : context.depth = context.knownDepth)
    (htransition : context.element.transition? name = some transition)
    (outer skipDepth : Option Nat) :
    (context.inside transition outer).outside skipDepth =
      { context with skipDepth, captures := false, content := .empty } := by
  simp [inside, outside, Element.parent_target htransition, hdepth, ContentBuffer.clear]

/-- A known element in one that is left out, if its content has no effect. -/
theorem run_around_skipped {skipped : Nat} (hdepth : context.depth = context.knownDepth)
    (htransition : context.element.transition? name = some transition)
    (hskip : context.skipDepth = some skipped) (hinside : skipped ≤ context.depth)
    {children : Fragment}
    (hchildren : (context.inside transition (some skipped)).run settings children.events =
      context.inside transition (some skipped)) (rest : Fragment) :
    context.run settings (Fragment.element name attributes children rest).events =
      { context with captures := false, content := .empty }.run settings rest.events := by
  rw [Fragment.events, List.cons_append, run_cons, step,
    start_skipped hdepth htransition hskip, run_append, hchildren, run_cons, step,
    stop_skipped rfl rfl (Nat.lt_succ_of_le hinside), outside_inside hdepth htransition, ← hskip]

/-- In an element that is left out nothing has an effect, known or not. -/
theorem run_skipped (settings : IngestSettings) (context : Context) {skipped : Nat}
    (hskip : context.skipDepth = some skipped)
    (hinside : skipped ≤ context.depth) (hdepth : context.knownDepth ≤ context.depth)
    (hcaptures : context.captures = false) (hcontent : context.content = .empty)
    (fragment : Fragment) : context.run settings fragment.events = context := by
  induction fragment generalizing context with
  | empty => rfl
  | text content rest ih =>
      have htext : context.text content = context := by simp [text, hcaptures]
      change (context.text content).run settings rest.events = _
      rw [htext, ih _ hskip hinside hdepth hcaptures hcontent]
  | element name attributes children rest ihChildren ihRest =>
      have hrest := ihRest _ hskip hinside hdepth hcaptures hcontent
      have hdeepened (hstart : context.start name attributes = context.deepened) :
          context.run settings (Fragment.element name attributes children rest).events =
            context := by
        have hchildren := ihChildren context.deepened hskip
          (Nat.le_succ_of_le hinside) (Nat.le_succ_of_le hdepth) hcaptures hcontent
        rw [Fragment.events, List.cons_append, run_cons, step, hstart, run_append, hchildren,
          run_cons, step, stop_deepened context hdepth, hrest]
      by_cases heq : context.depth = context.knownDepth
      · cases htransition : context.element.transition? name with
        | none => exact hdeepened (start_unknown htransition)
        | some transition =>
            have hchildren := ihChildren (context.inside transition (some skipped)) rfl
              (Nat.le_succ_of_le hinside) (Nat.le_refl _) (by simp [inside]) rfl
            rw [run_around_skipped heq htransition hskip hinside hchildren, ← hcaptures,
              ← hcontent]
            exact hrest
      · exact hdeepened (start_deeper heq)

theorem run_localized (hdepth : context.depth = context.knownDepth)
    (htransition : context.element.transition? name = some transition)
    (hskip : context.skipDepth = none)
    (hlocalized : (attributes.get? languageAttribute).isSome) (children rest : Fragment) :
    context.run settings (Fragment.element name attributes children rest).events =
      { context with captures := false, content := .empty }.run settings rest.events := by
  have hchildren := run_skipped settings
    (context.inside transition (some (context.depth + 1))) rfl (Nat.le_refl _)
    (Nat.le_refl _) (by simp [inside]) rfl children
  rw [Fragment.events, List.cons_append, run_cons, step,
    start_localized hdepth htransition hskip hlocalized, run_append, hchildren, run_cons, step,
    stop_localized rfl rfl, outside_inside hdepth htransition, hskip]

/-- Opens an element that means something, reads its content and closes it. -/
def visit (settings : IngestSettings) (context : Context) (transition : Transition)
    (attributes : Attributes) (children : Fragment) : Context :=
  (((context.inside transition none).enter attributes).run settings children.events).stop settings

theorem run_known (hdepth : context.depth = context.knownDepth)
    (htransition : context.element.transition? name = some transition)
    (hskip : context.skipDepth = none)
    (hlocalized : (attributes.get? languageAttribute).isSome = false)
    (children rest : Fragment) :
    context.run settings (Fragment.element name attributes children rest).events =
      (context.visit settings transition attributes children).run settings rest.events := by
  rw [Fragment.events, List.cons_append, run_cons, step,
    start_known hdepth htransition hskip hlocalized, run_append, run_cons, step, visit]

/-- Directly in a known element, and nothing is left out. -/
structure At (context : Context) (element : Element) : Prop where
  depth : context.depth = context.knownDepth
  skipDepth : context.skipDepth = none
  element : context.element = element

variable {element : Element}

theorem At.gather (h : context.At element) (texts : List String) :
    (context.gather texts).At element :=
  ⟨h.depth, h.skipDepth, h.element⟩

theorem At.text (h : context.At element) (content : String) :
    (context.text content).At element := by
  rw [Context.text]
  split
  · exact ⟨h.depth, h.skipDepth, h.element⟩
  · exact h

theorem at_inside (context : Context) (transition : Transition) (attributes : Attributes) :
    ((context.inside transition none).enter attributes).At transition.target := by
  constructor <;> simp [inside]

theorem At.stop_eq (h : context.At transition.target)
    (htransition : element.transition? name = some transition) (settings : IngestSettings) :
    context.stop settings =
      { context.shallower.leave settings with element := element, captures := false } := by
  rw [stop_known h.depth h.skipDepth, h.element, Element.parent_target htransition]

theorem At.stop (h : context.At transition.target)
    (htransition : element.transition? name = some transition) (settings : IngestSettings) :
    (context.stop settings).At element := by
  rw [h.stop_eq htransition]
  constructor <;> simp [shallower, h.depth, h.skipDepth]

/-- Whatever an element contains, its end finds the context where its start left it. -/
theorem At.run (h : context.At element) (settings : IngestSettings) (fragment : Fragment) :
    (context.run settings fragment.events).At element := by
  induction fragment generalizing context element with
  | empty => exact h
  | text content rest ih => exact ih (h.text content)
  | element name attributes children rest ihChildren ihRest =>
      cases htransition : element.transition? name with
      | none =>
          rw [run_unknown h.depth (h.element ▸ htransition)]
          exact ihRest (h.gather children.texts)
      | some transition =>
          have hcurrent : context.element.transition? name = some transition :=
            h.element ▸ htransition
          cases hlocalized : (attributes.get? languageAttribute).isSome with
          | true =>
              rw [run_localized h.depth hcurrent h.skipDepth hlocalized]
              exact ihRest ⟨h.depth, h.skipDepth, h.element⟩
          | false =>
              rw [run_known h.depth hcurrent h.skipDepth hlocalized]
              have hchildren := ihChildren (context.at_inside transition attributes)
              exact ihRest (hchildren.stop htransition settings)

theorem at_visit (htransition : element.transition? name = some transition)
    (settings : IngestSettings) (context : Context) (attributes : Attributes)
    (children : Fragment) :
    (context.visit settings transition attributes children).At element :=
  ((context.at_inside transition attributes).run settings children).stop htransition settings

/-- Elements whose text counts do nothing when they open. -/
theorem enter_inside_of_captures (htransition : element.transition? name = some transition)
    (hcaptures : transition.captures) (context : Context) (attributes : Attributes) :
    (context.inside transition none).enter attributes = context.inside transition none := by
  have hall : ∀ transition ∈ vocabulary, transition.captures →
      transition.target ≠ .application ∧ transition.target ≠ .description ∧
        transition.target ≠ .orderedList ∧ transition.target ≠ .unorderedList := by decide
  obtain ⟨happlication, hdescription, hordered, hunordered⟩ :=
    hall _ (Element.mem_of_transition? htransition) hcaptures
  rw [enter]
  split
  · contradiction
  · contradiction
  · contradiction
  · contradiction
  · rfl

/-- An element whose text counts gathers all of it, whatever it contains besides. -/
theorem run_leaf (settings : IngestSettings) (context : Context) (attributes : Attributes)
    (htransition : element.transition? name = some transition)
    (hcaptures : transition.captures) (children : Fragment) :
    ((context.inside transition none).enter attributes).run settings children.events =
      { context.inside transition none with
        content := .ofContent (encode (String.join children.texts)) } := by
  have hblind : (context.inside transition none).Blind :=
    Or.inr ⟨rfl, Element.transition?_of_captures htransition hcaptures⟩
  have hempty : (context.inside transition none).content = .ofContent [] := rfl
  have hcontent := content_gather (by simp [inside, hcaptures]) hempty children.texts
  rw [enter_inside_of_captures htransition hcaptures, hblind.run]
  rw [List.nil_append] at hcontent
  rw [← hcontent]
  rfl

/-- Where a record is open, what closing an element does depends on what its content made of the
pool, the findings, the description and the buffer. -/
theorem At.visit_eq (h : context.At element)
    (htransition : element.transition? name = some transition) {record : RecordId}
    (hrecord : context.record = some record) {children : Fragment} {pool : Pool}
    {findings : Completion.Findings} {description : Description} {content : ContentBuffer}
    {captures : Bool}
    (hinner : ((context.inside transition none).enter attributes).run settings children.events =
      { context.inside transition none with pool, findings, description, content, captures }) :
    context.visit settings transition attributes children =
      { { context with
            pool, element := transition.target, findings, description, content, captures }.leaveIn
          settings record with
        element := context.element
        captures := false } := by
  have hat := (context.at_inside transition attributes).run settings children
  have hleave (inner : Context) (hopen : inner.record = some record) :
      inner.leave settings = inner.leaveIn settings record := leave_of_some settings hopen
  have hshallower : { context.inside transition none with
        pool, findings, description, content, captures }.shallower =
      { context with
        pool, element := transition.target, findings, description, content, captures } := by
    simp [inside, shallower, h.depth, h.skipDepth]
  rw [visit, hat.stop_eq htransition, hinner, hshallower, hleave, h.element]
  exact hrecord

/-- An element whose text counts closes with that text in the buffer. -/
theorem At.visit_leaf (h : context.At element)
    (htransition : element.transition? name = some transition)
    (hcaptures : transition.captures) {record : RecordId}
    (hrecord : context.record = some record) (settings : IngestSettings)
    (attributes : Attributes) (children : Fragment) :
    context.visit settings transition attributes children =
      { { context with
            element := transition.target
            content := .ofContent (encode (String.join children.texts))
            captures := true }.leaveIn settings record with
        element := context.element
        captures := false } := by
  have hinner := run_leaf settings context attributes htransition hcaptures children
  rw [h.visit_eq htransition hrecord hinner]
  simp [inside, hcaptures]

end Context

end Metainfo
