import Metainfo.Ingest.Context
import Metainfo.Proofs.Element.Vocabulary

/-!
The single steps of reading a document: for each state of the counters, what an event changes and
what it leaves alone.
-/

namespace Metainfo.Context

open Metainfo.Markup

variable (settings : IngestSettings) (context : Context) (attributes : Attributes)

theorem enter_of_ne (h : context.element ≠ .application) :
    ∃ description, context.enter attributes = { context with description } := by
  rw [enter]
  split
  · contradiction
  · exact ⟨_, rfl⟩
  · exact ⟨_, rfl⟩
  · exact ⟨_, rfl⟩
  · exact ⟨context.description, rfl⟩

theorem enter_application (h : context.element = .application) :
    context.enter attributes =
      { context with
        pool := context.pool.addRecord.2.setText context.pool.addRecord.1 .category
          (categoryOf attributes)
        record := some context.pool.addRecord.1
        findings := noFindings } := by
  rw [enter, h]

theorem enter_description (h : context.element = .description) :
    context.enter attributes = { context with description := context.description.reset } := by
  rw [enter, h]

theorem enter_list (h : context.element = .orderedList ∨ context.element = .unorderedList) :
    context.enter attributes = { context with description := context.description.startList } := by
  rcases h with h | h <;> rw [enter, h]

/-- Entering an element concerns the record and the description only. -/
theorem enter_eq :
    ∃ pool description record findings,
      context.enter attributes = { context with pool, description, record, findings } := by
  by_cases h : context.element = .application
  · exact ⟨_, _, _, _, context.enter_application attributes h⟩
  · obtain ⟨description, henter⟩ := context.enter_of_ne attributes h
    exact ⟨_, description, _, _, henter⟩

@[simp]
theorem depth_enter : (context.enter attributes).depth = context.depth := by
  obtain ⟨_, _, _, _, h⟩ := context.enter_eq attributes
  rw [h]

@[simp]
theorem knownDepth_enter : (context.enter attributes).knownDepth = context.knownDepth := by
  obtain ⟨_, _, _, _, h⟩ := context.enter_eq attributes
  rw [h]

@[simp]
theorem element_enter : (context.enter attributes).element = context.element := by
  obtain ⟨_, _, _, _, h⟩ := context.enter_eq attributes
  rw [h]

@[simp]
theorem skipDepth_enter : (context.enter attributes).skipDepth = context.skipDepth := by
  obtain ⟨_, _, _, _, h⟩ := context.enter_eq attributes
  rw [h]

@[simp]
theorem captures_enter : (context.enter attributes).captures = context.captures := by
  obtain ⟨_, _, _, _, h⟩ := context.enter_eq attributes
  rw [h]

theorem isSome_record_enter :
    (context.enter attributes).record.isSome =
      (context.element = .application ∨ context.record.isSome) := by
  by_cases h : context.element = .application
  · rw [context.enter_application attributes h]
    simp [h]
  · obtain ⟨description, henter⟩ := context.enter_of_ne attributes h
    rw [henter]
    simp [h]

theorem leave_of_none {context : Context} (h : context.record = none) :
    context.leave settings = context := by
  rw [leave, h]

theorem leave_of_some {context : Context} {record : RecordId} (h : context.record = some record) :
    context.leave settings = context.leaveIn settings record := by
  rw [leave, h]

/-- Leaving an element does not change where in the document it stood. -/
theorem leaveIn_eq (record : RecordId) :
    ∃ pool content description open? findings completed queries,
      context.leaveIn settings record =
        { context with
          pool, content, description, record := open?, findings, completed, queries } := by
  rw [leaveIn]
  split <;> try exact ⟨_, _, _, _, _, _, _, rfl⟩
  -- Only the description closes in two ways.
  split <;> exact ⟨_, _, _, _, _, _, _, rfl⟩

theorem leave_eq :
    ∃ pool content description record findings completed queries,
      context.leave settings =
        { context with
          pool, content, description, record, findings, completed, queries } := by
  cases h : context.record with
  | none => exact ⟨_, _, _, _, _, _, _, leave_of_none settings h⟩
  | some record =>
      rw [leave_of_some settings h]
      exact context.leaveIn_eq settings record

@[simp]
theorem depth_leave : (context.leave settings).depth = context.depth := by
  obtain ⟨_, _, _, _, _, _, _, h⟩ := context.leave_eq settings
  rw [h]

@[simp]
theorem knownDepth_leave : (context.leave settings).knownDepth = context.knownDepth := by
  obtain ⟨_, _, _, _, _, _, _, h⟩ := context.leave_eq settings
  rw [h]

@[simp]
theorem element_leave : (context.leave settings).element = context.element := by
  obtain ⟨_, _, _, _, _, _, _, h⟩ := context.leave_eq settings
  rw [h]

@[simp]
theorem skipDepth_leave : (context.leave settings).skipDepth = context.skipDepth := by
  obtain ⟨_, _, _, _, _, _, _, h⟩ := context.leave_eq settings
  rw [h]

theorem record_leaveIn (record : RecordId) :
    (context.leaveIn settings record).record =
      if context.element = .application then none else context.record := by
  rw [leaveIn]
  split <;> try simp_all [closeApplication, setGatheredText, addGatheredText, describe, takeText]
  split <;> rfl

theorem isSome_record_leave :
    (context.leave settings).record.isSome =
      (context.element ≠ .application ∧ context.record.isSome) := by
  cases h : context.record with
  | none => simp [leave_of_none settings h, h]
  | some record =>
      rw [leave_of_some settings h, record_leaveIn]
      by_cases happlication : context.element = .application <;> simp [happlication, h]

variable {settings context attributes} {name : String} {transition : Transition} {skipped : Nat}

/-- The context inside an element that means nothing. -/
def deepened (context : Context) : Context :=
  { context with depth := context.depth + 1 }

theorem start_deeper (h : context.depth ≠ context.knownDepth) :
    context.start name attributes = context.deepened := by
  rw [start, if_pos h, deepened]

theorem start_unknown (h : context.element.transition? name = none) :
    context.start name attributes = context.deepened := by
  simp [start, deepened, Element.lookup_vocabulary, h]

/-- The context inside an element that means something. -/
def inside (context : Context) (transition : Transition) (skipDepth : Option Nat) : Context :=
  { context with
    depth := context.depth + 1
    knownDepth := context.depth + 1
    element := transition.target
    skipDepth
    captures := transition.captures && skipDepth.isNone
    content := context.content.clear }

theorem start_skipped (hdepth : context.depth = context.knownDepth)
    (htransition : context.element.transition? name = some transition)
    (hskip : context.skipDepth = some skipped) :
    context.start name attributes = context.inside transition (some skipped) := by
  simp [start, inside, Element.lookup_vocabulary, hdepth, htransition, hskip]

theorem start_localized (hdepth : context.depth = context.knownDepth)
    (htransition : context.element.transition? name = some transition)
    (hskip : context.skipDepth = none)
    (hlocalized : (attributes.get? languageAttribute).isSome) :
    context.start name attributes = context.inside transition (some (context.depth + 1)) := by
  simp [start, inside, Element.lookup_vocabulary, hdepth, htransition, hskip, hlocalized]

theorem start_known (hdepth : context.depth = context.knownDepth)
    (htransition : context.element.transition? name = some transition)
    (hskip : context.skipDepth = none)
    (hlocalized : (attributes.get? languageAttribute).isSome = false) :
    context.start name attributes = (context.inside transition none).enter attributes := by
  simp [start, inside, Element.lookup_vocabulary, hdepth, htransition, hskip, hlocalized]

theorem stop_deeper (h : context.depth ≠ context.knownDepth) :
    context.stop settings = { context with depth := context.depth - 1 } := by
  rw [stop, if_pos h]

/-- The context outside the current element. -/
def outside (context : Context) (skipDepth : Option Nat) : Context :=
  { context with
    depth := context.depth - 1
    knownDepth := context.knownDepth - 1
    element := vocabularyTable.parent context.element
    skipDepth
    captures := false }

theorem stop_skipped (hdepth : context.depth = context.knownDepth)
    (hskip : context.skipDepth = some skipped) (hinside : skipped < context.depth) :
    context.stop settings = context.outside (some skipped) := by
  rw [hdepth] at hinside
  simp [stop, outside, hdepth, hskip, hinside]

theorem stop_localized (hdepth : context.depth = context.knownDepth)
    (hskip : context.skipDepth = some context.depth) :
    context.stop settings = context.outside none := by
  rw [hdepth] at hskip
  simp [stop, outside, hdepth, hskip]

/-- The context when the current element is left. -/
def shallower (context : Context) : Context :=
  { context with depth := context.depth - 1, knownDepth := context.knownDepth - 1 }

@[simp]
theorem element_shallower : context.shallower.element = context.element :=
  rfl

theorem stop_known (hdepth : context.depth = context.knownDepth)
    (hskip : context.skipDepth = none) :
    context.stop settings =
      { context.shallower.leave settings with
        element := vocabularyTable.parent context.element
        captures := false } := by
  simp [stop, shallower, hdepth, hskip]

@[simp]
theorem run_nil : context.run settings [] = context :=
  rfl

@[simp]
theorem run_cons (event : Event) (events : List Event) :
    context.run settings (event :: events) = (context.step settings event).run settings events :=
  rfl

@[simp]
theorem run_append (first second : List Event) :
    context.run settings (first ++ second) =
      (context.run settings first).run settings second :=
  List.foldl_append

theorem abort_of_none (h : context.record = none) : context.abort = context := by
  rw [abort, h]

theorem abort_of_some {id : RecordId} (h : context.record = some id) :
    context.abort = { context with pool := context.pool.discard id, record := none } := by
  rw [abort, h]

end Metainfo.Context
