import Metainfo.Proofs.Ingest.Context
import Metainfo.Proofs.Markup.Fragment

/-!
The counters of a context against an explicit stack. The stack has a frame for each open element;
the counters, the one current element and the table of parents tell the same, although nothing in
them is pushed or popped.
-/

namespace Metainfo

open Metainfo.Markup

/-- An open element: one that means something, with whether it is for one language only, or one
that means nothing where it stands. -/
inductive Frame where
  | known (element : Element) (localized : Bool)
  | unknown
  deriving DecidableEq, Repr

namespace Frame

def isKnown : Frame → Bool
  | .known _ _ => true
  | .unknown => false

def isLocalized : Frame → Bool
  | .known _ localized => localized
  | .unknown => false

/-- The innermost known element of a stack, whose top is its head. -/
def current : List Frame → Element
  | [] => .start
  | .known element _ :: _ => element
  | .unknown :: outer => current outer

/-- The frame of an element that opens. In an unknown element everything is unknown. -/
def opened (frames : List Frame) (name : String) (attributes : Attributes) : Frame :=
  if frames.head? = some .unknown then .unknown
  else
    match (current frames).transition? name with
    | none => .unknown
    | some transition =>
        .known transition.target (attributes.get? Context.languageAttribute).isSome

def follow (frames : List Frame) : Event → List Frame
  | .start name attributes => opened frames name attributes :: frames
  | .stop _ => frames.tail
  | .text _ => frames

def followAll (frames : List Frame) (events : List Event) : List Frame :=
  events.foldl follow frames

/-- The depth of the outermost localized element. -/
def outermostLocalized (frames : List Frame) : Option Nat :=
  (frames.reverse.findIdx? isLocalized).map (· + 1)

/-- An application is open that nothing says to be for one language only. -/
def OpenApplication (frames : List Frame) : Prop :=
  ∃ inner outer, frames = inner ++ .known .application false :: outer ∧
    ∀ frame ∈ outer, frame.isLocalized = false

/-- Unknown elements contain no known ones, and each known element may stand where it does. -/
def Grounded : List Frame → Prop
  | [] => True
  | .unknown :: outer => Grounded outer
  | .known element _ :: outer =>
      outer.head? ≠ some .unknown ∧ Grounded outer ∧
        ∃ name transition, (current outer).transition? name = some transition ∧
          transition.target = element

/-- The stack without the unknown elements on its top. -/
def knownFrames : List Frame → List Frame
  | .unknown :: outer => knownFrames outer
  | frames => frames

theorem outermostLocalized_cons (frame : Frame) (outer : List Frame) :
    outermostLocalized (frame :: outer) =
      (outermostLocalized outer).or
        (if frame.isLocalized then some (outer.length + 1) else none) := by
  rw [outermostLocalized, outermostLocalized, List.reverse_cons, List.findIdx?_append]
  cases outer.reverse.findIdx? isLocalized with
  | some index => rfl
  | none => cases h : frame.isLocalized <;> simp [List.findIdx?_cons, h]

theorem outermostLocalized_eq_none {frames : List Frame} :
    outermostLocalized frames = none ↔ ∀ frame ∈ frames, frame.isLocalized = false := by
  simp [outermostLocalized, List.findIdx?_eq_none_iff]

theorem le_length_of_outermostLocalized {frames : List Frame} {depth : Nat}
    (h : outermostLocalized frames = some depth) : depth ≤ frames.length := by
  obtain ⟨index, hindex, rfl⟩ := Option.map_eq_some_iff.mp h
  have := (List.findIdx?_eq_some_iff_getElem.mp hindex).1
  rw [List.length_reverse] at this
  omega

theorem openApplication_cons (frame : Frame) (outer : List Frame) :
    OpenApplication (frame :: outer) ↔
      OpenApplication outer ∨
        frame = .known .application false ∧ outermostLocalized outer = none := by
  rw [outermostLocalized_eq_none]
  constructor
  · rintro ⟨inner, rest, hframes, hrest⟩
    cases inner with
    | nil =>
        obtain ⟨rfl, rfl⟩ := List.cons.inj hframes
        exact Or.inr ⟨rfl, hrest⟩
    | cons top inner =>
        obtain ⟨rfl, rfl⟩ := List.cons.inj hframes
        exact Or.inl ⟨inner, rest, rfl, hrest⟩
  · rintro (⟨inner, rest, rfl, hrest⟩ | ⟨rfl, houter⟩)
    · exact ⟨frame :: inner, rest, rfl, hrest⟩
    · exact ⟨[], outer, rfl, houter⟩

/-- An application stands in no other one. -/
theorem Grounded.not_openApplication {frames : List Frame} (h : Grounded frames)
    (hcurrent : current frames = .start) : ¬ OpenApplication frames := by
  induction frames with
  | nil => simp [OpenApplication]
  | cons frame outer ih =>
      rw [openApplication_cons, not_or]
      cases frame with
      | unknown => exact ⟨ih h hcurrent, by simp⟩
      | known element localized =>
          obtain ⟨-, houter, name, transition, htransition, rfl⟩ := h
          have hstart := Element.source_of_target_start htransition (Or.inl hcurrent)
          refine ⟨ih houter hstart, ?_⟩
          rintro ⟨hframe, -⟩
          simp_all [current]

theorem knownFrames_eq_self {frames : List Frame} (h : frames.head? ≠ some .unknown) :
    knownFrames frames = frames := by
  cases frames with
  | nil => rfl
  | cons frame outer => cases frame <;> simp_all [knownFrames]

theorem Grounded.isKnown_knownFrames {frames : List Frame} (h : Grounded frames) :
    ∀ frame ∈ knownFrames frames, frame.isKnown := by
  induction frames with
  | nil => simp [knownFrames]
  | cons frame outer ih =>
      cases frame with
      | unknown => exact ih h
      | known element localized =>
          obtain ⟨htop, houter, -⟩ := h
          rw [knownFrames_eq_self htop] at ih
          simpa [knownFrames, isKnown] using ih houter

theorem length_knownFrames_le (frames : List Frame) :
    (knownFrames frames).length ≤ frames.length := by
  induction frames with
  | nil => exact Nat.le_refl _
  | cons frame outer ih =>
      cases frame with
      | known element localized => exact Nat.le_refl _
      | unknown => exact Nat.le_succ_of_le ih

theorem eq_replicate_append_knownFrames (frames : List Frame) :
    frames =
      List.replicate (frames.length - (knownFrames frames).length) .unknown ++
        knownFrames frames := by
  induction frames with
  | nil => rfl
  | cons frame outer ih =>
      cases frame with
      | known element localized => simp [knownFrames]
      | unknown =>
          have hle := length_knownFrames_le outer
          rw [knownFrames, List.length_cons, Nat.succ_sub hle, List.replicate_succ,
            List.cons_append, ← ih]

theorem length_knownFrames_lt {frames : List Frame} (h : frames.head? = some .unknown) :
    (knownFrames frames).length < frames.length := by
  cases frames with
  | nil => simp at h
  | cons frame outer =>
      obtain rfl : frame = .unknown := by simpa using h
      exact Nat.lt_succ_of_le (length_knownFrames_le outer)

end Frame

namespace Context

open Metainfo.Frame

/-- The counters tell what the stack tells. -/
structure Follows (context : Context) (frames : List Frame) : Prop where
  grounded : Grounded frames
  depth : context.depth = frames.length
  knownDepth : context.knownDepth = (knownFrames frames).length
  element : context.element = current frames
  skipDepth : context.skipDepth = outermostLocalized frames
  record : context.record.isSome ↔ OpenApplication frames

variable {settings : IngestSettings} {context : Context} {frames : List Frame}

theorem follows_initial (pool : Pool) : (initial pool).Follows [] where
  grounded := trivial
  depth := rfl
  knownDepth := rfl
  element := rfl
  skipDepth := rfl
  record := by simp [initial, OpenApplication]

namespace Follows

theorem depth_eq_iff (h : context.Follows frames) :
    context.depth = context.knownDepth ↔ frames.head? ≠ some .unknown := by
  rw [h.depth, h.knownDepth]
  constructor
  · intro heq hunknown
    have := length_knownFrames_lt hunknown
    omega
  · intro hknown
    rw [knownFrames_eq_self hknown]

theorem start_of_unknown (h : context.Follows frames) {name : String} {attributes : Attributes}
    (hopened : opened frames name attributes = .unknown) :
    context.start name attributes = context.deepened := by
  by_cases htop : frames.head? = some .unknown
  · exact start_deeper (mt h.depth_eq_iff.mp (not_not.mpr htop))
  · apply start_unknown
    rw [h.element]
    rw [opened, if_neg htop] at hopened
    split at hopened
    · assumption
    · contradiction

theorem transition_of_known (h : context.Follows frames) {name : String}
    {attributes : Attributes} {element : Element} {localized : Bool}
    (hopened : opened frames name attributes = .known element localized) :
    context.depth = context.knownDepth ∧
      (attributes.get? languageAttribute).isSome = localized ∧
        ∃ transition, context.element.transition? name = some transition ∧
          transition.target = element := by
  rw [opened] at hopened
  split at hopened
  · contradiction
  · rename_i htop
    split at hopened
    · contradiction
    · rename_i transition htransition
      obtain ⟨helement, hlocalized⟩ := Frame.known.inj hopened
      rw [← h.element] at htransition
      exact ⟨h.depth_eq_iff.mpr htop, hlocalized, transition, htransition, helement⟩

/-- An unknown element deepens the context and does nothing else. -/
theorem deepened (h : context.Follows frames) :
    context.deepened.Follows (.unknown :: frames) where
  grounded := h.grounded
  depth := congrArg (· + 1) h.depth
  knownDepth := h.knownDepth
  element := h.element
  skipDepth := by
    rw [outermostLocalized_cons]
    simpa [isLocalized, Context.deepened] using h.skipDepth
  record := by
    rw [openApplication_cons]
    simpa [Context.deepened] using h.record

/-- An element that is left out becomes the current one and has no record of its own. -/
theorem inside_skipped (h : context.Follows frames) {transition : Transition} {localized : Bool}
    {skipped : Nat} (hgrounded : Grounded (.known transition.target localized :: frames))
    (hskip : outermostLocalized (.known transition.target localized :: frames) =
      some skipped) :
    (context.inside transition (some skipped)).Follows
      (.known transition.target localized :: frames) where
  grounded := hgrounded
  depth := congrArg (· + 1) h.depth
  knownDepth := congrArg (· + 1) h.depth
  element := rfl
  skipDepth := hskip.symm
  record := by
    rw [openApplication_cons]
    change context.record.isSome ↔ _
    rw [h.record]
    constructor
    · exact Or.inl
    · rintro (hopen | ⟨hframe, hnone⟩)
      · exact hopen
      · rw [outermostLocalized_cons, hnone, hframe] at hskip
        simp [isLocalized] at hskip

theorem start (h : context.Follows frames) (name : String) (attributes : Attributes) :
    (context.start name attributes).Follows (opened frames name attributes :: frames) := by
  cases hopened : opened frames name attributes with
  | unknown =>
      rw [h.start_of_unknown hopened]
      exact h.deepened
  | known element localized =>
      obtain ⟨hdepth, hlocalized, transition, htransition, rfl⟩ :=
        h.transition_of_known hopened
      have hgrounded : Grounded (.known transition.target localized :: frames) := by
        refine ⟨h.depth_eq_iff.mp hdepth, h.grounded, name, transition, ?_, rfl⟩
        rw [← h.element]
        exact htransition
      have hcons := outermostLocalized_cons (.known transition.target localized) frames
      rw [← h.skipDepth] at hcons
      cases hskip : context.skipDepth with
      | some skipped =>
          rw [start_skipped hdepth htransition hskip]
          rw [hskip, Option.some_or] at hcons
          exact h.inside_skipped hgrounded hcons
      | none =>
          rw [hskip, Option.none_or, isLocalized] at hcons
          cases localized with
          | true =>
              rw [start_localized hdepth htransition hskip hlocalized]
              rw [if_pos rfl, ← h.depth] at hcons
              exact h.inside_skipped hgrounded hcons
          | false =>
              rw [start_known hdepth htransition hskip hlocalized]
              exact
                { grounded := hgrounded
                  depth := by simp [inside, h.depth]
                  knownDepth := by simp [inside, h.depth, knownFrames]
                  element := by simp [inside, current]
                  skipDepth := by simp [inside, hcons]
                  record := by
                    rw [isSome_record_enter, openApplication_cons, ← h.record, ← h.skipDepth]
                    simp [inside, hskip, or_comm] }

theorem parent {element : Element} {localized : Bool} {outer : List Frame}
    (h : context.Follows (.known element localized :: outer)) :
    vocabularyTable.parent context.element = current outer := by
  obtain ⟨-, -, name, transition, htransition, rfl⟩ := h.grounded
  rw [h.element]
  exact Element.parent_target htransition

/-- An application that closes is the only open one. -/
theorem isSome_record_leave {element : Element} {outer : List Frame}
    (h : context.Follows (.known element false :: outer)) :
    (context.shallower.leave settings).record.isSome ↔ OpenApplication outer := by
  have helement : context.shallower.element = element := h.element
  have hrecord : context.shallower.record.isSome ↔
      OpenApplication (.known element false :: outer) := h.record
  rw [Context.isSome_record_leave, helement, hrecord, openApplication_cons]
  by_cases happlication : element = .application
  · obtain ⟨-, hgrounded, name, transition, htransition, rfl⟩ := h.grounded
    have hstart := Element.source_of_target_start htransition (Or.inr happlication)
    simp [happlication, hgrounded.not_openApplication hstart]
  · simp [happlication]

/-- An element that was left out gives the place back to the one around it. -/
theorem outside_skipped {element : Element} {localized : Bool} {outer : List Frame}
    {skipDepth : Option Nat} (h : context.Follows (.known element localized :: outer))
    (hskipped : context.skipDepth ≠ none) (hskip : outermostLocalized outer = skipDepth) :
    (context.outside skipDepth).Follows outer where
  grounded := h.grounded.2.1
  depth := by simp [outside, h.depth]
  knownDepth := by
    rw [knownFrames_eq_self h.grounded.1]
    simp [outside, h.knownDepth, knownFrames]
  element := h.parent
  skipDepth := hskip.symm
  record := by
    change context.record.isSome ↔ _
    rw [h.record, openApplication_cons]
    constructor
    · rintro (hopen | ⟨hframe, hnone⟩)
      · exact hopen
      · rw [h.skipDepth, outermostLocalized_cons, hnone, hframe] at hskipped
        simp [isLocalized] at hskipped
    · exact Or.inl

theorem stop {frame : Frame} {outer : List Frame} (h : context.Follows (frame :: outer))
    (settings : IngestSettings) :
    (context.stop settings).Follows outer := by
  cases frame with
  | unknown =>
      rw [stop_deeper (mt h.depth_eq_iff.mp (not_not.mpr rfl))]
      exact
        { grounded := h.grounded
          depth := by simp [h.depth]
          knownDepth := h.knownDepth
          element := h.element
          skipDepth := by
            rw [h.skipDepth, outermostLocalized_cons]
            simp [isLocalized]
          record := by
            rw [h.record, openApplication_cons]
            simp }
  | known element localized =>
      have hdepth := h.depth_eq_iff.mpr (by simp)
      have hcons := outermostLocalized_cons (.known element localized) outer
      rw [← h.skipDepth] at hcons
      cases houter : outermostLocalized outer with
      | some skipped =>
          rw [houter, Option.some_or] at hcons
          have hlength := le_length_of_outermostLocalized houter
          rw [stop_skipped hdepth hcons (by rw [h.depth, List.length_cons]; omega)]
          exact h.outside_skipped (by simp [hcons]) houter
      | none =>
          rw [houter, Option.none_or, isLocalized] at hcons
          cases localized with
          | true =>
              rw [if_pos rfl, ← List.length_cons, ← h.depth] at hcons
              rw [stop_localized hdepth hcons]
              exact h.outside_skipped (by simp [hcons]) houter
          | false =>
              rw [stop_known hdepth hcons]
              exact
                { grounded := h.grounded.2.1
                  depth := by simp [shallower, h.depth]
                  knownDepth := by
                    rw [knownFrames_eq_self h.grounded.1]
                    simp [shallower, h.knownDepth, knownFrames]
                  element := h.parent
                  skipDepth := by simp [shallower, hcons, houter]
                  record := h.isSome_record_leave }

theorem text (h : context.Follows frames) (content : String) :
    (context.text content).Follows frames := by
  rw [Context.text]
  split
  · exact ⟨h.grounded, h.depth, h.knownDepth, h.element, h.skipDepth, h.record⟩
  · exact h

theorem step (h : context.Follows frames) (settings : IngestSettings) {event : Event}
    (hstop : ∀ name, event = .stop name → frames ≠ []) :
    (context.step settings event).Follows (follow frames event) := by
  cases event with
  | start name attributes => exact h.start name attributes
  | text content => exact h.text content
  | stop name =>
      cases frames with
      | nil => exact absurd rfl (hstop name rfl)
      | cons frame outer => exact h.stop settings

theorem run (h : context.Follows frames) (settings : IngestSettings) {names later : List String}
    {events : List Event}
    (hlength : frames.length = names.length) (hevents : openNames names events = some later) :
    (context.run settings events).Follows (followAll frames events) ∧
      (followAll frames events).length = later.length := by
  induction events generalizing context frames names with
  | nil =>
      obtain rfl := Option.some.inj hevents
      exact ⟨h, hlength⟩
  | cons event events ih =>
      rw [openNames_cons] at hevents
      obtain ⟨middle, hmiddle, hevents⟩ := Option.bind_eq_some_iff.mp hevents
      refine ih (h.step settings ?_) ?_ hevents
      · rintro name rfl rfl
        rw [nest_stop_eq_some.mp hmiddle] at hlength
        simp at hlength
      · cases event with
        | start name attributes =>
            obtain rfl := Option.some.inj hmiddle
            simpa [follow] using hlength
        | text content =>
            obtain rfl := Option.some.inj hmiddle
            exact hlength
        | stop name =>
            rw [nest_stop_eq_some.mp hmiddle] at hlength
            simp [follow, hlength]

end Follows

theorem follows_run (settings : IngestSettings) (pool : Pool) {events : List Event}
    (h : IsScript events) :
    ((initial pool).run settings events).Follows (followAll [] events) := by
  obtain ⟨names, hnames⟩ := isScript_iff.mp h
  exact ((follows_initial pool).run settings rfl hnames).1

/-- What an element and its content do to the stack is undone when it closes. -/
theorem followAll_fragment (frames : List Frame) (fragment : Fragment) :
    followAll frames fragment.events = frames := by
  induction fragment generalizing frames with
  | empty => rfl
  | text content rest ih => exact ih frames
  | element name attributes children rest ihChildren ihRest =>
      change followAll (opened frames name attributes :: frames)
        (children.events ++ .stop name :: rest.events) = frames
      rw [followAll, List.foldl_append]
      change followAll (followAll _ children.events).tail rest.events = frames
      rw [ihChildren, List.tail_cons, ihRest]

theorem Follows.same_place {first second : Context} (hfirst : first.Follows frames)
    (hsecond : second.Follows frames) :
    first.element = second.element ∧ first.depth = second.depth ∧
      first.knownDepth = second.knownDepth ∧ first.skipDepth = second.skipDepth :=
  ⟨hfirst.element.trans hsecond.element.symm, hfirst.depth.trans hsecond.depth.symm,
    hfirst.knownDepth.trans hsecond.knownDepth.symm,
    hfirst.skipDepth.trans hsecond.skipDepth.symm⟩

/-- The counters agree with the stack after every event of a properly nested document, and an
element that closes leaves the context at the place where it opened. -/
theorem run_eq_stack (settings : IngestSettings) (pool : Pool) (events : List Event)
    (h : IsScript events) :
    let context := (initial pool).run settings events
    let frames := followAll [] events
    context.depth = frames.length ∧
      context.knownDepth ≤ context.depth ∧
      (∃ known,
        frames = List.replicate (context.depth - context.knownDepth) .unknown ++ known ∧
          known.length = context.knownDepth ∧ ∀ frame ∈ known, frame.isKnown) ∧
      context.element = current frames ∧
      context.skipDepth = outermostLocalized frames ∧
      (context.record.isSome ↔ OpenApplication frames) ∧
      ∀ before name attributes (children : Fragment),
        events = before ++ .start name attributes :: (children.events ++ [.stop name]) →
          let earlier := (initial pool).run settings before
          context.element = earlier.element ∧ context.depth = earlier.depth ∧
            context.knownDepth = earlier.knownDepth ∧
              context.skipDepth = earlier.skipDepth := by
  intro context frames
  have hfollows : context.Follows frames := follows_run settings pool h
  refine ⟨hfollows.depth, ?_, ⟨knownFrames frames, ?_, hfollows.knownDepth.symm,
    hfollows.grounded.isKnown_knownFrames⟩, hfollows.element, hfollows.skipDepth,
    hfollows.record, ?_⟩
  · rw [hfollows.depth, hfollows.knownDepth]
    exact length_knownFrames_le frames
  · rw [hfollows.depth, hfollows.knownDepth]
    exact eq_replicate_append_knownFrames frames
  · intro before name attributes children hevents earlier
    have hearlier : earlier.Follows (followAll [] before) :=
      follows_run settings pool (hevents ▸ h : IsScript (before ++ _)).of_append
    have hframes : frames = followAll [] before := by
      let whole : Fragment := .element name attributes children .empty
      have hwhole : events = before ++ whole.events := by simpa [whole, Fragment.events]
      change followAll [] events = _
      rw [hwhole, followAll, List.foldl_append]
      exact followAll_fragment _ whole
    rw [hframes] at hfollows
    exact hfollows.same_place hearlier

theorem run_eq_stack_unclosed :
    let events : List Event :=
      [.start "components" .empty, .start "component" .empty, .start "custom" .empty,
        .start "name" .empty, .stop "name", .stop "custom",
        .start "name" ⟨[("xml:lang", "de")]⟩, .start "em" .empty, .text "Uhr"]
    let context := (initial .empty).run (.ofFlags .none) events
    IsScript events ∧ context.depth = 4 ∧ context.element = .name ∧
      context.skipDepth = some 3 ∧ context.record.isSome := by
  intro events context
  have hscript : IsScript events := isScript_iff.mpr ⟨_, rfl⟩
  obtain ⟨hdepth, -, -, helement, hskip, hrecord, -⟩ :=
    run_eq_stack (.ofFlags .none) .empty events hscript
  have hframes : followAll [] events =
      [.unknown, .known .name true, .known .application false, .known .start false] := by
    decide
  simp only [hframes] at hdepth helement hskip hrecord
  refine ⟨hscript, hdepth, helement, hskip, hrecord.mpr ?_⟩
  exact ⟨[.unknown, .known .name true], [.known .start false], rfl, by simp [isLocalized]⟩

end Context

end Metainfo
