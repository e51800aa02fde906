import Metainfo.Ingest.Basic
import Metainfo.Proofs.Ingest.Evaluation

/-!
Elements that make no difference. An element for one language only counts as absent, wherever it
stands. An element that means nothing counts for its text where text counts, else for nothing.
-/

namespace Metainfo

open Metainfo.Markup
open Metainfo.Utf8

/-- What an ingest comes to when its document ends in a context. -/
def Context.outcome (settings : IngestSettings) (context : Context) (failure : Option Failure) :
    Ingested :=
  let context := if failure.isSome then context.abort else context
  { result :=
      match failure with
      | none => .ok context.completed
      | some failure => .error failure
    pool := if settings.flags.deferWrites then context.pool else context.pool.internalize
    queries := context.queries }

theorem ingestReading_eq_outcome (settings : IngestSettings) (pool : Pool) (events : List Event)
    (failure : Option Failure) :
    ingestReading settings pool ⟨events, failure⟩ =
      ((Context.initial pool).run settings events).outcome settings failure :=
  rfl

namespace Context

open Metainfo.Frame

variable {settings : IngestSettings} {context first second : Context} {frames : List Frame}
  {name : String} {attributes : Attributes} {transition : Transition}

/-- However an element that means something opens, it empties the buffer. -/
theorem exists_start_eq (hdepth : context.depth = context.knownDepth)
    (htransition : context.element.transition? name = some transition)
    (attributes : Attributes) :
    ∃ skipDepth pool description record findings,
      context.start name attributes =
        { context.inside transition skipDepth with pool, description, record, findings } := by
  cases hskip : context.skipDepth with
  | some skipped =>
      exact ⟨some skipped, context.pool, context.description, context.record, context.findings,
        start_skipped hdepth htransition hskip⟩
  | none =>
      cases hlocalized : (attributes.get? languageAttribute).isSome with
      | true =>
          exact ⟨some (context.depth + 1), context.pool, context.description, context.record,
            context.findings, start_localized hdepth htransition hskip hlocalized⟩
      | false =>
          obtain ⟨pool, description, record, findings, henter⟩ :=
            (context.inside transition none).enter_eq attributes
          exact ⟨none, pool, description, record, findings,
            (start_known hdepth htransition hskip hlocalized).trans henter⟩

/-- Text is taken only while the current element is one whose text counts, and then into a buffer
that was emptied for it. -/
def Ready (context : Context) : Prop :=
  context.captures → context.element.gathers ∧ ∃ data, context.content = .ofContent data

theorem Ready.start (h : context.Ready) (name : String) (attributes : Attributes) :
    (context.start name attributes).Ready := by
  by_cases hdepth : context.depth = context.knownDepth
  · cases htransition : context.element.transition? name with
    | none =>
        rw [start_unknown htransition]
        exact h
    | some transition =>
        obtain ⟨skipDepth, pool, description, record, findings, hstart⟩ :=
          exists_start_eq hdepth htransition attributes
        rw [hstart]
        intro hcaptures
        refine ⟨?_, [], rfl⟩
        change transition.target.gathers
        rw [Element.gathers_target htransition]
        exact (Bool.and_eq_true_iff.mp hcaptures).1
  · rw [start_deeper hdepth]
    exact h

theorem captures_stop (hdepth : context.depth = context.knownDepth) :
    (context.stop settings).captures = false := by
  rw [stop, if_neg (not_not.mpr hdepth)]

theorem Ready.stop (h : context.Ready) : (context.stop settings).Ready := by
  by_cases hdepth : context.depth = context.knownDepth
  · intro hcaptures
    rw [captures_stop hdepth] at hcaptures
    contradiction
  · rw [stop_deeper hdepth]
    exact h

theorem Ready.text (h : context.Ready) (content : String) : (context.text content).Ready := by
  rw [Context.text]
  split
  · intro hcaptures
    obtain ⟨hgathers, data, hdata⟩ := h hcaptures
    refine ⟨hgathers, data ++ encode content, ?_⟩
    simp only [hdata, ContentBuffer.ofContent, ContentBuffer.append_append]
  · exact h

theorem Ready.run (h : context.Ready) (settings : IngestSettings) (events : List Event) :
    (context.run settings events).Ready := by
  induction events generalizing context with
  | nil => exact h
  | cons event events ih =>
      cases event with
      | start name attributes => exact ih (h.start name attributes)
      | stop name => exact ih h.stop
      | text content => exact ih (h.text content)

theorem ready_run (settings : IngestSettings) (pool : Pool) (events : List Event) :
    ((initial pool).run settings events).Ready :=
  Ready.run (by simp [Ready, initial]) settings events

theorem Ready.captures_eq_false (h : context.Ready) (hgathers : context.element.gathers = false) :
    context.captures = false := by
  cases hcaptures : context.captures with
  | false => rfl
  | true =>
      rw [(h hcaptures).1] at hgathers
      contradiction

/-- The contexts differ at most in what the buffer holds while no text counts. -/
def Alike (first second : Context) : Prop :=
  ∃ content, second = { first with content } ∧
    (first.element.gathers → content = first.content)

namespace Alike

theorem refl (context : Context) : context.Alike context :=
  ⟨context.content, rfl, fun _ => rfl⟩

theorem eq_of_gathers (h : first.Alike second) (hgathers : first.element.gathers) :
    second = first := by
  obtain ⟨content, rfl, hcontent⟩ := h
  rw [hcontent hgathers]

theorem start (h : first.Alike second) (name : String) (attributes : Attributes) :
    (first.start name attributes).Alike (second.start name attributes) := by
  obtain ⟨content, rfl, hcontent⟩ := h
  by_cases hdepth : first.depth = first.knownDepth
  · cases htransition : first.element.transition? name with
    | none =>
        rw [start_unknown htransition, start_unknown (by exact htransition)]
        exact ⟨content, rfl, hcontent⟩
    | some transition =>
        -- The buffer is emptied, whatever it held.
        have hsame : { first with content }.start name attributes =
            first.start name attributes := by
          simp [Context.start, hdepth, Element.lookup_vocabulary, htransition,
            ContentBuffer.clear]
        rw [hsame]
        exact .refl _
  · rw [start_deeper hdepth, start_deeper (by exact hdepth)]
    exact ⟨content, rfl, hcontent⟩

theorem text (h : first.Alike second) (piece : String) :
    (first.text piece).Alike (second.text piece) := by
  obtain ⟨content, rfl, hcontent⟩ := h
  rw [Context.text, Context.text]
  split
  · exact ⟨content.append (encode piece), rfl, fun hgathers => by rw [hcontent hgathers]⟩
  · exact ⟨content, rfl, hcontent⟩

end Alike

/-- Where no text counts, what the buffer holds does not matter for what closing does. -/
theorem leave_with_content (settings : IngestSettings)
    (hgathers : context.element.gathers = false) (content : ContentBuffer) :
    { context with content }.leave settings = { context.leave settings with content } := by
  obtain ⟨pool, depth, knownDepth, element, skipDepth, captures, held, description, record,
    findings, completed, queries⟩ := context
  cases record with
  | none => rfl
  | some record =>
      cases element <;> try contradiction
      case description =>
        simp only [leave, leaveIn]
        rcases description.finish with ⟨_ | text, description⟩ <;> rfl
      all_goals rfl

theorem stop_with_content (settings : IngestSettings)
    (hgathers : context.element.gathers = false) (hdepth : context.depth = context.knownDepth)
    (content : ContentBuffer) :
    { context with content }.stop settings = { context.stop settings with content } := by
  have hclose (skipDepth : Option Nat) := congrArg
    (fun left : Context =>
      { left with element := vocabularyTable.parent left.element, captures := false })
    (@leave_with_content { context.shallower with skipDepth } settings hgathers content)
  rw [stop, stop, if_neg (not_not.mpr hdepth), if_neg (not_not.mpr (by exact hdepth))]
  cases hskip : context.skipDepth with
  | none =>
      have hnone := hclose context.skipDepth
      rw [hskip] at hnone
      exact hnone
  | some skipped =>
      dsimp only
      split
      · rfl
      · split
        · rfl
        · exact hclose none

/-- After an element that means something, text does not count until the next one opens. -/
theorem gathers_stop (hdepth : context.depth = context.knownDepth) :
    (context.stop settings).element.gathers = false := by
  rw [Context.stop, if_neg (not_not.mpr hdepth)]
  exact Element.gathers_parent _

namespace Alike

theorem stop (h : first.Alike second) (settings : IngestSettings) :
    (first.stop settings).Alike (second.stop settings) := by
  cases hgathers : first.element.gathers with
  | true =>
      rw [h.eq_of_gathers hgathers]
      exact .refl _
  | false =>
      obtain ⟨content, rfl, hcontent⟩ := h
      by_cases hdepth : first.depth = first.knownDepth
      · rw [stop_with_content settings hgathers hdepth content]
        refine ⟨content, rfl, fun houter => ?_⟩
        simp [gathers_stop hdepth] at houter
      · rw [stop_deeper hdepth, stop_deeper (by exact hdepth)]
        exact ⟨content, rfl, hcontent⟩

theorem run (h : first.Alike second) (settings : IngestSettings) (events : List Event) :
    (first.run settings events).Alike (second.run settings events) := by
  induction events generalizing first second with
  | nil => exact h
  | cons event events ih =>
      cases event with
      | start name attributes => exact ih (h.start name attributes)
      | stop name => exact ih (h.stop settings)
      | text content => exact ih (h.text content)

theorem outcome_eq (h : first.Alike second) (settings : IngestSettings)
    (failure : Option Failure) :
    first.outcome settings failure = second.outcome settings failure := by
  obtain ⟨content, rfl, -⟩ := h
  cases failure with
  | none => rfl
  | some failure =>
      simp only [outcome, Option.isSome_some, if_true, abort]
      cases first.record <;> rfl

end Alike

/-- An element that is left out, or stands in one that is, leaves nothing but an empty buffer. -/
theorem Follows.run_localized (h : context.Follows frames) (settings : IngestSettings)
    (hdepth : context.depth = context.knownDepth)
    (htransition : context.element.transition? name = some transition)
    (hlocalized : (attributes.get? languageAttribute).isSome) (children : Fragment) :
    context.run settings (Fragment.element name attributes children .empty).events =
      { context with captures := false, content := .empty } := by
  rcases Option.eq_none_or_eq_some context.skipDepth with hskip | ⟨skipped, hskip⟩
  · rw [Context.run_localized hdepth htransition hskip hlocalized]
    exact run_nil
  · have hle : skipped ≤ context.depth := by
      rw [h.depth]
      exact le_length_of_outermostLocalized (h.skipDepth.symm.trans hskip)
    have hchildren := run_skipped settings (context.inside transition (some skipped)) rfl
      (Nat.le_succ_of_le hle) (Nat.le_refl _) (by simp [inside]) rfl children
    rw [run_around_skipped hdepth htransition hskip hle hchildren]
    exact run_nil

/-- An element that means nothing comes to the text in it, wherever it stands. -/
theorem Follows.run_unknown (h : context.Follows frames) (settings : IngestSettings)
    (hunknown : context.depth ≠ context.knownDepth ∨ context.element.transition? name = none)
    (children : Fragment) :
    context.run settings (Fragment.element name attributes children .empty).events =
      context.gather children.texts := by
  by_cases hdepth : context.depth = context.knownDepth
  · rw [Context.run_unknown hdepth (hunknown.resolve_left (not_not.mpr hdepth))]
    rfl
  · have hle : context.knownDepth ≤ context.depth := by
      rw [h.depth, h.knownDepth]
      exact length_knownFrames_le frames
    have hblind : context.Blind := Or.inl (Nat.lt_of_le_of_ne hle (Ne.symm hdepth))
    rw [hblind.run, Fragment.texts, Fragment.texts, List.append_nil]

theorem gather_of_not_captures (h : context.captures = false) (texts : List String) :
    context.gather texts = context := by
  rw [gather, if_neg (by simp [h])]

/-- Pieces of text come to the same as their concatenation. -/
theorem Ready.gather_eq_text (h : context.Ready) (texts : List String) :
    context.gather texts = context.text (String.join texts) := by
  by_cases hcaptures : context.captures
  · obtain ⟨-, data, hdata⟩ := h hcaptures
    have hcontent := content_gather hcaptures hdata texts
    have htext : context.content.append (encode (String.join texts)) =
        .ofContent (data ++ encode (String.join texts)) := by
      rw [hdata, ContentBuffer.ofContent, ContentBuffer.append_append]
      rfl
    simp only [gather, hcaptures, if_true] at hcontent
    simp only [gather, Context.text, hcaptures, if_true, hcontent, htext]
  · rw [gather_of_not_captures (by simpa using hcaptures), Context.text, if_neg hcaptures]

theorem Ready.text_empty (h : context.Ready) : context.text "" = context := by
  rw [← String.join_nil, ← h.gather_eq_text, gather_nil]

end Context

/-- Taking an element out of a properly nested document leaves one. -/
theorem isScript_without {before after : List Event} (element : Fragment)
    (h : IsScript (before ++ (element.events ++ after))) : IsScript (before ++ after) := by
  rw [isScript_iff] at h ⊢
  simpa using h

theorem isScript_replaced {before after : List Event} (element : Fragment) (text : String)
    (h : IsScript (before ++ (element.events ++ after))) :
    IsScript (before ++ .text text :: after) := by
  rw [isScript_iff] at h ⊢
  simpa [nest] using h

/-- A meaningful element that is for one language only makes no difference: without it and all that
is in it the ingest comes to the same, whether or not the document is read to its end. -/
theorem ingestReading_without_localized (settings : IngestSettings) (pool : Pool)
    (before after : List Event) (name : String) (attributes : Attributes) (children : Fragment)
    (failure : Option Failure)
    (hscript : IsScript
      (before ++ ((Fragment.element name attributes children .empty).events ++ after)))
    (hdepth : ((Context.initial pool).run settings before).depth =
      ((Context.initial pool).run settings before).knownDepth)
    (hmeaning : (vocabularyTable.lookup ((Context.initial pool).run settings before).element
      name).isSome)
    (hlocalized : (attributes.get? Context.languageAttribute).isSome) :
    IsScript (before ++ after) ∧
      ingestReading settings pool ⟨before ++
          ((Fragment.element name attributes children .empty).events ++ after), failure⟩ =
        ingestReading settings pool ⟨before ++ after, failure⟩ := by
  refine ⟨isScript_without _ hscript, ?_⟩
  let context := (Context.initial pool).run settings before
  have hfollows : context.Follows _ := Context.follows_run settings pool hscript.of_append
  obtain ⟨transition, htransition⟩ := Option.isSome_iff_exists.mp hmeaning
  rw [Element.lookup_vocabulary] at htransition
  have helement := hfollows.run_localized settings hdepth htransition hlocalized children
  -- Where something means something, text does not count, so that the buffer does not matter.
  have hgathers : context.element.gathers = false := Element.gathers_eq_false htransition
  have hready : context.Ready := Context.ready_run settings pool before
  have hcaptures := hready.captures_eq_false hgathers
  have halike : context.Alike { context with captures := false, content := .empty } :=
    ⟨.empty, by rw [← hcaptures], by simp [hgathers]⟩
  have hafter := halike.run settings after
  rw [← helement] at hafter
  have houtcome := hafter.outcome_eq settings failure
  rw [ingestReading_eq_outcome, ingestReading_eq_outcome, Context.run_append, Context.run_append,
    Context.run_append]
  exact houtcome.symm

theorem ingestReading_without_localized_item :
    let before : List Event :=
      [.start "component" .empty, .start "description" .empty, .start "ol" .empty,
        .start "li" .empty, .text "One", .stop "li"]
    let item : Fragment :=
      .element "li" ⟨[("xml:lang", "de")]⟩
        (.text "Zwei" (.element "ol" ⟨[("xml:lang", "de")]⟩ .empty .empty)) .empty
    let after : List Event :=
      [.start "li" .empty, .text "Two", .stop "li", .stop "ol", .stop "description",
        .stop "component"]
    let settings := IngestSettings.ofFlags .none
    IsScript (before ++ (item.events ++ after)) ∧
      ingestReading settings .empty ⟨before ++ (item.events ++ after), none⟩ =
        ingestReading settings .empty ⟨before ++ after, none⟩ := by
  intro before item after settings
  have hscript : IsScript (before ++ (item.events ++ after)) := isScript_iff.mpr ⟨_, rfl⟩
  have hfollows := Context.follows_run settings .empty hscript.of_append
  have hframes : Frame.followAll [] before =
      [.known .orderedList false, .known .description false, .known .application false] := by
    decide
  rw [hframes] at hfollows
  have hmeaning : (vocabularyTable.lookup
      ((Context.initial .empty).run settings before).element "li").isSome := by
    rw [hfollows.element, Element.lookup_vocabulary]
    decide
  exact ⟨hscript, (ingestReading_without_localized settings .empty before after "li" _ _ none
    hscript (hfollows.depth_eq_iff.mpr (by simp)) hmeaning rfl).2⟩

/-- An element that means nothing where it stands makes no difference but for the text in it. Where
text counts, that text may stand in its place; elsewhere, or without text, it may go altogether. -/
theorem ingestReading_unknown (settings : IngestSettings) (pool : Pool)
    (before after : List Event) (name : String) (attributes : Attributes) (children : Fragment)
    (failure : Option Failure)
    (hscript : IsScript
      (before ++ ((Fragment.element name attributes children .empty).events ++ after)))
    (hunknown : ((Context.initial pool).run settings before).depth ≠
        ((Context.initial pool).run settings before).knownDepth ∨
      vocabularyTable.lookup ((Context.initial pool).run settings before).element name = none) :
    let context := (Context.initial pool).run settings before
    let whole := ingestReading settings pool ⟨before ++
      ((Fragment.element name attributes children .empty).events ++ after), failure⟩
    (context.element.gathers →
        IsScript (before ++ .text (String.join children.texts) :: after) ∧
          whole = ingestReading settings pool
            ⟨before ++ .text (String.join children.texts) :: after, failure⟩) ∧
      (context.element.gathers = false ∨ context.captures = false ∨
          String.join children.texts = "" →
        IsScript (before ++ after) ∧
          whole = ingestReading settings pool ⟨before ++ after, failure⟩) := by
  intro context whole
  have hfollows : context.Follows _ := Context.follows_run settings pool hscript.of_append
  have hready : context.Ready := Context.ready_run settings pool before
  rw [Element.lookup_vocabulary] at hunknown
  have hwhole : whole =
      ((context.gather children.texts).run settings after).outcome settings failure := by
    rw [← hfollows.run_unknown settings hunknown children]
    change ((Context.initial pool).run settings _).outcome settings failure = _
    rw [Context.run_append, Context.run_append]
  refine ⟨fun _ => ⟨isScript_replaced _ _ hscript, ?_⟩,
    fun hno => ⟨isScript_without _ hscript, ?_⟩⟩
  · rw [hwhole, hready.gather_eq_text, ingestReading_eq_outcome, Context.run_append]
    rfl
  · have hnothing : context.gather children.texts = context := by
      rcases hno with hgathers | hcaptures | hempty
      · exact Context.gather_of_not_captures (hready.captures_eq_false hgathers) _
      · exact Context.gather_of_not_captures hcaptures _
      · rw [hready.gather_eq_text, hempty, hready.text_empty]
    rw [hwhole, hnothing, ingestReading_eq_outcome, Context.run_append]

theorem ingestReading_unknown_emphasis :
    let before : List Event :=
      [.start "component" .empty, .start "summary" .empty, .text "Does "]
    let emphasis : Fragment :=
      .element "em" ⟨[("xml:lang", "de")]⟩
        (.text "lots" (.element "name" .empty (.text " more" .empty) .empty)) .empty
    let after : List Event := [.text " of foo", .stop "summary", .stop "component"]
    let settings := IngestSettings.ofFlags .none
    IsScript (before ++ (emphasis.events ++ after)) ∧
      ingestReading settings .empty ⟨before ++ (emphasis.events ++ after), none⟩ =
        ingestReading settings .empty ⟨before ++ .text "lots more" :: after, none⟩ := by
  intro before emphasis after settings
  have hscript : IsScript (before ++ (emphasis.events ++ after)) := isScript_iff.mpr ⟨_, rfl⟩
  have hfollows := Context.follows_run settings .empty hscript.of_append
  have hframes : Frame.followAll [] before =
      [.known .summary false, .known .application false] := by decide
  rw [hframes] at hfollows
  have hunknown : vocabularyTable.lookup
      ((Context.initial .empty).run settings before).element "em" = none := by
    rw [hfollows.element, Element.lookup_vocabulary]
    decide
  have hgathers : ((Context.initial .empty).run settings before).element.gathers := by
    rw [hfollows.element]
    decide
  exact ⟨hscript, ((ingestReading_unknown settings .empty before after "em" _ _ none hscript
    (Or.inr hunknown)).1 hgathers).2⟩

end Metainfo
