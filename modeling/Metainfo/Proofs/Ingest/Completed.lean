import Mathlib.Data.List.Induction
import Metainfo.Proofs.Ingest.Rollback

/-!
Where completed records come from and what becomes of them. Each is the record of one closed
element, and neither the rest of the document nor its end changes what the pool shows of it.
-/

namespace Metainfo

open Metainfo.Markup

namespace Context

open Metainfo.Frame

variable {settings : IngestSettings} {context next : Context} {frames : List Frame}
  {record : RecordId}

/-- Only the end of an element completes a record, and the element is its application. -/
theorem Follows.closes_of_completed {frame : Frame} {outer : List Frame}
    (h : context.Follows (frame :: outer)) (settings : IngestSettings)
    (hold : record ∉ context.completed) (hnew : record ∈ (context.stop settings).completed) :
    context.record = some record ∧ frame = .known .application false ∧
      outermostLocalized outer = none ∧ ¬ OpenApplication outer := by
  cases h.advance_stop settings (List.cons_ne_nil frame outer) with
  | idle hpool hnext hcompleted hqueries => exact absurd (hcompleted ▸ hnew) hold
  | opened id hid hrecord hpool hnext hcompleted hqueries =>
      exact absurd (hcompleted ▸ hnew) hold
  | edited id hrecord hpool hnext hcompleted hqueries =>
      exact absurd (hcompleted ▸ hnew) hold
  | closed id hrecord hpool hnext hcompleted =>
      rw [hcompleted, List.mem_append, List.mem_singleton] at hnew
      obtain rfl := hnew.resolve_left hold
      have hclosed : ¬ OpenApplication outer := by
        rw [← (h.stop settings).record, hnext]
        simp
      have hopen : OpenApplication (frame :: outer) := h.record.mp (by simp [hrecord])
      obtain ⟨hframe, houter⟩ := ((openApplication_cons frame outer).mp hopen).resolve_left hclosed
      exact ⟨hrecord, hframe, houter, hclosed⟩

theorem Follows.completed_start (h : context.Follows frames) (name : String)
    (attributes : Attributes) : (context.start name attributes).completed = context.completed := by
  cases h.advance_start name attributes with
  | idle hpool hnext hcompleted hqueries => exact hcompleted
  | opened id hid hrecord hpool hnext hcompleted hqueries => exact hcompleted
  | edited id hrecord hpool hnext hcompleted hqueries => exact hcompleted
  | closed id hrecord hpool hnext hcompleted =>
      have hopen : OpenApplication frames := h.record.mp (by simp [hrecord])
      have hstart := (h.start name attributes).record.mpr
        ((openApplication_cons _ _).mpr (Or.inl hopen))
      simp [hnext] at hstart

theorem completed_text (context : Context) (content : String) :
    (context.text content).completed = context.completed := by
  rw [text]
  split <;> rfl

/-- Each completed record is that of an element that opened it and was closed. -/
theorem exists_element_of_completed (settings : IngestSettings) (pool : Pool)
    {events : List Event} (h : IsScript events)
    (hrecord : record ∈ ((initial pool).run settings events).completed) :
    ∃ before name attributes rest, ∃ children : Fragment,
      events = before ++ .start name attributes :: (children.events ++ .stop name :: rest) ∧
        ((initial pool).run settings before).OpensRecord name attributes ∧
          ((initial pool).run settings before).pool.addRecord.1 = record := by
  induction events using List.reverseRecOn with
  | nil => simp [initial] at hrecord
  | append_singleton events event ih =>
      have hevents : IsScript events := h.of_append
      by_cases hold : record ∈ ((initial pool).run settings events).completed
      · obtain ⟨before, name, attributes, rest, children, rfl, hopens, hid⟩ := ih hevents hold
        exact ⟨before, name, attributes, rest ++ [event], children, by simp, hopens, hid⟩
      · have hfollows := follows_run settings pool hevents
        rw [run_append] at hrecord
        cases event with
        | start name attributes =>
            exact absurd (hfollows.completed_start name attributes ▸ hrecord) hold
        | text content =>
            exact absurd (completed_text _ content ▸ hrecord) hold
        | stop name =>
            -- The element that ends here is the one that opened the record.
            obtain ⟨names, hnames⟩ := isScript_iff.mp h
            rw [openNames_append] at hnames
            obtain ⟨inner, hinner, hstop⟩ := Option.bind_eq_some_iff.mp hnames
            simp only [openNames_cons, openNames_nil, Option.bind_fun_some] at hstop
            obtain rfl := nest_stop_eq_some.mp hstop
            obtain ⟨before, attributes, children, rfl, hbefore⟩ := exists_open hinner
            have hearlier := follows_run settings pool hevents.of_append
            have hframes : followAll [] (before ++ .start name attributes :: children.events) =
                opened (followAll [] before) name attributes :: followAll [] before := by
              rw [followAll, List.foldl_append]
              exact followAll_fragment _ children
            rw [hframes] at hfollows
            obtain ⟨hcurrent, hopened, houter, hclosed⟩ :=
              hfollows.closes_of_completed settings hold hrecord
            have hopens :
                ((initial pool).run settings before).OpensRecord name attributes := by
              constructor
              · have hnone := mt hearlier.record.mp hclosed
                simpa using hnone
              · apply (hearlier.start name attributes).record.mpr
                exact (openApplication_cons _ _).mpr (Or.inr ⟨hopened, houter⟩)
            refine ⟨before, name, attributes, [], children, by simp, hopens, ?_⟩
            have hchildren : IsScript children.events := ⟨children, List.prefix_refl _⟩
            obtain ⟨-, hinside, -⟩ := hearlier.run_opened settings hopens hchildren
            rw [run_append] at hcurrent
            exact Option.some.inj (hinside.symm.trans hcurrent)

/-- The end of an application completes its record. -/
theorem Follows.completed_stop_opened (h : context.Follows frames) (settings : IngestSettings)
    {name : String} {attributes : Attributes} (hopens : context.OpensRecord name attributes)
    (children : Fragment) :
    (((context.start name attributes).run settings children.events).stop settings).completed =
      context.completed ++ [context.pool.addRecord.1] := by
  have hchildren : IsScript children.events := ⟨children, List.prefix_refl _⟩
  obtain ⟨-, hrecord, hcompleted, -⟩ := h.run_opened settings hopens hchildren
  have hlength : (opened frames name attributes :: frames).length =
      (List.replicate (frames.length + 1) name).length := by simp
  have hinner :=
    ((h.start name attributes).run settings hlength (openNames_fragment children _)).1
  rw [followAll_fragment] at hinner
  have hnone : (((context.start name attributes).run settings children.events).stop
      settings).record = none := by
    have hclosed : context.record.isSome ↔ OpenApplication frames := h.record
    have hstopped := (hinner.stop settings).record
    rw [← hclosed, hopens.1] at hstopped
    simpa using hstopped
  cases hinner.advance_stop settings (List.cons_ne_nil _ _) with
  | idle hpool hnext hcompleted hqueries =>
      rw [hnext, hrecord] at hnone
      contradiction
  | opened id hid hclosed hpool hnext hcompleted hqueries =>
      rw [hnext] at hnone
      contradiction
  | edited id hopen hpool hnext hcompleted hqueries =>
      rw [hnext] at hnone
      contradiction
  | closed id hopen hpool hnext hlast =>
      obtain rfl := Option.some.inj (hrecord.symm.trans hopen)
      rw [hlast, hcompleted]

/-- A live record that is not the open one. -/
structure Settled (context : Context) (record : RecordId) : Prop where
  pool : context.pool.WellFormed
  isLive : context.pool.isLive record
  notOpen : context.record ≠ some record

theorem Sound.settled (h : context.Sound) (hrecord : record ∈ context.completed) :
    context.Settled record where
  pool := h.pool
  isLive := h.completed_live record hrecord
  notOpen hopen := h.record_new record hopen hrecord

theorem Settled.advance (h : context.Settled record) (hadvance : Advance context next) :
    next.Settled record ∧ Pool.Kept record context.pool next.pool := by
  have hsettled (hpool : next.pool.WellFormed) (hkept : Pool.Kept record context.pool next.pool)
      (hopen : next.record ≠ some record) :
      next.Settled record ∧ Pool.Kept record context.pool next.pool :=
    ⟨⟨hpool, hkept.isLive.trans h.isLive, hopen⟩, hkept⟩
  cases hadvance with
  | idle hpool hnext hcompleted hqueries =>
      exact hsettled (hpool ▸ h.pool) (hpool ▸ .refl record _) (hnext ▸ h.notOpen)
  | opened id hid hrecord hpool hnext hcompleted hqueries =>
      have hother : record ≠ id := by
        rintro rfl
        have hdead := Pool.isLive_size context.pool
        rw [← Pool.addRecord_fst, hid, h.isLive] at hdead
        contradiction
      refine hsettled (hpool.wellFormed h.pool.addRecord) ?_ ?_
      · exact (Pool.Kept.addRecord h.isLive).trans (.edited hpool h.pool.addRecord hother)
      · rw [hnext]
        exact fun heq => hother (Option.some.inj heq).symm
  | edited id hrecord hpool hnext hcompleted hqueries =>
      have hother : record ≠ id := fun heq => h.notOpen (heq ▸ hrecord)
      refine hsettled (hpool.wellFormed h.pool) (.edited hpool h.pool hother) ?_
      rw [hnext]
      exact fun heq => hother (Option.some.inj heq).symm
  | closed id hrecord hpool hnext hcompleted =>
      have hother : record ≠ id := fun heq => h.notOpen (heq ▸ hrecord)
      exact hsettled (hpool.wellFormed h.pool) (.edited hpool h.pool hother) (by simp [hnext])

/-- Reading on leaves settled records alone. -/
theorem Settled.run (h : context.Settled record) (hfollows : context.Follows frames)
    (settings : IngestSettings) {names later : List String} {events : List Event}
    (hlength : frames.length = names.length) (hevents : openNames names events = some later) :
    (context.run settings events).Settled record ∧
      Pool.Kept record context.pool (context.run settings events).pool := by
  have hadvance (earlier later : Context)
      (hearlier : earlier.Settled record ∧ Pool.Kept record context.pool earlier.pool)
      (hadvance : Advance earlier later) :
      later.Settled record ∧ Pool.Kept record context.pool later.pool := by
    obtain ⟨hsettled, hkept⟩ := hearlier.1.advance hadvance
    exact ⟨hsettled, hearlier.2.trans hkept⟩
  exact hfollows.run_invariant hadvance settings hlength hevents ⟨h, .refl record _⟩

theorem Settled.abort (h : context.Settled record) :
    context.abort.pool.WellFormed ∧ Pool.Kept record context.pool context.abort.pool := by
  rw [Context.abort]
  cases hrecord : context.record with
  | none => exact ⟨h.pool, .refl record _⟩
  | some other =>
      have hother : record ≠ other := fun heq => h.notOpen (heq ▸ hrecord)
      exact ⟨h.pool.discard other, .discard context.pool hother⟩

end Context

theorem IngestSettings.kept_finish (settings : IngestSettings) {pool : Pool}
    (h : pool.WellFormed) (record : RecordId) : Pool.Kept record pool (settings.finish pool) := by
  rw [finish]
  split
  · exact .refl record pool
  · exact .internalize h record

theorem eq_completed_of_ok {settings : IngestSettings} {pool : Pool} {reading : Reading}
    {records : List RecordId} (h : (ingestReading settings pool reading).result = .ok records) :
    records = ((Context.initial pool).run settings reading.events).completed := by
  obtain ⟨events, failure⟩ := reading
  cases failure with
  | none => exact (Except.ok.inj h).symm
  | some failure => cases h

/-- What is settled at some point of a document is so later. -/
theorem Context.kept_run (settings : IngestSettings) (pool : Pool) {before after : List Event}
    {record : RecordId} (h : IsScript (before ++ after))
    (hsettled : ((initial pool).run settings before).Settled record) :
    ((initial pool).run settings (before ++ after)).Settled record ∧
      Pool.Kept record ((initial pool).run settings before).pool
        ((initial pool).run settings (before ++ after)).pool := by
  obtain ⟨names, hnames⟩ := isScript_iff.mp h
  rw [openNames_append] at hnames
  obtain ⟨middle, hmiddle, hafter⟩ := Option.bind_eq_some_iff.mp hnames
  obtain ⟨hfollows, hlength⟩ := (follows_initial pool).run settings rfl hmiddle
  rw [run_append]
  exact hsettled.run hfollows settings hlength hafter

/-- What is settled at some point of a document is so at its end, however it ends. -/
theorem kept_ingestReading (settings : IngestSettings) (pool : Pool) {before after : List Event}
    {record : RecordId} (failure : Option Failure) (h : IsScript (before ++ after))
    (hsettled : ((Context.initial pool).run settings before).Settled record) :
    Pool.Kept record ((Context.initial pool).run settings before).pool
      (ingestReading settings pool ⟨before ++ after, failure⟩).pool := by
  obtain ⟨hlater, hkept⟩ := Context.kept_run settings pool h hsettled
  cases failure with
  | none => exact hkept.trans (settings.kept_finish hlater.pool record)
  | some failure =>
      obtain ⟨hpool, habort⟩ := hlater.abort
      exact (hkept.trans habort).trans (settings.kept_finish hpool record)

theorem Context.completed_subset_run {context : Context} {frames : List Frame}
    (h : context.Follows frames) (settings : IngestSettings) {names later : List String}
    {events : List Event} (hlength : frames.length = names.length)
    (hevents : openNames names events = some later) :
    context.completed ⊆ (context.run settings events).completed := by
  have hadvance (earlier later : Context) (hearlier : context.completed ⊆ earlier.completed)
      (hadvance : Advance earlier later) : context.completed ⊆ later.completed := by
    cases hadvance with
    | idle hpool hnext hcompleted hqueries => exact hcompleted ▸ hearlier
    | opened id hid hrecord hpool hnext hcompleted hqueries => exact hcompleted ▸ hearlier
    | edited id hrecord hpool hnext hcompleted hqueries => exact hcompleted ▸ hearlier
    | closed id hrecord hpool hnext hcompleted =>
        exact hcompleted ▸ List.Subset.trans hearlier (List.subset_append_left _ _)
  exact h.run_invariant hadvance settings hlength hevents (List.Subset.refl _)

/-- When an element closes its record is settled. -/
theorem Context.settled_element (settings : IngestSettings) {pool : Pool} (hpool : pool.WellFormed)
    {before : List Event} {name : String} {attributes : Attributes} {children : Fragment}
    (h : IsScript (before ++ .start name attributes :: (children.events ++ [.stop name])))
    (hopens : ((initial pool).run settings before).OpensRecord name attributes) :
    let earlier := (initial pool).run settings before
    let record := earlier.pool.addRecord.1
    let later := (initial pool).run settings
      (before ++ .start name attributes :: (children.events ++ [.stop name]))
    later = ((earlier.start name attributes).run settings children.events).stop settings ∧
      record ∈ later.completed ∧ later.Settled record := by
  intro earlier record later
  have hlater : later =
      ((earlier.start name attributes).run settings children.events).stop settings := by
    simp only [later, run_append, run_cons, run_nil]
    rfl
  have hmem : record ∈ later.completed := by
    rw [hlater, (follows_run settings pool h.of_append).completed_stop_opened settings hopens
      children]
    exact List.mem_append_right _ (List.mem_singleton.mpr rfl)
  exact ⟨hlater, hmem, (sound_run settings hpool h).settled hmem⟩

/-- The record of an element that closes is completed, and what it shows in the end it showed when
the element closed. -/
theorem kept_element (settings : IngestSettings) {pool : Pool} (hpool : pool.WellFormed)
    (failure : Option Failure) {before rest : List Event} {name : String}
    {attributes : Attributes} {children : Fragment}
    (h : IsScript (before ++ .start name attributes :: (children.events ++ .stop name :: rest)))
    (hopens : ((Context.initial pool).run settings before).OpensRecord name attributes) :
    let events := before ++ .start name attributes :: (children.events ++ .stop name :: rest)
    let earlier := (Context.initial pool).run settings before
    let record := earlier.pool.addRecord.1
    record ∈ ((Context.initial pool).run settings events).completed ∧
      Pool.Kept record
        (((earlier.start name attributes).run settings children.events).stop settings).pool
        (ingestReading settings pool ⟨events, failure⟩).pool := by
  intro events earlier record
  let closed := before ++ .start name attributes :: (children.events ++ [.stop name])
  have hsame : events = closed ++ rest := by simp [closed, events]
  have hevents : IsScript (closed ++ rest) := hsame ▸ h
  obtain ⟨hreading, hmem, hsettled⟩ :=
    Context.settled_element settings hpool hevents.of_append hopens
  obtain ⟨names, hnames⟩ := isScript_iff.mp hevents
  rw [openNames_append] at hnames
  obtain ⟨middle, hmiddle, hrest⟩ := Option.bind_eq_some_iff.mp hnames
  obtain ⟨hfollows, hlength⟩ := (Context.follows_initial pool).run settings rfl hmiddle
  rw [← hreading, hsame, Context.run_append]
  exact ⟨Context.completed_subset_run hfollows settings hlength hrest hmem,
    kept_ingestReading settings pool failure hevents hsettled⟩

end Metainfo
