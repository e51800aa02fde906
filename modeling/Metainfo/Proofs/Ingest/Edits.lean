import Metainfo.Proofs.Ingest.Frames
import Metainfo.Proofs.Pool.Edit

/-!
How reading a document changes the pool: a record is allocated when an application opens, then
edited until it closes, and nothing else happens.
-/

namespace Metainfo

open Metainfo.Markup

namespace Completion

open Pool

/-- Takes a missing name over from a desktop entry. -/
def nameFromEntry (entry : DesktopEntry) (pool : Pool) (record : RecordId) : Pool :=
  match pool.name? record, entry.name with
  | none, some name => setNameText pool record (Naming.applicationName name)
  | _, _ => pool

def summaryFromEntry (findings : Findings) (entry : DesktopEntry) (pool : Pool)
    (record : RecordId) : Pool :=
  match findings.hasSummary, entry.comment with
  | false, some comment => pool.setText record .summary comment
  | _, _ => pool

/-- Fills the gaps that a desktop entry can fill, if there is one. -/
def fillIfFound (settings : IngestSettings) (findings : Findings) (pool : Pool)
    (record : RecordId) : Pool :=
  match entry? settings findings pool record with
  | none => pool
  | some entry => fillFromEntry findings entry pool record

variable (settings : IngestSettings) (findings : Findings) (pool : Pool) (record : RecordId)

theorem fillFromEntry_eq (entry : DesktopEntry) :
    fillFromEntry findings entry pool record =
      summaryFromEntry findings entry (nameFromEntry entry pool record) record :=
  rfl

theorem editedTo_fillDefaults : EditedTo record pool (fillDefaults pool record) :=
  (EditedTo.ite (.setArch pool _)).trans (.ite (.setVersion _ _))

theorem editedTo_setNameText (name : String) :
    EditedTo record pool (setNameText pool record name) :=
  (EditedTo.intern pool name).trans (.setName _ _)

theorem editedTo_nameFromEntry (entry : DesktopEntry) :
    EditedTo record pool (nameFromEntry entry pool record) := by
  rw [nameFromEntry]
  split
  · exact editedTo_setNameText pool record _
  · exact .refl record pool

theorem editedTo_summaryFromEntry (entry : DesktopEntry) :
    EditedTo record pool (summaryFromEntry findings entry pool record) := by
  rw [summaryFromEntry]
  split
  · exact .setText pool _ _
  · exact .refl record pool

theorem editedTo_fillFromEntry (entry : DesktopEntry) :
    EditedTo record pool (fillFromEntry findings entry pool record) := by
  rw [fillFromEntry_eq]
  exact (editedTo_nameFromEntry pool record entry).trans
    (editedTo_summaryFromEntry findings _ record entry)

theorem editedTo_fillIfFound :
    EditedTo record pool (fillIfFound settings findings pool record) := by
  rw [fillIfFound]
  split
  · exact .refl record pool
  · exact editedTo_fillFromEntry findings pool record _

theorem editedTo_fillNameFromId :
    EditedTo record pool (fillNameFromId findings pool record) := by
  rw [fillNameFromId]
  split
  · exact editedTo_setNameText pool record _
  · exact .refl record pool

theorem editedTo_link (requirement : StringId) (target : String) :
    EditedTo record pool (link pool record requirement target) :=
  ((EditedTo.intern pool _).trans (.addRequires _ _)).trans (.addProvides _ _)

theorem editedTo_linkPackage (package : String) :
    EditedTo record pool (linkPackage pool record package) :=
  (EditedTo.intern pool package).trans (editedTo_link _ record _ _)

theorem editedTo_linkOwner (owner : RecordId) :
    EditedTo record pool (linkOwner record pool owner) := by
  rw [linkOwner]
  split
  · exact .refl record pool
  · split
    · exact .refl record pool
    · exact editedTo_link pool record _ _

theorem editedTo_linkOwners : EditedTo record pool (linkOwners settings pool record) := by
  have hall (owners : List RecordId) :
      EditedTo record pool (owners.foldl (linkOwner record) pool) := by
    induction owners generalizing pool with
    | nil => exact .refl record pool
    | cons owner owners ih => exact (editedTo_linkOwner pool record owner).trans (ih _)
  rw [linkOwners]
  split
  · exact .refl record pool
  · exact hall settings.owners

theorem editedTo_linkFile : EditedTo record pool (linkFile settings findings pool record) := by
  rw [linkFile]
  split
  · exact .refl record pool
  · split
    · exact .refl record pool
    · exact (EditedTo.intern pool _).trans (editedTo_link _ record _ _)

theorem editedTo_provideSelf : EditedTo record pool (provideSelf pool record) := by
  rw [provideSelf]
  split
  · split
    · exact .refl record pool
    · exact .addProvides pool _
  · exact .refl record pool

theorem editedTo_complete : EditedTo record pool (complete settings findings pool record) := by
  have hentry : EditedTo record pool
      (fillIfFound settings findings (fillDefaults pool record) record) :=
    (editedTo_fillDefaults pool record).trans (editedTo_fillIfFound settings findings _ record)
  exact (((hentry.trans (editedTo_fillNameFromId findings _ record)).trans
    (editedTo_linkOwners settings _ record)).trans
      (editedTo_linkFile settings findings _ record)).trans (editedTo_provideSelf _ record)

end Completion

namespace Context

open Metainfo.Frame

variable {settings : IngestSettings} {context next : Context} {frames : List Frame}

theorem editedTo_leaveIn (settings : IngestSettings) (context : Context) (record : RecordId) :
    Pool.EditedTo record context.pool (context.leaveIn settings record).pool := by
  cases helement : context.element <;> simp only [leaveIn, helement]
  case application => exact Completion.editedTo_complete settings context.findings _ record
  case name => exact Completion.editedTo_setNameText _ record _
  case summary => exact .setText _ _ _
  case url => exact .setText _ _ _
  case licence => exact .addToList _ _ _
  case group => exact .addToList _ _ _
  case extensions => exact .addToList _ _ _
  case keyword => exact .addToList _ _ _
  case pkgname => exact Completion.editedTo_linkPackage _ record _
  case description =>
    split
    · exact .setText _ _ _
    · exact .refl record _
  all_goals exact .refl record _

/-- What the elements of an open application change besides the place in the document. -/
theorem leaveIn_of_ne (settings : IngestSettings) {context : Context} (record : RecordId)
    (h : context.element ≠ .application) :
    (context.leaveIn settings record).completed = context.completed ∧
      (context.leaveIn settings record).queries = context.queries := by
  cases helement : context.element <;> simp only [leaveIn, helement]
  case application => contradiction
  case description => rcases context.description.finish with ⟨_ | text, description⟩ <;> simp
  all_goals simp [setGatheredText, addGatheredText, describe, takeText]

/-- What one event can do to the pool and the records. -/
inductive Advance (context next : Context) : Prop where
  | idle (hpool : next.pool = context.pool) (hnext : next.record = context.record)
      (hcompleted : next.completed = context.completed)
      (hqueries : next.queries = context.queries)
  | opened (id : RecordId) (hid : context.pool.addRecord.1 = id) (hrecord : context.record = none)
      (hpool : Pool.EditedTo id context.pool.addRecord.2 next.pool)
      (hnext : next.record = some id) (hcompleted : next.completed = context.completed)
      (hqueries : next.queries = context.queries)
  | edited (id : RecordId) (hrecord : context.record = some id)
      (hpool : Pool.EditedTo id context.pool next.pool) (hnext : next.record = some id)
      (hcompleted : next.completed = context.completed)
      (hqueries : next.queries = context.queries)
  | closed (id : RecordId) (hrecord : context.record = some id)
      (hpool : Pool.EditedTo id context.pool next.pool) (hnext : next.record = none)
      (hcompleted : next.completed = context.completed ++ [id])

theorem Follows.record_eq_none (h : context.Follows frames) (hstart : current frames = .start) :
    context.record = none := by
  have := h.grounded.not_openApplication hstart
  rw [← h.record] at this
  simpa using this

theorem Follows.advance_start (h : context.Follows frames) (name : String)
    (attributes : Attributes) :
    Advance context (context.start name attributes) := by
  cases hopened : opened frames name attributes with
  | unknown =>
      rw [h.start_of_unknown hopened]
      exact .idle rfl rfl rfl rfl
  | known element localized =>
      obtain ⟨hdepth, hlocalized, transition, htransition, rfl⟩ :=
        h.transition_of_known hopened
      cases hskip : context.skipDepth with
      | some skipped =>
          rw [start_skipped hdepth htransition hskip]
          exact .idle rfl rfl rfl rfl
      | none =>
          cases localized with
          | true =>
              rw [start_localized hdepth htransition hskip hlocalized]
              exact .idle rfl rfl rfl rfl
          | false =>
              rw [start_known hdepth htransition hskip hlocalized]
              by_cases happlication : transition.target = .application
              · have hstart := Element.source_of_target_start htransition (Or.inr happlication)
                rw [h.element] at hstart
                rw [(context.inside transition none).enter_application attributes happlication]
                exact .opened _ rfl (h.record_eq_none hstart) (.setText _ _ _) rfl rfl rfl
              · obtain ⟨description, henter⟩ :=
                  (context.inside transition none).enter_of_ne attributes happlication
                rw [henter]
                exact .idle rfl rfl rfl rfl

theorem advance_leave (settings : IngestSettings) (context : Context) :
    Advance context (context.leave settings) := by
  cases hrecord : context.record with
  | none =>
      rw [leave_of_none settings hrecord]
      exact .idle rfl rfl rfl rfl
  | some record =>
      rw [leave_of_some settings hrecord]
      have hpool := editedTo_leaveIn settings context record
      have hnext := record_leaveIn settings context record
      by_cases happlication : context.element = .application
      · rw [if_pos happlication] at hnext
        refine .closed record hrecord hpool hnext ?_
        rw [leaveIn, happlication]
        rfl
      · rw [if_neg happlication, hrecord] at hnext
        obtain ⟨hcompleted, hqueries⟩ := leaveIn_of_ne settings record happlication
        exact .edited record hrecord hpool hnext hcompleted hqueries

theorem Follows.advance_stop (h : context.Follows frames) (settings : IngestSettings)
    (hframes : frames ≠ []) :
    Advance context (context.stop settings) := by
  obtain ⟨frame, outer, rfl⟩ := List.exists_cons_of_ne_nil hframes
  cases frame with
  | unknown =>
      rw [stop_deeper (mt h.depth_eq_iff.mp (not_not.mpr rfl))]
      exact .idle rfl rfl rfl rfl
  | known element localized =>
      have hdepth := h.depth_eq_iff.mpr (by simp)
      cases hskip : context.skipDepth with
      | none =>
          rw [stop_known hdepth hskip]
          cases advance_leave settings context.shallower with
          | idle hpool hnext hcompleted hqueries =>
              exact .idle hpool hnext hcompleted hqueries
          | opened id hid hrecord hpool hnext hcompleted hqueries =>
              exact .opened id hid hrecord hpool hnext hcompleted hqueries
          | edited id hrecord hpool hnext hcompleted hqueries =>
              exact .edited id hrecord hpool hnext hcompleted hqueries
          | closed id hrecord hpool hnext hcompleted =>
              exact .closed id hrecord hpool hnext hcompleted
      | some skipped =>
          have hlength := h.skipDepth
          rw [hskip] at hlength
          have hle := le_length_of_outermostLocalized hlength.symm
          rw [← h.depth] at hle
          rcases Nat.lt_or_eq_of_le hle with hlt | rfl
          · rw [stop_skipped hdepth hskip hlt]
            exact .idle rfl rfl rfl rfl
          · rw [stop_localized hdepth hskip]
            exact .idle rfl rfl rfl rfl

theorem Follows.advance (h : context.Follows frames) (settings : IngestSettings) {event : Event}
    (hstop : ∀ name, event = .stop name → frames ≠ []) :
    Advance context (context.step settings event) := by
  cases event with
  | start name attributes => exact h.advance_start name attributes
  | stop name => exact h.advance_stop settings (hstop name rfl)
  | text content =>
      change Advance context (context.text content)
      rw [Context.text]
      split <;> exact .idle rfl rfl rfl rfl

/-- A start tag makes the record of an application. -/
def OpensRecord (context : Context) (name : String) (attributes : Attributes) : Prop :=
  context.record = none ∧ (context.start name attributes).record.isSome

theorem Follows.opened_of_opensRecord (h : context.Follows frames) {name : String}
    {attributes : Attributes}
    (hopens : context.OpensRecord name attributes) :
    opened frames name attributes = .known .application false ∧
      ∀ frame ∈ frames, frame.isLocalized = false := by
  have hnone : ¬ OpenApplication frames := by
    rw [← h.record, hopens.1]
    simp
  have hsome := (h.start name attributes).record.mp hopens.2
  rw [openApplication_cons] at hsome
  obtain ⟨hopened, houter⟩ := hsome.resolve_left hnone
  exact ⟨hopened, outermostLocalized_eq_none.mp houter⟩

/-- While an application stays open, its record is all that changes. -/
theorem Follows.run_inside {inner outer : List Frame} {names later : List String}
    {events : List Event} {id : RecordId}
    (h : context.Follows (inner ++ .known .application false :: outer))
    (settings : IngestSettings) (houter : ∀ frame ∈ outer, frame.isLocalized = false)
    (hevents : openNames names events = some later) (hlength : inner.length = names.length)
    (hrecord : context.record = some id) :
    Pool.EditedTo id context.pool (context.run settings events).pool ∧
      (context.run settings events).record = some id ∧
      (context.run settings events).completed = context.completed ∧
      (context.run settings events).queries = context.queries := by
  induction events generalizing context inner names with
  | nil => exact ⟨.refl id _, hrecord, rfl, rfl⟩
  | cons event events ih =>
      rw [openNames_cons] at hevents
      obtain ⟨middle, hmiddle, hevents⟩ := Option.bind_eq_some_iff.mp hevents
      have hstop : ∀ name, event = .stop name →
          inner ++ Frame.known .application false :: outer ≠ [] := by simp
      -- The event leaves the frame of the application where it is.
      have hinner : ∃ inner', follow (inner ++ .known .application false :: outer) event =
          inner' ++ .known .application false :: outer ∧ inner'.length = middle.length := by
        cases event with
        | start name attributes =>
            obtain rfl := Option.some.inj hmiddle
            exact ⟨_ :: inner, rfl, congrArg (· + 1) hlength⟩
        | text content =>
            obtain rfl := Option.some.inj hmiddle
            exact ⟨inner, rfl, hlength⟩
        | stop name =>
            rw [nest_stop_eq_some.mp hmiddle] at hlength
            cases inner with
            | nil => simp at hlength
            | cons frame inner => exact ⟨inner, rfl, Nat.succ.inj hlength⟩
      obtain ⟨inner', hfollow, hlength'⟩ := hinner
      have hstep := h.step settings hstop
      rw [hfollow] at hstep
      have hopen : (context.step settings event).record.isSome :=
        hstep.record.mpr ⟨inner', outer, rfl, houter⟩
      have hedit : Pool.EditedTo id context.pool (context.step settings event).pool ∧
          (context.step settings event).record = some id ∧
          (context.step settings event).completed = context.completed ∧
          (context.step settings event).queries = context.queries := by
        cases h.advance settings hstop with
        | idle hpool hnext hcompleted hqueries =>
            exact ⟨hpool ▸ .refl id _, hnext.trans hrecord, hcompleted, hqueries⟩
        | opened id hid hnone hpool hnext hcompleted hqueries => simp [hnone] at hrecord
        | edited other hsame hpool hnext hcompleted hqueries =>
            obtain rfl : other = id := Option.some.inj (hsame.symm.trans hrecord)
            exact ⟨hpool, hnext, hcompleted, hqueries⟩
        | closed other hsame hpool hnext hcompleted => simp [hnext] at hopen
      obtain ⟨hpool, hnext, hcompleted, hqueries⟩ := hedit
      obtain ⟨hpool', hnext', hcompleted', hqueries'⟩ := ih hstep hevents hlength' hnext
      exact ⟨hpool.trans hpool', hnext', hcompleted'.trans hcompleted,
        hqueries'.trans hqueries⟩

/-- From the start tag of an application on, its new record is all that changes. -/
theorem Follows.run_opened (h : context.Follows frames) (settings : IngestSettings)
    {name : String} {attributes : Attributes} (hopens : context.OpensRecord name attributes)
    {events : List Event} (hevents : IsScript events) :
    let record := context.pool.addRecord.1
    let inner := (context.start name attributes).run settings events
    Pool.EditedTo record context.pool.addRecord.2 inner.pool ∧ inner.record = some record ∧
      inner.completed = context.completed ∧ inner.queries = context.queries := by
  intro record inner
  obtain ⟨hopened, houter⟩ := h.opened_of_opensRecord hopens
  obtain ⟨later, hlater⟩ := isScript_iff.mp hevents
  have hinside : (context.start name attributes).Follows
      ([] ++ .known .application false :: frames) := hopened ▸ h.start name attributes
  cases h.advance_start name attributes with
  | idle hpool hnext hcompleted hqueries =>
      have hsome := hopens.2
      rw [hnext, hopens.1] at hsome
      simp at hsome
  | edited id hrecord hpool hnext hcompleted hqueries => simp [hopens.1] at hrecord
  | closed id hrecord hpool hnext hcompleted => simp [hopens.1] at hrecord
  | opened id hid hrecord hpool hnext hcompleted hqueries =>
      obtain rfl : record = id := hid
      obtain ⟨hpool', hrecord', hcompleted', hqueries'⟩ :=
        hinside.run_inside settings houter hlater rfl hnext
      exact ⟨hpool.trans hpool', hrecord', hcompleted'.trans hcompleted,
        hqueries'.trans hqueries⟩

/-- What holds of every invariant of single advances holds of the whole reading. -/
theorem Follows.run_invariant {invariant : Context → Prop}
    (hadvance : ∀ context next, invariant context → Advance context next → invariant next)
    (h : context.Follows frames) (settings : IngestSettings) {names later : List String}
    {events : List Event}
    (hlength : frames.length = names.length) (hevents : openNames names events = some later)
    (hcontext : invariant context) : invariant (context.run settings events) := by
  induction events generalizing context frames names with
  | nil => exact hcontext
  | cons event events ih =>
      rw [openNames_cons] at hevents
      obtain ⟨middle, hmiddle, hevents⟩ := Option.bind_eq_some_iff.mp hevents
      have hsingle : openNames names [event] = some middle := by simpa using hmiddle
      obtain ⟨hstep, hlength'⟩ := h.run settings hlength hsingle
      refine ih hstep hlength' hevents (hadvance context _ hcontext (h.advance settings ?_))
      rintro name rfl rfl
      rw [nest_stop_eq_some.mp hmiddle] at hlength
      simp at hlength

theorem strings_run_extends (settings : IngestSettings) (pool : Pool) {events : List Event}
    (h : IsScript events) :
    pool.strings.Extends ((initial pool).run settings events).pool.strings := by
  obtain ⟨names, hnames⟩ := isScript_iff.mp h
  have hadvance (context next : Context) (hcontext : pool.strings.Extends context.pool.strings)
      (hadvance : Advance context next) : pool.strings.Extends next.pool.strings := by
    cases hadvance with
    | idle hpool hnext hcompleted hqueries => exact hpool ▸ hcontext
    | opened id hid hrecord hpool hnext hcompleted hqueries =>
        exact hcontext.trans hpool.equalExcept.strings
    | edited id hrecord hpool hnext hcompleted hqueries =>
        exact hcontext.trans hpool.equalExcept.strings
    | closed id hrecord hpool hnext hcompleted =>
        exact hcontext.trans hpool.equalExcept.strings
  exact (follows_initial pool).run_invariant hadvance settings rfl hnames
    (Interner.Extends.refl _)

/-- The records that a context speaks of are live. -/
structure Sound (context : Context) : Prop where
  pool : context.pool.WellFormed
  record_live : ∀ id, context.record = some id → context.pool.isLive id
  completed_live : ∀ id ∈ context.completed, context.pool.isLive id
  record_new : ∀ id, context.record = some id → id ∉ context.completed

theorem sound_initial {pool : Pool} (h : pool.WellFormed) : (initial pool).Sound where
  pool := h
  record_live := by simp [initial]
  completed_live := by simp [initial]
  record_new := by simp [initial]

theorem Sound.advance (h : context.Sound) (hadvance : Advance context next) : next.Sound := by
  cases hadvance with
  | idle hpool hnext hcompleted hqueries =>
      exact ⟨hpool ▸ h.pool, hpool ▸ hnext ▸ h.record_live, hpool ▸ hcompleted ▸ h.completed_live,
        hnext ▸ hcompleted ▸ h.record_new⟩
  | opened id hid hrecord hpool hnext hcompleted hqueries =>
      have hlive (other : RecordId) (hother : context.pool.isLive other) :
          next.pool.isLive other := by
        rw [hpool.equalExcept.isLive_eq,
          Pool.isLive_congr (Pool.record?_addRecord_of_isLive hother)]
        exact hother
      refine ⟨hpool.wellFormed h.pool.addRecord, ?_, ?_, ?_⟩
      · rintro other hother
        obtain rfl : id = other := Option.some.inj (hnext.symm.trans hother)
        rw [hpool.equalExcept.isLive, ← hid]
        simp [Pool.isLive, Pool.record?_addRecord]
      · rw [hcompleted]
        exact fun other hother => hlive other (h.completed_live other hother)
      · rintro other hother hmem
        obtain rfl : id = other := Option.some.inj (hnext.symm.trans hother)
        rw [hcompleted] at hmem
        have hdead := Pool.isLive_size context.pool
        rw [← Pool.addRecord_fst, hid, h.completed_live id hmem] at hdead
        contradiction
  | edited id hrecord hpool hnext hcompleted hqueries =>
      refine ⟨hpool.wellFormed h.pool, ?_, ?_, ?_⟩
      · rw [hnext, ← hrecord]
        exact fun other hother =>
          (hpool.equalExcept.isLive_eq other).trans (h.record_live other hother)
      · rw [hcompleted]
        exact fun other hother =>
          (hpool.equalExcept.isLive_eq other).trans (h.completed_live other hother)
      · rw [hnext, ← hrecord, hcompleted]
        exact h.record_new
  | closed id hrecord hpool hnext hcompleted =>
      refine ⟨hpool.wellFormed h.pool, by simp [hnext], ?_, by simp [hnext]⟩
      intro other hother
      rw [hpool.equalExcept.isLive_eq]
      rw [hcompleted, List.mem_append, List.mem_singleton] at hother
      rcases hother with hold | rfl
      · exact h.completed_live other hold
      · exact h.record_live other hrecord

theorem sound_run (settings : IngestSettings) {pool : Pool} (hpool : pool.WellFormed)
    {events : List Event} (h : IsScript events) :
    ((initial pool).run settings events).Sound := by
  obtain ⟨names, hnames⟩ := isScript_iff.mp h
  exact (follows_initial pool).run_invariant (fun _ _ hcontext => hcontext.advance) settings rfl
    hnames
    (sound_initial hpool)

end Context

end Metainfo
