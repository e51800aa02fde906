import Metainfo.Proofs.Ingest.Completed

/-!
The numbers of the records of a document. Its applications are numbered in the order in which they
stand there, beginning with the handle that the pool would have given out before, and the handle of
an application that never closes is given back.
-/

namespace Metainfo

open Metainfo.Markup

namespace Element

theorem exists_transition_start_iff {element : Element} {name : String} :
    (∃ transition, element.transition? name = some transition ∧ transition.target = .start) ↔
      element = .start ∧ (name = "applications" ∨ name = "components") := by
  have hall : ∀ transition ∈ vocabulary, transition.target = .start →
      transition.tag = "applications" ∨ transition.tag = "components" := by decide
  constructor
  · rintro ⟨transition, htransition, htarget⟩
    refine ⟨source_of_target_start htransition (Or.inl htarget), ?_⟩
    rw [← tag_of_transition? htransition]
    exact hall _ (mem_of_transition? htransition) htarget
  · rintro ⟨rfl, rfl | rfl⟩ <;> exact ⟨_, rfl, rfl⟩

theorem exists_transition_application_iff {element : Element} {name : String} :
    (∃ transition, element.transition? name = some transition ∧
        transition.target = .application) ↔
      element = .start ∧ (name = "application" ∨ name = "component") := by
  have hall : ∀ transition ∈ vocabulary, transition.target = .application →
      transition.tag = "application" ∨ transition.tag = "component" := by decide
  constructor
  · rintro ⟨transition, htransition, htarget⟩
    refine ⟨source_of_target_start htransition (Or.inr htarget), ?_⟩
    rw [← tag_of_transition? htransition]
    exact hall _ (mem_of_transition? htransition) htarget
  · rintro ⟨rfl, rfl | rfl⟩ <;> exact ⟨_, rfl, rfl⟩

end Element

namespace Frame

variable {frames : List Frame} {name : String} {attributes : Attributes}

theorem opened_eq_known_iff {element : Element} {localized : Bool} :
    opened frames name attributes = .known element localized ↔
      frames.head? ≠ some .unknown ∧
        (attributes.get? Context.languageAttribute).isSome = localized ∧
          ∃ transition, (current frames).transition? name = some transition ∧
            transition.target = element := by
  rw [opened]
  by_cases htop : frames.head? = some .unknown
  · simp [htop]
  · rw [if_neg htop]
    cases (current frames).transition? name with
    | none => simp
    | some transition => simp [htop, and_comm]

theorem Grounded.opened (h : Grounded frames) (name : String) (attributes : Attributes) :
    Grounded (Frame.opened frames name attributes :: frames) := by
  cases hopened : Frame.opened frames name attributes with
  | unknown => exact h
  | known element localized =>
      obtain ⟨htop, -, transition, htransition, htarget⟩ := opened_eq_known_iff.mp hopened
      exact ⟨htop, h, name, transition, htransition, htarget⟩

/-- Outside of all applications only containers are open. -/
theorem Grounded.eq_known_start (h : Grounded frames) (htop : frames.head? ≠ some .unknown)
    (hcurrent : current frames = .start) :
    ∀ frame ∈ frames, ∃ localized, frame = .known .start localized := by
  induction frames with
  | nil => simp
  | cons frame outer ih =>
      cases frame with
      | unknown => simp at htop
      | known element localized =>
          obtain ⟨houter, hgrounded, name, transition, htransition, rfl⟩ := h
          have hstart := Element.source_of_target_start htransition (Or.inl hcurrent)
          have htarget : transition.target = .start := hcurrent
          rw [List.forall_mem_cons]
          exact ⟨⟨localized, by rw [htarget]⟩, ih hgrounded houter hstart⟩

end Frame

structure StartTag where
  name : String
  attributes : Attributes
  deriving DecidableEq, Repr

namespace StartTag

open Metainfo.Frame

def isLocalized (tag : StartTag) : Bool :=
  (tag.attributes.get? Context.languageAttribute).isSome

/-- A container of applications that is for all languages. -/
def isContainer (tag : StartTag) : Bool :=
  (tag.name = "applications" || tag.name = "components") && !tag.isLocalized

/-- An application that is for all languages. -/
def isApplication (tag : StartTag) : Bool :=
  (tag.name = "application" || tag.name = "component") && !tag.isLocalized

/-- The tags of the open elements after an event, innermost first. -/
def follow (tags : List StartTag) : Event → List StartTag
  | .start name attributes => ⟨name, attributes⟩ :: tags
  | .stop _ => tags.tail
  | .text _ => tags

/-- The innermost open element is an application that makes a record: it and the elements around
it are for all languages, and those are containers. -/
def makesRecord : List StartTag → Bool
  | [] => false
  | tag :: outer => tag.isApplication && outer.all isContainer

/-- An event closes an application that makes a record. -/
def closesRecord (tags : List StartTag) : Event → Bool
  | .start _ _ | .text _ => false
  | .stop _ => makesRecord tags

/-- The number of applications closed that make records. -/
def closedRecords (tags : List StartTag) : List Event → Nat
  | [] => 0
  | event :: rest => (closesRecord tags event).toNat + closedRecords (follow tags event) rest

/-- What the open elements mean. -/
def frames : List StartTag → List Frame
  | [] => []
  | tag :: outer => opened (frames outer) tag.name tag.attributes :: frames outer

variable {tag : StartTag} {tags outer : List StartTag}

theorem frames_follow (tags : List StartTag) (event : Event) :
    frames (follow tags event) = Frame.follow (frames tags) event := by
  cases event with
  | start name attributes => rfl
  | text content => rfl
  | stop name => cases tags <;> rfl

theorem frames_followAll (tags : List StartTag) (events : List Event) :
    frames (events.foldl follow tags) = followAll (frames tags) events := by
  induction events generalizing tags with
  | nil => rfl
  | cons event events ih =>
      rw [List.foldl_cons, ih, frames_follow]
      rfl

theorem length_frames (tags : List StartTag) : (frames tags).length = tags.length := by
  induction tags with
  | nil => rfl
  | cons tag outer ih => rw [frames, List.length_cons, List.length_cons, ih]

theorem grounded_frames (tags : List StartTag) : Grounded (frames tags) := by
  induction tags with
  | nil => trivial
  | cons tag outer ih => exact ih.opened tag.name tag.attributes

theorem current_of_forall (h : ∀ frame ∈ frames tags, frame = .known .start false) :
    (frames tags).head? ≠ some .unknown ∧ current (frames tags) = .start := by
  cases hframes : frames tags with
  | nil => simp [current]
  | cons frame outer =>
      rw [hframes] at h
      rw [h frame List.mem_cons_self]
      simp [current]

theorem all_isContainer_iff :
    tags.all isContainer ↔ ∀ frame ∈ frames tags, frame = .known .start false := by
  induction tags with
  | nil => simp [frames]
  | cons tag outer ih =>
      rw [List.all_cons, Bool.and_eq_true, ih, frames, List.forall_mem_cons]
      apply and_congr_left
      intro houter
      obtain ⟨htop, hcurrent⟩ := current_of_forall houter
      rw [opened_eq_known_iff, hcurrent, Element.exists_transition_start_iff]
      simp [isContainer, isLocalized, htop, and_comm]

theorem makesRecord_iff :
    makesRecord (tag :: outer) ↔
      opened (frames outer) tag.name tag.attributes = .known .application false ∧
        outermostLocalized (frames outer) = none := by
  rw [makesRecord, Bool.and_eq_true, all_isContainer_iff, outermostLocalized_eq_none,
    opened_eq_known_iff, Element.exists_transition_application_iff]
  constructor
  · rintro ⟨htag, houter⟩
    obtain ⟨htop, hcurrent⟩ := current_of_forall houter
    refine ⟨⟨htop, ?_, hcurrent, ?_⟩, ?_⟩
    · simpa [isLocalized] using (Bool.and_eq_true_iff.mp htag).2
    · simpa using (Bool.and_eq_true_iff.mp htag).1
    · intro frame hframe
      rw [houter frame hframe]
      rfl
  · rintro ⟨⟨htop, hlanguage, hcurrent, hname⟩, houter⟩
    refine ⟨by simp [isApplication, isLocalized, hname, hlanguage], ?_⟩
    intro frame hframe
    obtain ⟨localized, rfl⟩ :=
      (grounded_frames outer).eq_known_start htop hcurrent frame hframe
    rw [show localized = false from houter _ hframe]

/-- An application inside another one makes no record. -/
theorem current_of_makesRecord (h : makesRecord (tag :: outer)) :
    current (frames outer) = .start := by
  obtain ⟨-, -, transition, htransition, htarget⟩ :=
    opened_eq_known_iff.mp (makesRecord_iff.mp h).1
  exact Element.source_of_target_start htransition (Or.inr htarget)

end StartTag

/-- The handles that a pool gives out next. -/
def Pool.nextRecords (pool : Pool) (count : Nat) : List RecordId :=
  (List.range count).map fun offset => ⟨pool.addRecord.1.index + offset⟩

namespace Pool

variable {pool : Pool} {count : Nat} {id : RecordId}

theorem nextRecords_succ (pool : Pool) (count : Nat) :
    pool.nextRecords (count + 1) =
      pool.nextRecords count ++ [⟨pool.addRecord.1.index + count⟩] := by
  rw [nextRecords, List.range_succ, List.map_append]
  rfl

theorem mem_nextRecords :
    id ∈ pool.nextRecords count ↔
      pool.slots.size ≤ id.index ∧ id.index < pool.slots.size + count := by
  rw [nextRecords, List.mem_map]
  constructor
  · rintro ⟨offset, hoffset, rfl⟩
    have hlt := List.mem_range.mp hoffset
    exact ⟨Nat.le_add_right _ _, Nat.add_lt_add_left hlt _⟩
  · rintro ⟨hle, hlt⟩
    refine ⟨id.index - pool.slots.size, List.mem_range.mpr (by omega), ?_⟩
    rw [addRecord_fst, Nat.add_sub_cancel' hle]

end Pool

namespace Context

open Metainfo.Frame

variable {settings : IngestSettings} {pool : Pool} {context next : Context}
  {tags : List StartTag} {count : Nat}

/-- The tags tell when an application closes that has a record. -/
theorem Follows.closesRecord_eq (h : context.Follows (StartTag.frames tags))
    (settings : IngestSettings) {event : Event}
    (hstop : ∀ name, event = .stop name → tags ≠ []) :
    StartTag.closesRecord tags event =
      (context.record.isSome && (context.step settings event).record.isNone) := by
  have hopen {frames : List Frame} {later : Context} (hlater : later.Follows frames)
      (hframes : OpenApplication frames) : later.record.isNone = false := by
    simpa using hlater.record.mpr hframes
  cases event with
  | text content =>
      have hrecord : (context.step settings (.text content)).record = context.record := by
        rw [Context.step, Context.text]
        split <;> rfl
      rw [hrecord, StartTag.closesRecord]
      cases context.record <;> rfl
  | start name attributes =>
      rw [StartTag.closesRecord, Context.step]
      cases hrecord : context.record with
      | none => rfl
      | some record =>
          have hinside := h.record.mp (by simp [hrecord])
          rw [hopen (h.start name attributes) ((openApplication_cons _ _).mpr (Or.inl hinside))]
          rfl
  | stop name =>
      obtain ⟨tag, outer, rfl⟩ := List.exists_cons_of_ne_nil (hstop name rfl)
      have hstopped : (context.stop settings).Follows (StartTag.frames outer) := h.stop settings
      rw [StartTag.closesRecord, Context.step, Bool.eq_iff_iff, Bool.and_eq_true,
        Option.isNone_iff_eq_none, h.record, StartTag.frames, openApplication_cons]
      constructor
      · intro hmakes
        exact ⟨Or.inr (StartTag.makesRecord_iff.mp hmakes),
          hstopped.record_eq_none (StartTag.current_of_makesRecord hmakes)⟩
      · rintro ⟨hinside | hmakes, hnone⟩
        · simpa [hnone] using hopen hstopped hinside
        · exact StartTag.makesRecord_iff.mpr hmakes

/-- So many records are completed, with the handles that the pool gives out next; an open record
has the one after these, and nothing else became live. -/
structure Numbered (pool : Pool) (count : Nat) (context : Context) : Prop where
  size : context.pool.slots.size = pool.slots.size + count + context.record.toList.length
  record : ∀ id, context.record = some id → id = ⟨pool.addRecord.1.index + count⟩
  completed : context.completed = pool.nextRecords count
  isLive : ∀ id, context.pool.isLive id ↔
    pool.isLive id ∨ pool.slots.size ≤ id.index ∧ id.index < context.pool.slots.size

namespace Numbered

theorem initial (pool : Pool) : Numbered pool 0 (initial pool) where
  size := rfl
  record := by simp [Context.initial]
  completed := rfl
  isLive id := by
    change pool.isLive id ↔ pool.isLive id ∨ pool.slots.size ≤ id.index ∧
      id.index < pool.slots.size
    constructor
    · exact Or.inl
    · rintro (hlive | hbounds)
      · exact hlive
      · omega

theorem of_same_records (h : Numbered pool count context)
    (hsize : next.pool.slots.size = context.pool.slots.size)
    (hlive : ∀ id, next.pool.isLive id = context.pool.isLive id)
    (hrecord : next.record = context.record) (hcompleted : next.completed = context.completed) :
    Numbered pool count next where
  size := by rw [hsize, hrecord, h.size]
  record := by
    rw [hrecord]
    exact h.record
  completed := hcompleted.trans h.completed
  isLive id := by
    rw [hlive, hsize]
    exact h.isLive id

theorem opened (h : Numbered pool count context) (hnone : context.record = none) {id : RecordId}
    (hid : context.pool.addRecord.1 = id)
    (hpool : Pool.EditedTo id context.pool.addRecord.2 next.pool)
    (hnext : next.record = some id) (hcompleted : next.completed = context.completed) :
    Numbered pool count next := by
  have hsize := h.size
  rw [hnone] at hsize
  have hnextSize : next.pool.slots.size = context.pool.slots.size + 1 := by
    rw [hpool.equalExcept.size, Pool.size_addRecord]
  refine ⟨?_, ?_, hcompleted.trans h.completed, ?_⟩
  · rw [hnextSize, hnext, hsize]
    rfl
  · intro other hother
    obtain rfl : id = other := Option.some.inj (hnext.symm.trans hother)
    rw [← hid, Pool.addRecord_fst, hsize]
    rfl
  · rintro ⟨index⟩
    rw [hpool.equalExcept.isLive_eq, Pool.isLive_addRecord_iff, h.isLive, hnextSize,
      Pool.addRecord_fst, RecordId.mk.injEq, or_assoc]
    apply or_congr_right
    simp only [List.length_nil, Option.toList_none] at hsize ⊢
    omega

theorem closed (h : Numbered pool count context) {id : RecordId}
    (hrecord : context.record = some id) (hpool : Pool.EditedTo id context.pool next.pool)
    (hnext : next.record = none) (hcompleted : next.completed = context.completed ++ [id]) :
    Numbered pool (count + 1) next where
  size := by
    rw [hpool.equalExcept.size, h.size, hrecord, hnext]
    rfl
  record := by simp [hnext]
  completed := by
    rw [hcompleted, h.completed, Pool.nextRecords_succ, h.record id hrecord]
  isLive other := by
    rw [hpool.equalExcept.isLive_eq, hpool.equalExcept.size]
    exact h.isLive other

theorem advance (h : Numbered pool count context) (hadvance : Advance context next) :
    Numbered pool (count + (context.record.isSome && next.record.isNone).toNat) next := by
  have hsame (hrecord : next.record = context.record) :
      (context.record.isSome && next.record.isNone).toNat = 0 := by
    rw [hrecord]
    cases context.record <;> rfl
  cases hadvance with
  | idle hpool hnext hcompleted hqueries =>
      rw [hsame hnext]
      exact h.of_same_records (by rw [hpool]) (by simp [hpool]) hnext hcompleted
  | edited id hrecord hpool hnext hcompleted hqueries =>
      rw [hsame (hnext.trans hrecord.symm)]
      exact h.of_same_records hpool.equalExcept.size hpool.equalExcept.isLive_eq
        (hnext.trans hrecord.symm) hcompleted
  | opened id hid hrecord hpool hnext hcompleted hqueries =>
      rw [hrecord]
      exact h.opened hrecord hid hpool hnext hcompleted
  | closed id hrecord hpool hnext hcompleted =>
      rw [hrecord, hnext]
      exact h.closed hrecord hpool hnext hcompleted

theorem run (h : Numbered pool count context) (hfollows : context.Follows (StartTag.frames tags))
    (settings : IngestSettings) {names later : List String} {events : List Event}
    (hlength : tags.length = names.length) (hevents : openNames names events = some later) :
    Numbered pool (count + StartTag.closedRecords tags events) (context.run settings events) := by
  induction events generalizing context count tags names with
  | nil => exact h
  | cons event events ih =>
      rw [openNames_cons] at hevents
      obtain ⟨middle, hmiddle, hevents⟩ := Option.bind_eq_some_iff.mp hevents
      have hstop : ∀ name, event = .stop name → tags ≠ [] := by
        rintro name rfl rfl
        rw [nest_stop_eq_some.mp hmiddle] at hlength
        simp at hlength
      have hframes : ∀ name, event = .stop name → StartTag.frames tags ≠ [] := by
        intro name hevent hnil
        have hempty := StartTag.length_frames tags
        rw [hnil] at hempty
        exact hstop name hevent (List.length_eq_zero_iff.mp hempty.symm)
      have hstep := hfollows.step settings hframes
      rw [← StartTag.frames_follow] at hstep
      have hnext := h.advance (hfollows.advance settings hframes)
      rw [← hfollows.closesRecord_eq settings hstop] at hnext
      rw [StartTag.closedRecords, ← Nat.add_assoc]
      refine ih hnext hstep ?_ hevents
      cases event with
      | start name attributes =>
          obtain rfl := Option.some.inj hmiddle
          exact congrArg (· + 1) hlength
      | text content =>
          obtain rfl := Option.some.inj hmiddle
          exact hlength
      | stop name =>
          rw [nest_stop_eq_some.mp hmiddle] at hlength
          rw [StartTag.follow, List.length_tail, hlength]
          rfl

/-- An application that is given up gives its handle back. -/
theorem abort (h : Numbered pool count context) :
    Numbered pool count context.abort ∧ context.abort.record = none := by
  cases hrecord : context.record with
  | none =>
      rw [abort_of_none hrecord]
      exact ⟨h, hrecord⟩
  | some id =>
      have hid := h.record id hrecord
      have hsize := h.size
      rw [hrecord, Option.toList_some, List.length_singleton] at hsize
      have hlive : context.pool.isLive id := by
        rw [h.isLive, hid, Pool.addRecord_fst]
        right
        simp only
        omega
      have hlast : (context.pool.discard id).slots.size = pool.slots.size + count := by
        rw [Pool.size_discard hlive, hid, Pool.addRecord_fst, if_pos hsize.symm, hsize,
          Nat.add_sub_cancel]
      rw [abort_of_some hrecord]
      refine ⟨⟨hlast, by simp, h.completed, ?_⟩, rfl⟩
      rintro ⟨index⟩
      rw [Pool.isLive_discard_iff, h.isLive, hlast, hid, Pool.addRecord_fst]
      have hbound : pool.isLive ⟨index⟩ → index < pool.slots.size := Pool.index_lt_of_isLive
      simp only [ne_eq, RecordId.mk.injEq]
      constructor
      · rintro ⟨hold | hnew, hother⟩
        · exact Or.inl hold
        · right
          omega
      · rintro (hold | hnew)
        · exact ⟨Or.inl hold, by have := hbound hold; omega⟩
        · exact ⟨Or.inr (by omega), by omega⟩

end Numbered

theorem numbered_run (settings : IngestSettings) (pool : Pool) {events : List Event}
    (h : IsScript events) :
    Numbered pool (StartTag.closedRecords [] events) ((initial pool).run settings events) := by
  obtain ⟨names, hnames⟩ := isScript_iff.mp h
  have hfollows : (initial pool).Follows (StartTag.frames []) := follows_initial pool
  have hrun := (Numbered.initial pool).run hfollows settings rfl hnames
  rwa [Nat.zero_add] at hrun

/-- A document that closes all its elements leaves no record open. -/
theorem record_run_closed (settings : IngestSettings) (pool : Pool) {events : List Event}
    (h : openNames [] events = some []) : ((initial pool).run settings events).record = none := by
  obtain ⟨hfollows, hlength⟩ := (follows_initial pool).run settings rfl h
  rw [List.length_nil, List.length_eq_zero_iff] at hlength
  rw [hlength] at hfollows
  exact hfollows.record_eq_none rfl

/-- The application that opens where a record may begin makes one. -/
theorem Follows.opensRecord_of_makesRecord (h : context.Follows (StartTag.frames tags))
    {name : String} {attributes : Attributes}
    (hmakes : StartTag.makesRecord (⟨name, attributes⟩ :: tags)) :
    context.OpensRecord name attributes where
  left := h.record_eq_none (StartTag.current_of_makesRecord hmakes)
  right := (h.start name attributes).record.mpr
    ((openApplication_cons _ _).mpr (Or.inr (StartTag.makesRecord_iff.mp hmakes)))

end Context

namespace Context.Numbered

variable {pool : Pool} {count : Nat} {context : Context}

/-- What is live when no application is open, however the staged writes are treated. -/
theorem finish (h : Numbered pool count context) (hnone : context.record = none)
    (settings : IngestSettings) :
    (∀ id, (settings.finish context.pool).isLive id ↔
        pool.isLive id ∨ id ∈ pool.nextRecords count) ∧
      (settings.finish context.pool).addRecord.1 = ⟨pool.addRecord.1.index + count⟩ := by
  have hsize := h.size
  rw [hnone, Option.toList_none, List.length_nil, Nat.add_zero] at hsize
  constructor
  · intro id
    rw [Pool.isLive_congr (settings.record?_finish context.pool id), h.isLive, hsize,
      Pool.mem_nextRecords]
  · rw [Pool.addRecord_fst, settings.size_finish, hsize, Pool.addRecord_fst]

end Context.Numbered

/-- The records of a document, read to its end or not, are those of its closed applications for all
languages that stand in containers for all languages only. They get the handles that the pool gives
out next, in the order of the applications; they and nothing else become live, and the handle that
follows the last of them is given out next. -/
theorem ingestReading_numbering (settings : IngestSettings) (pool : Pool) (events : List Event)
    (failure : Option Failure) (hscript : IsScript events)
    (hclosed : failure = none → openNames [] events = some []) :
    let reading := (Context.initial pool).run settings
    let ingested := ingestReading settings pool ⟨events, failure⟩
    let count := StartTag.closedRecords [] events
    let records := pool.nextRecords count
    (reading events).completed = records ∧
      (failure = none → ingested.result = .ok records) ∧
      (∀ id, ingested.pool.isLive id ↔ pool.isLive id ∨ id ∈ records) ∧
      ingested.pool.addRecord.1 = ⟨pool.addRecord.1.index + count⟩ ∧
      ∀ before name attributes rest (children : Fragment),
        events = before ++ .start name attributes :: (children.events ++ .stop name :: rest) →
        StartTag.makesRecord (⟨name, attributes⟩ :: before.foldl StartTag.follow []) →
          let record : RecordId := ⟨pool.addRecord.1.index + StartTag.closedRecords [] before⟩
          (reading before).record = none ∧
          (∀ inner, inner <+: children.events →
            (reading (before ++ .start name attributes :: inner)).record = some record) ∧
          (reading
            (before ++ .start name attributes :: (children.events ++ [.stop name]))).completed =
              (reading before).completed ++ [record] := by
  intro reading ingested count records
  have hnumbered := Context.numbered_run settings pool hscript
  refine ⟨hnumbered.completed, ?_, ?_⟩
  · rintro rfl
    exact congrArg Except.ok hnumbered.completed
  rw [← and_assoc]
  constructor
  · cases failure with
    | none =>
        exact hnumbered.finish (Context.record_run_closed settings pool (hclosed rfl)) settings
    | some failure => exact hnumbered.abort.1.finish hnumbered.abort.2 settings
  · intro before name attributes rest children hevents hmakes record
    have hbefore : IsScript before := (hevents ▸ hscript : IsScript (before ++ _)).of_append
    have hfollows :
        (reading before).Follows (StartTag.frames (before.foldl StartTag.follow [])) := by
      rw [StartTag.frames_followAll]
      exact Context.follows_run settings pool hbefore
    have hopens := hfollows.opensRecord_of_makesRecord hmakes
    have hrecord : (reading before).pool.addRecord.1 = record := by
      have hsize := (Context.numbered_run settings pool hbefore).size
      rw [hopens.1] at hsize
      rw [Pool.addRecord_fst, hsize]
      rfl
    refine ⟨hopens.1, ?_, ?_⟩
    · intro inner hinner
      obtain ⟨-, hopen, -⟩ := hfollows.run_opened settings hopens ⟨children, hinner⟩
      rw [← hrecord, ← hopen]
      simp only [reading, Context.run_append, Context.run_cons]
      rfl
    · have hstop := hfollows.completed_stop_opened settings hopens children
      rw [← hrecord, ← hstop]
      simp only [reading, Context.run_append, Context.run_cons, Context.run_nil]
      rfl

/-- Two records of nested containers, one of them of an application with another one inside; an
application for one language, one in a component for one language, and one that is cut off. -/
theorem ingestReading_numbering_cut :
    let german : Attributes := ⟨[("xml:lang", "de")]⟩
    let first := Fragment.element "component" .empty .empty .empty
    let second := Fragment.element "application" .empty first .empty
    let local? := Fragment.element "component" german first .empty
    let before := Event.start "components" .empty :: (first.events ++
      .start "applications" .empty :: local?.events)
    let events := before ++ (second.events ++
      [.stop "applications", .start "applications" german] ++ first.events ++
        [.stop "applications", .start "component" .empty, .start "name" .empty])
    let pool := (Pool.empty.addRecord.2.addRecord.2).discard ⟨0⟩
    let reading := (Context.initial pool).run (.ofFlags .none)
    let ingested := ingestReading (.ofFlags .none) pool ⟨events, some .unreadable⟩
    (reading events).completed = [⟨2⟩, ⟨3⟩] ∧
      (∀ id, ingested.pool.isLive id ↔ id = ⟨1⟩ ∨ id = ⟨2⟩ ∨ id = ⟨3⟩) ∧
      ingested.pool.addRecord.1 = ⟨4⟩ ∧
      (reading before).record = none ∧
      (reading (before ++ [.start "application" .empty])).record = some ⟨3⟩ := by
  intro german first second local? before events pool reading ingested
  have hscript : IsScript events := isScript_iff.mpr ⟨["name", "component", "components"], rfl⟩
  obtain ⟨hcompleted, -, hlive, hnext, helements⟩ :=
    ingestReading_numbering (.ofFlags .none) pool events (some .unreadable) hscript (by simp)
  have hcount : StartTag.closedRecords [] events = 2 := by decide
  have hrecords : pool.nextRecords 2 = [⟨2⟩, ⟨3⟩] := rfl
  rw [hcount, hrecords] at hcompleted
  simp only [hcount, hrecords] at hlive
  rw [hcount] at hnext
  obtain ⟨hnone, hinside, -⟩ := helements before "application" .empty
    ([.stop "applications", .start "applications" german] ++ first.events ++
      [.stop "applications", .start "component" .empty, .start "name" .empty]) first rfl (by decide)
  have hfirst : StartTag.closedRecords [] before = 1 := by decide
  have hopen := hinside [] List.nil_prefix
  rw [hfirst] at hopen
  refine ⟨hcompleted, ?_, hnext, hnone, hopen⟩
  intro id
  have hpool : pool.isLive id ↔ id = ⟨1⟩ := by
    have hempty : Pool.empty.isLive id = false := rfl
    rw [Pool.isLive_discard_iff, Pool.isLive_addRecord_iff, Pool.isLive_addRecord_iff, hempty]
    simp only [Pool.addRecord_fst, Bool.false_eq_true, false_or]
    constructor
    · rintro ⟨rfl | rfl, hother⟩
      · exact absurd rfl hother
      · rfl
    · rintro rfl
      exact ⟨Or.inr rfl, by decide⟩
  rw [hlive, hpool]
  simp

end Metainfo
