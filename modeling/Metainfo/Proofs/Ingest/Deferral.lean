import Metainfo.Proofs.Ingest.Context
import Metainfo.Proofs.Ingest.Sequence
import Metainfo.Proofs.Pool.Alike

/-!
When the staged writes are carried out makes no difference to what documents come to. Over pools
that stand for the same plain store a document does the same, step by step, and carrying writes out
leaves the plain store as it is.
-/

namespace Metainfo

open Metainfo.Markup

namespace Completion

variable {settings : IngestSettings} {findings : Findings} {pool other : Pool}
  (h : pool.Alike other) (record : RecordId)

include h

theorem alike_fillDefaults :
    (fillDefaults pool record).Alike (fillDefaults other record) := by
  have harch : (if (pool.arch? record).isNone then pool.setArch record .noarch else pool).Alike
      (if (other.arch? record).isNone then other.setArch record .noarch else other) := by
    have hrel := h.arch? record
    generalize pool.arch? record = arch, other.arch? record = counterpart at hrel ⊢
    cases hrel with
    | none => exact h.setArch (h.sameText_predefined rfl) record
    | some _ => exact h
  have hversion {ours theirs : Pool} (hpools : ours.Alike theirs) :
      (if (ours.version? record).isNone then ours.setVersion record .empty else ours).Alike
        (if (theirs.version? record).isNone then theirs.setVersion record .empty else theirs) := by
    have hrel := hpools.version? record
    generalize ours.version? record = version, theirs.version? record = counterpart at hrel ⊢
    cases hrel with
    | none => exact hpools.setVersion (hpools.sameText_predefined rfl) record
    | some _ => exact hpools
  exact hversion harch

theorem query?_alike :
    query? settings findings other record = query? settings findings pool record := by
  rw [query?, query?]
  have hrel := h.name? record
  generalize pool.name? record = name, other.name? record = counterpart at hrel ⊢
  cases hrel with
  | none => rfl
  | some _ => rfl

theorem entry?_alike :
    entry? settings findings other record = entry? settings findings pool record := by
  rw [ entry?, entry?, query?_alike h]

theorem alike_setNameText (name : String) :
    (setNameText pool record name).Alike (setNameText other record name) := by
  obtain ⟨hintern, hsame⟩ := h.intern name
  exact hintern.setName hsame record

theorem alike_nameFromEntry (entry : DesktopEntry) :
    (nameFromEntry entry pool record).Alike (nameFromEntry entry other record) := by
  rw [nameFromEntry, nameFromEntry]
  have hrel := h.name? record
  generalize pool.name? record = name, other.name? record = counterpart at hrel ⊢
  cases hrel with
  | some _ => exact h
  | none =>
      cases entry.name with
      | none => exact h
      | some name => exact alike_setNameText h record _

theorem alike_summaryFromEntry (entry : DesktopEntry) :
    (summaryFromEntry findings entry pool record).Alike
      (summaryFromEntry findings entry other record) := by
  rw [summaryFromEntry, summaryFromEntry]
  split
  · exact h.setText record .summary _
  · exact h

theorem alike_fillIfFound :
    (fillIfFound settings findings pool record).Alike
      (fillIfFound settings findings other record) := by
  rw [fillIfFound, fillIfFound, entry?_alike h]
  split
  · exact h
  · rw [fillFromEntry_eq, fillFromEntry_eq]
    exact alike_summaryFromEntry (alike_nameFromEntry h record _) record _

theorem alike_fillNameFromId :
    (fillNameFromId findings pool record).Alike (fillNameFromId findings other record) := by
  rw [fillNameFromId, fillNameFromId]
  have hrel := h.name? record
  generalize pool.name? record = name, other.name? record = counterpart at hrel ⊢
  cases findings.id with
  | none => exact h
  | some id =>
      cases hrel with
      | none => exact alike_setNameText h record _
      | some _ => exact h

theorem alike_link {requirement counterpart : StringId}
    (hsame : pool.SameText other requirement counterpart) (target : String) :
    (link pool record requirement target).Alike (link other record counterpart target) := by
  let provided := Naming.appdataLink target
  obtain ⟨hintern, hprovided⟩ := h.intern provided
  have hrequirement := hsame.perform (.intern provided) (.intern provided)
  exact (hintern.addRequires hrequirement record).addProvides
    (hprovided.perform (.addRequires record requirement none)
      (.addRequires record counterpart none)) record

theorem alike_linkPackage (package : String) :
    (linkPackage pool record package).Alike (linkPackage other record package) := by
  obtain ⟨hintern, hsame⟩ := h.intern package
  exact alike_link hintern record hsame package

theorem alike_linkOwner (owner : RecordId) :
    (linkOwner record pool owner).Alike (linkOwner record other owner) := by
  rw [linkOwner, linkOwner]
  have hrel := h.name? owner
  generalize pool.name? owner = name, other.name? owner = counterpart at hrel ⊢
  cases hrel with
  | none => exact h
  | some hsame =>
      obtain ⟨text, hname, hcounterpart⟩ := id hsame
      simp only [hname, hcounterpart]
      exact alike_link h record hsame text

theorem alike_linkOwners :
    (linkOwners settings pool record).Alike (linkOwners settings other record) := by
  have hall (owners : List RecordId) : (owners.foldl (linkOwner record) pool).Alike
      (owners.foldl (linkOwner record) other) := by
    induction owners generalizing pool other with
    | nil => exact h
    | cons owner owners ih => exact ih (alike_linkOwner h record owner)
  rw [linkOwners, linkOwners, h.hasRequires]
  split
  · exact h
  · exact hall settings.owners

theorem alike_linkFile :
    (linkFile settings findings pool record).Alike (linkFile settings findings other record) := by
  rw [linkFile, linkFile, h.hasRequires]
  split
  · exact h
  · split
    · exact h
    · obtain ⟨hintern, hsame⟩ := h.intern (Naming.appdataRequirement _)
      exact alike_link hintern record hsame _

theorem alike_provideSelf :
    (provideSelf pool record).Alike (provideSelf other record) := by
  have hversion : pool.SameText other ((pool.version? record).getD .empty)
      ((other.version? record).getD .empty) := by
    have hrel := h.version? record
    generalize pool.version? record = version, other.version? record = counterpart at hrel ⊢
    cases hrel with
    | none => exact h.sameText_predefined rfl
    | some hversion => exact hversion
  rw [provideSelf, provideSelf]
  have hname := h.name? record
  have harch := h.arch? record
  generalize pool.name? record = name, other.name? record = nameCounterpart,
    pool.arch? record = arch, other.arch? record = archCounterpart at hname harch ⊢
  cases hname with
  | none => exact h
  | some hname =>
      cases harch with
      | none => exact h
      | some harch =>
          simp only [h.isSourceArch harch]
          split
          · exact h
          · exact h.addProvides_equals hname hversion record

theorem alike_complete :
    (complete settings findings pool record).Alike (complete settings findings other record) := by
  have hentry : (fillIfFound settings findings (fillDefaults pool record) record).Alike
      (fillIfFound settings findings (fillDefaults other record) record) :=
    alike_fillIfFound (alike_fillDefaults h record) record
  have hname : (fillNameFromId findings _ record).Alike (fillNameFromId findings _ record) :=
    alike_fillNameFromId hentry record
  exact alike_provideSelf (alike_linkFile (alike_linkOwners hname record) record) record

end Completion

namespace Context

/-- The readings of a document stand at the same point, over pools that stand for the same store. -/
def Parallel (context other : Context) : Prop :=
  ∃ pool, other = { context with pool } ∧ context.pool.Alike pool

namespace Parallel

variable {context other : Context}

theorem pool (h : context.Parallel other) : context.pool.Alike other.pool := by
  obtain ⟨pool, rfl, hpool⟩ := h
  exact hpool

theorem queries (h : context.Parallel other) : other.queries = context.queries := by
  obtain ⟨pool, rfl, -⟩ := h
  rfl

theorem enter (h : context.Parallel other) (attributes : Attributes) :
    (context.enter attributes).Parallel (other.enter attributes) := by
  obtain ⟨pool, rfl, hpool⟩ := h
  -- Both contexts have the element in common, so that one case split serves for both.
  obtain ⟨first, depth, knownDepth, element, skipDepth, captures, content, description, record,
    findings, completed, queries⟩ := context
  cases element
  case application =>
    refine ⟨_, ?_, hpool.addRecord.setText first.addRecord.1 .category (categoryOf attributes)⟩
    simp only [Context.enter, hpool.addRecord_fst]
  all_goals exact ⟨pool, rfl, hpool⟩

theorem start (h : context.Parallel other) (name : String) (attributes : Attributes) :
    (context.start name attributes).Parallel (other.start name attributes) := by
  obtain ⟨pool, rfl, hpool⟩ := h
  -- Which way an element opens is told without the pool; only an application looks at it.
  by_cases hdepth : context.depth = context.knownDepth
  · cases htransition : context.element.transition? name with
    | none =>
        rw [start_unknown htransition, start_unknown (by exact htransition)]
        exact ⟨pool, rfl, hpool⟩
    | some transition =>
        rcases Option.eq_none_or_eq_some context.skipDepth with hskip | ⟨skipped, hskip⟩
        · cases hlocalized : (attributes.get? languageAttribute).isSome with
          | true =>
              rw [start_localized hdepth htransition hskip hlocalized,
                start_localized (by exact hdepth) (by exact htransition) (by exact hskip)
                  hlocalized]
              exact ⟨pool, rfl, hpool⟩
          | false =>
              rw [start_known hdepth htransition hskip hlocalized,
                start_known (by exact hdepth) (by exact htransition) (by exact hskip) hlocalized]
              refine enter ?_ attributes
              exact ⟨pool, rfl, hpool⟩
        · rw [start_skipped hdepth htransition hskip,
            start_skipped (by exact hdepth) (by exact htransition) (by exact hskip)]
          exact ⟨pool, rfl, hpool⟩
  · rw [start_deeper hdepth, start_deeper (by exact hdepth)]
    exact ⟨pool, rfl, hpool⟩

theorem closeApplication (h : context.Parallel other) (settings : IngestSettings)
    (record : RecordId) :
    (context.closeApplication settings record).Parallel
      (other.closeApplication settings record) := by
  obtain ⟨pool, rfl, hpool⟩ := h
  refine ⟨_, ?_, Completion.alike_complete hpool record⟩
  simp only [Context.closeApplication,
    Completion.query?_alike (Completion.alike_fillDefaults hpool record)]

theorem leaveIn (h : context.Parallel other) (settings : IngestSettings) (record : RecordId) :
    (context.leaveIn settings record).Parallel (other.leaveIn settings record) := by
  obtain ⟨pool, rfl, hpool⟩ := h
  obtain ⟨_, depth, knownDepth, element, skipDepth, captures, content, description, open?,
    findings, completed, queries⟩ := context
  cases element
  case application => exact closeApplication ⟨pool, rfl, hpool⟩ settings record
  case name => exact ⟨_, rfl, Completion.alike_setNameText hpool record _⟩
  case summary => exact ⟨_, rfl, hpool.setText record _ _⟩
  case url => exact ⟨_, rfl, hpool.setText record _ _⟩
  case licence => exact ⟨_, rfl, hpool.addToList record _ _⟩
  case group => exact ⟨_, rfl, hpool.addToList record _ _⟩
  case extensions => exact ⟨_, rfl, hpool.addToList record _ _⟩
  case keyword => exact ⟨_, rfl, hpool.addToList record _ _⟩
  case pkgname => exact ⟨_, rfl, Completion.alike_linkPackage hpool record _⟩
  case description =>
    simp only [Context.leaveIn]
    rcases description.finish with ⟨_ | text, description⟩
    · exact ⟨pool, rfl, hpool⟩
    · exact ⟨_, rfl, hpool.setText record _ _⟩
  all_goals exact ⟨pool, rfl, hpool⟩

theorem leave (h : context.Parallel other) (settings : IngestSettings) :
    (context.leave settings).Parallel (other.leave settings) := by
  have hother : other.record = context.record := by
    obtain ⟨pool, rfl, -⟩ := h
    rfl
  cases hrecord : context.record with
  | none =>
      rwa [leave_of_none settings hrecord, leave_of_none settings (hother.trans hrecord)]
  | some record =>
      rw [leave_of_some settings hrecord, leave_of_some settings (hother.trans hrecord)]
      exact h.leaveIn settings record

/-- What surrounds an element that is left. -/
theorem around (h : context.Parallel other) :
    Parallel
      { context with element := vocabularyTable.parent context.element, captures := false }
      { other with element := vocabularyTable.parent other.element, captures := false } := by
  obtain ⟨pool, rfl, hpool⟩ := h
  exact ⟨pool, rfl, hpool⟩

theorem stop (h : context.Parallel other) (settings : IngestSettings) :
    (context.stop settings).Parallel (other.stop settings) := by
  obtain ⟨pool, rfl, hpool⟩ := h
  have hshallower (skipDepth : Option Nat) : Parallel { context.shallower with skipDepth }
      { Context.shallower { context with pool } with skipDepth } := ⟨pool, rfl, hpool⟩
  simp only [Context.stop]
  split
  · exact ⟨pool, rfl, hpool⟩
  · refine around ?_
    split
    · exact (hshallower _).leave settings
    · split
      · exact hshallower _
      · split
        · exact hshallower none
        · exact (hshallower none).leave settings

theorem text (h : context.Parallel other) (content : String) :
    (context.text content).Parallel (other.text content) := by
  obtain ⟨pool, rfl, hpool⟩ := h
  simp only [Context.text]
  split <;> exact ⟨pool, rfl, hpool⟩

theorem run (h : context.Parallel other) (settings : IngestSettings) (events : List Event) :
    (context.run settings events).Parallel (other.run settings events) := by
  induction events generalizing context other with
  | nil => exact h
  | cons event events ih =>
      cases event with
      | start name attributes => exact ih (h.start name attributes)
      | stop name => exact ih (h.stop settings)
      | text content => exact ih (h.text content)

theorem abort (h : context.Parallel other) : context.abort.Parallel other.abort := by
  obtain ⟨pool, rfl, hpool⟩ := h
  simp only [Context.abort]
  split
  · exact ⟨pool, rfl, hpool⟩
  · exact ⟨_, rfl, hpool.discard _⟩

end Parallel

end Context

/-- The same flags, but for whether writes stay staged. -/
def Flags.deferring (flags : Flags) (defer : Bool) : Flags :=
  { flags with deferWrites := defer }

def IngestSettings.deferring (settings : IngestSettings) (defer : Bool) : IngestSettings :=
  { settings with flags := settings.flags.deferring defer }

namespace Context

/-- Reading does not ask what becomes of the staged writes. -/
theorem run_deferring (settings : IngestSettings) (defer : Bool) (context : Context)
    (events : List Event) :
    context.run (settings.deferring defer) events = context.run settings events :=
  rfl

end Context

namespace Pool.Alike

variable {pool other : Pool}

theorem ended (h : pool.Alike other) (settings : IngestSettings) (defer : Bool)
    (reading : Reading) :
    (Context.ended settings pool reading).Parallel
      (Context.ended (settings.deferring defer) other reading) := by
  have hinitial : (Context.initial pool).Parallel (.initial other) := ⟨other, rfl, h⟩
  have hrun := hinitial.run settings reading.events
  simp only [Context.ended, Context.run_deferring]
  split
  · exact hrun.abort
  · exact hrun

end Pool.Alike

/-- Two runs answer the same and leave pools that stand for the same store. -/
structure Ingested.Alike (ingested other : Ingested) : Prop where
  result : other.result = ingested.result
  queries : other.queries = ingested.queries
  pool : ingested.pool.Alike other.pool

/-- What runs that are alike have in common is the same for each of them. -/
theorem Ingested.Alike.map_eq {Shown : Type} {shown : Ingested → Shown}
    (hshown : ∀ ingested other : Ingested, ingested.Alike other → shown other = shown ingested)
    {first second : List Ingested} (h : first.Forall₂ Ingested.Alike second) :
    second.map shown = first.map shown := by
  induction h with
  | nil => rfl
  | cons h _ ih => rw [List.map_cons, List.map_cons, hshown _ _ h, ih]

def Job.deferring (job : Job) (defer : Bool) : Job :=
  { job with settings := job.settings.deferring defer }

section

variable {pool other : Pool}

/-- A document comes to the same over pools that are alike, whether or not its writes stay
staged. -/
theorem alike_ingest (h : pool.Alike other) (settings : IngestSettings) (defer : Bool)
    (source : Source) :
    (ingest settings pool source).Alike (ingest (settings.deferring defer) other source) := by
  have hended := h.ended settings defer (Markup.read source)
  refine ⟨?_, hended.queries, ?_⟩
  · rw [result_ingest, result_ingest, completedRecords_eq, completedRecords_eq, Pool.nextRecords,
      Pool.nextRecords, h.addRecord_fst]
  · rw [ingest, ingest, pool_ingestReading, pool_ingestReading]
    exact hended.pool.carriedOut settings.flags.deferWrites defer

theorem coherent_ingest (h : pool.Coherent) (settings : IngestSettings) (source : Source) :
    (ingest settings pool source).pool.Coherent :=
  (alike_ingest (.refl h) settings settings.flags.deferWrites source).pool.left

theorem alike_ingestInTurn (h : pool.Alike other) (jobs : List Job) (defer : Bool) :
    (ingestInTurn pool jobs).Forall₂ Ingested.Alike
        (ingestInTurn other (jobs.map (·.deferring defer))) ∧
      (poolAfter pool jobs).Alike (poolAfter other (jobs.map (·.deferring defer))) := by
  induction jobs generalizing pool other with
  | nil => exact ⟨.nil, h⟩
  | cons job jobs ih =>
      have hjob : (job.ingest pool).Alike ((job.deferring defer).ingest other) :=
        alike_ingest h job.settings defer job.source
      obtain ⟨hingested, hpool⟩ := ih hjob.pool
      exact ⟨.cons hjob hingested, hpool⟩

theorem coherent_poolAfter (h : pool.Coherent) (jobs : List Job) :
    (poolAfter pool jobs).Coherent := by
  induction jobs generalizing pool with
  | nil => exact h
  | cons job jobs ih => exact ih (coherent_ingest h job.settings job.source)

end

end Metainfo
