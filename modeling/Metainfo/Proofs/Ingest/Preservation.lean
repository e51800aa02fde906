import Metainfo.Proofs.Ingest.Completed
import Metainfo.Proofs.Markup.Reading

/-!
What a document leaves of the pool it is ingested into. Every write of a run is addressed to the
record that the run opened last, so the records from before keep all that is known of them,
and their staged writes keep their places in front of the new ones.
-/

namespace Metainfo

open Metainfo.Markup

namespace Context

variable {pool : Pool} {context next : Context}

theorem strings_abort (context : Context) :
    context.abort.pool.strings = context.pool.strings := by
  cases h : context.record with
  | none => rw [abort_of_none h]
  | some id =>
      rw [abort_of_some h]
      exact Pool.strings_discard _ _

theorem wellFormed_abort (h : context.pool.WellFormed) : context.abort.pool.WellFormed := by
  cases hrecord : context.record with
  | none => rwa [abort_of_none hrecord]
  | some id =>
      rw [abort_of_some hrecord]
      exact h.discard id

/-- What was staged is so still, in front; the writes behind it and the open record are those of
records that the pool did not have. -/
structure StagedSince (pool : Pool) (context : Context) : Prop where
  staged : ∃ writes, context.pool.staged.toList = pool.staged.toList ++ writes ∧
    ∀ entry ∈ writes, pool.isLive entry.1 = false
  record_new : ∀ id, context.record = some id → pool.isLive id = false
  isLive : ∀ id, pool.isLive id → context.pool.isLive id

namespace StagedSince

theorem initial (pool : Pool) : StagedSince pool (initial pool) where
  staged := ⟨[], (List.append_nil _).symm, by simp⟩
  record_new := by simp [Context.initial]
  isLive _ hid := hid

/-- Writes to a record that the pool did not have go behind what was staged. -/
theorem edited {before after : Pool} {id : RecordId}
    (h : ∃ writes, before.staged.toList = pool.staged.toList ++ writes ∧
      ∀ entry ∈ writes, pool.isLive entry.1 = false)
    (hid : pool.isLive id = false) (hedited : Pool.EditedTo id before after) :
    ∃ writes, after.staged.toList = pool.staged.toList ++ writes ∧
      ∀ entry ∈ writes, pool.isLive entry.1 = false := by
  obtain ⟨earlier, hearlier, hforeign⟩ := h
  obtain ⟨later, hlater, howned⟩ := hedited.equalExcept.staged
  refine ⟨earlier ++ later, by rw [hlater, hearlier, List.append_assoc], ?_⟩
  intro entry hentry
  rcases List.mem_append.mp hentry with hold | hnew
  · exact hforeign entry hold
  · rw [howned entry hnew]
    exact hid

theorem advance (h : StagedSince pool context) (hadvance : Advance context next) :
    StagedSince pool next := by
  cases hadvance with
  | idle hpool hnext hcompleted hqueries =>
      exact ⟨hpool ▸ h.staged, hnext ▸ h.record_new, hpool ▸ h.isLive⟩
  | opened id hid hrecord hpool hnext hcompleted hqueries =>
      have hdead : pool.isLive id = false := by
        rw [Bool.eq_false_iff]
        intro hlive
        have hfresh := Pool.isLive_size context.pool
        rw [← Pool.addRecord_fst, hid, h.isLive id hlive] at hfresh
        contradiction
      have hbefore : ∃ writes, context.pool.addRecord.2.staged.toList =
          pool.staged.toList ++ writes ∧ ∀ entry ∈ writes, pool.isLive entry.1 = false := h.staged
      have hstaged := edited hbefore hdead hpool
      refine ⟨hstaged, ?_, fun other hother => ?_⟩
      · rintro other hother
        obtain rfl : id = other := Option.some.inj (hnext.symm.trans hother)
        exact hdead
      · rw [hpool.equalExcept.isLive_eq]
        exact (Pool.isLive_addRecord_iff context.pool other).mpr (Or.inl (h.isLive other hother))
  | edited id hrecord hpool hnext hcompleted hqueries =>
      refine ⟨edited h.staged (h.record_new id hrecord) hpool, ?_, fun other hother => ?_⟩
      · rw [hnext, ← hrecord]
        exact h.record_new
      · rw [hpool.equalExcept.isLive_eq]
        exact h.isLive other hother
  | closed id hrecord hpool hnext hcompleted =>
      refine ⟨edited h.staged (h.record_new id hrecord) hpool, by simp [hnext], ?_⟩
      intro other hother
      rw [hpool.equalExcept.isLive_eq]
      exact h.isLive other hother

/-- Giving up the open record takes writes away, none of those from before among them. -/
theorem abort (h : StagedSince pool context) (hpool : pool.WellFormed) :
    StagedSince pool context.abort := by
  cases hrecord : context.record with
  | none =>
      rw [abort_of_none hrecord]
      exact h
  | some id =>
      rw [abort_of_some hrecord]
      have hdead := h.record_new id hrecord
      have hother {other : RecordId} (hlive : pool.isLive other) : other ≠ id := by
        rintro rfl
        rw [hdead] at hlive
        contradiction
      refine ⟨?_, by simp, fun other hlive => ?_⟩
      · cases hlive : context.pool.isLive id with
        | false =>
            rw [Pool.discard_of_not_isLive hlive]
            exact h.staged
        | true =>
            obtain ⟨writes, hstaged, hforeign⟩ := h.staged
            have hkept : pool.staged.toList.filter (fun entry => entry.1 != id) =
                pool.staged.toList :=
              List.filter_eq_self.mpr fun entry hentry => by
                simpa using hother (hpool.staged_live entry hentry)
            refine ⟨writes.filter fun entry => entry.1 != id, ?_, ?_⟩
            · rw [Pool.staged_discard hlive, hstaged, List.filter_append, hkept]
            · exact fun entry hentry => hforeign entry (List.mem_of_mem_filter hentry)
      · exact (Pool.isLive_discard_iff _ _ _).mpr ⟨h.isLive other hlive, hother hlive⟩

end StagedSince

theorem stagedSince_run (settings : IngestSettings) (pool : Pool) {events : List Event}
    (h : IsScript events) : StagedSince pool ((initial pool).run settings events) := by
  obtain ⟨names, hnames⟩ := isScript_iff.mp h
  exact (follows_initial pool).run_invariant (fun _ _ hcontext => hcontext.advance) settings rfl
    hnames (.initial pool)

/-- The context with which a reading is over: the application that a failure leaves open has been
given up. -/
def ended (settings : IngestSettings) (pool : Pool) (reading : Reading) : Context :=
  let context := (initial pool).run settings reading.events
  if reading.failure.isSome then context.abort else context

end Context

section

variable (settings : IngestSettings) {pool : Pool} {reading : Reading}

theorem pool_ingestReading (pool : Pool) (reading : Reading) :
    (ingestReading settings pool reading).pool =
      settings.finish (Context.ended settings pool reading).pool := rfl

/-- What was live before a document is so after it, and shows the same. -/
theorem kept_live_ingestReading (hpool : pool.WellFormed) (h : IsScript reading.events)
    {id : RecordId} (hid : pool.isLive id) :
    Pool.Kept id pool (ingestReading settings pool reading).pool := by
  have hsettled : ((Context.initial pool).run settings []).Settled id :=
    ⟨hpool, hid, by simp [Context.initial, Context.run_nil]⟩
  exact @kept_ingestReading settings pool [] _ id reading.failure h hsettled

theorem strings_ingestReading_extends (pool : Pool) (h : IsScript reading.events) :
    pool.strings.Extends (ingestReading settings pool reading).pool.strings := by
  rw [pool_ingestReading]
  refine Interner.Extends.trans ?_ (settings.strings_finish_extends _)
  have hrun := Context.strings_run_extends settings pool h
  rw [Context.ended]
  split
  · rwa [Context.strings_abort]
  · exact hrun

theorem wellFormed_ingestReading (hpool : pool.WellFormed) (h : IsScript reading.events) :
    (ingestReading settings pool reading).pool.WellFormed := by
  rw [pool_ingestReading]
  refine settings.wellFormed_finish ?_
  have hsound := (Context.sound_run settings hpool h).pool
  rw [Context.ended]
  split
  · exact Context.wellFormed_abort hsound
  · exact hsound

/-- A document that defers its writes stages them behind those that were there, and all of them
are writes of its own records; otherwise nothing stays staged. -/
theorem staged_ingestReading (hpool : pool.WellFormed) (h : IsScript reading.events) :
    let final := (ingestReading settings pool reading).pool
    if settings.flags.deferWrites then
      ∃ writes, final.staged.toList = pool.staged.toList ++ writes ∧
        ∀ entry ∈ writes, pool.isLive entry.1 = false
    else final.staged = #[] := by
  intro final
  have hover : Context.StagedSince pool (Context.ended settings pool reading) := by
    have hrun := Context.stagedSince_run settings pool h
    rw [Context.ended]
    split
    · exact hrun.abort hpool
    · exact hrun
  have hfinal : final = settings.finish (Context.ended settings pool reading).pool := rfl
  rw [hfinal, IngestSettings.finish]
  cases settings.flags.deferWrites with
  | true => exact hover.staged
  | false => exact Pool.staged_internalize _

end

/-- Whatever a document holds and however it ends, the records from before are live and the same
in all their parts, and the numbers from before stand for the same texts. If writes are deferred,
those staged before come first and in their order, and the writes behind them are to new records
only; otherwise nothing stays staged. -/
theorem ingest_preserves (settings : IngestSettings) (pool : Pool) (source : Source)
    (hpool : pool.Reachable) :
    let final := (ingest settings pool source).pool
    (∀ record, pool.isLive record →
      final.isLive record ∧
        final.name? record = pool.name? record ∧
        final.arch? record = pool.arch? record ∧
        final.version? record = pool.version? record ∧
        final.requires record = pool.requires record ∧
        final.provides record = pool.provides record ∧
        (∀ key, final.lookupText record key = pool.lookupText record key) ∧
        ∀ key, final.lookupList record key = pool.lookupList record key) ∧
      (∀ number text, pool.resolve? number = some text → final.resolve? number = some text) ∧
      (settings.flags.deferWrites = true →
        ∃ writes, final.staged.toList = pool.staged.toList ++ writes ∧
          ∀ entry ∈ writes, pool.isLive entry.1 = false) ∧
      (settings.flags.deferWrites = false → final.staged = #[]) := by
  intro final
  have hscript : IsScript (Markup.read source).events := isScript_read source
  have hstaged := staged_ingestReading settings hpool.wellFormed hscript
  refine ⟨fun record hlive => ?_, ?_, ?_, ?_⟩
  · have hkept : Pool.Kept record pool final :=
      kept_live_ingestReading settings hpool.wellFormed hscript hlive
    have hrecord := hkept.record?
    refine ⟨hkept.isLive.trans hlive, hkept.name?, ?_, ?_, ?_, ?_, hkept.lookupText,
      hkept.lookupList⟩
    · rw [Pool.arch?, Pool.arch?, hrecord]
    · rw [Pool.version?, Pool.version?, hrecord]
    · rw [Pool.requires, Pool.requires, hrecord]
    · rw [Pool.provides, Pool.provides, hrecord]
  · exact strings_ingestReading_extends settings pool hscript
  · intro hdefer
    rwa [if_pos hdefer] at hstaged
  · intro hdefer
    rwa [if_neg (by simp [hdefer])] at hstaged

/-- A document that breaks off inside an application, read into a pool in which a write waits. -/
theorem ingest_preserves_broken :
    let pool := Pool.empty.addRecord.2.addToList ⟨0⟩ .files "/usr/share/a.metainfo.xml"
    let flags := { Flags.none with deferWrites := true }
    let settings : IngestSettings := ⟨flags, none, [⟨0⟩, ⟨7⟩], none⟩
    let source := Source.ofBytes <| Utf8.encode "<component><name>A</name><summary>B</name>"
    let final := (ingest settings pool source).pool
    final.isLive ⟨0⟩ ∧
      final.lookupList ⟨0⟩ .files = ["/usr/share/a.metainfo.xml"] ∧
      ∃ writes, final.staged.toList =
        (⟨0⟩, .push .files "/usr/share/a.metainfo.xml") :: writes := by
  intro pool flags settings source final
  obtain ⟨hrecords, -, hdeferred, -⟩ := ingest_preserves settings pool source
    ⟨[.addRecord, .addToList ⟨0⟩ .files "/usr/share/a.metainfo.xml"], rfl⟩
  obtain ⟨hlive, -, -, -, -, -, -, hlists⟩ := hrecords ⟨0⟩ (by decide)
  obtain ⟨writes, hstaged, -⟩ := hdeferred rfl
  have hlisted : pool.lookupList ⟨0⟩ .files = ["/usr/share/a.metainfo.xml"] := by
    have hempty : Pool.empty.addRecord.2.lookupList ⟨0⟩ .files = [] := by
      simp [Pool.lookupList, Pool.addRecord, Pool.empty]
    have hadded : Pool.empty.addRecord.2.isLive ⟨0⟩ = true := by decide
    exact (Pool.lookupList_stage hadded _ _ _).trans (by rw [hempty]; rfl)
  exact ⟨hlive, (hlists .files).trans hlisted, writes, hstaged⟩

end Metainfo
