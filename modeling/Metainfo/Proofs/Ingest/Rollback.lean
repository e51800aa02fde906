import Metainfo.Ingest.Basic
import Metainfo.Proofs.Ingest.Edits

/-!
Documents that fail while an application is open. What was read of the application is undone:
the pool is as if the document had failed just before its start tag.
-/

namespace Metainfo

open Metainfo.Markup

namespace Context

open Metainfo.Frame

variable {context : Context} {frames : List Frame} {name : String}
  {attributes : Attributes}

/-- Aborting with an application open leaves the context as it was before its start tag. -/
theorem Follows.abort_run (h : context.Follows frames) (settings : IngestSettings)
    (hwell : context.pool.WellFormed) (hopens : context.OpensRecord name attributes)
    {events : List Event} (hevents : IsScript events) :
    let aborted := ((context.start name attributes).run settings events).abort
    aborted.completed = context.completed ∧ aborted.queries = context.queries ∧
      aborted.pool.WellFormed ∧ context.pool.strings.Extends aborted.pool.strings ∧
        context.pool.Restored aborted.pool := by
  intro aborted
  obtain ⟨hedited, hrecord, hcompleted, hqueries⟩ := h.run_opened settings hopens hevents
  have haborted : aborted =
      { (context.start name attributes).run settings events with
        pool :=
          ((context.start name attributes).run settings events).pool.discard
            context.pool.addRecord.1
        record := none } := by
    simp only [aborted, abort, hrecord]
  rw [haborted]
  refine ⟨hcompleted, hqueries, (hedited.wellFormed hwell.addRecord).discard _, ?_,
    hedited.restored_discard rfl hwell⟩
  rw [Pool.strings_discard]
  exact hedited.equalExcept.strings

end Context

/-- What an ingest leaves of the pool with which its context ends. -/
def IngestSettings.finish (settings : IngestSettings) (pool : Pool) : Pool :=
  if settings.flags.deferWrites then pool else pool.internalize

namespace IngestSettings

variable (settings : IngestSettings) {pool later : Pool}

theorem wellFormed_finish (h : pool.WellFormed) : (settings.finish pool).WellFormed := by
  rw [finish]
  split
  · exact h
  · exact h.internalize

theorem strings_finish_extends (pool : Pool) :
    pool.strings.Extends (settings.finish pool).strings := by
  rw [finish]
  split
  · exact Interner.Extends.refl _
  · exact Pool.strings_internalize_extends pool

theorem size_finish (pool : Pool) :
    (settings.finish pool).slots.size = pool.slots.size := by
  rw [finish]
  split
  · rfl
  · rw [Pool.slots_internalize]

theorem record?_finish (pool : Pool) (id : RecordId) :
    (settings.finish pool).record? id = pool.record? id := by
  rw [finish]
  split
  · rfl
  · exact Pool.record?_internalize pool id

theorem restored_finish (h : pool.Restored later) (hpool : pool.WellFormed)
    (hlater : later.WellFormed) : (settings.finish pool).Restored (settings.finish later) := by
  rw [finish, finish]
  split
  · exact h
  · exact h.internalize hpool hlater

end IngestSettings

/-- A document that fails in an application leaves what it would have left had it failed before the
application's start tag: the completed records stay, and nothing of the last one does. -/
theorem ingestReading_rollback (settings : IngestSettings) (pool : Pool)
    (before after : List Event) (name : String) (attributes : Attributes) (failure : Failure)
    (hpool : pool.Reachable) (hscript : IsScript (before ++ .start name attributes :: after))
    (hopens : ((Context.initial pool).run settings before).OpensRecord name attributes)
    (hopen : ¬ ∃ (children : Fragment) (closing : String) (rest : List Event),
      after = children.events ++ .stop closing :: rest) :
    let earlier := (Context.initial pool).run settings before
    let kept := ingestReading settings pool ⟨before, some failure⟩
    let undone :=
      ingestReading settings pool ⟨before ++ .start name attributes :: after, some failure⟩
    let abandoned := earlier.pool.addRecord.1
    undone.result = kept.result ∧ undone.queries = kept.queries ∧
      undone.pool.records = kept.pool.records ∧
      undone.pool.addRecord.1 = kept.pool.addRecord.1 ∧
      (∀ id, undone.pool.record? id = kept.pool.record? id) ∧
      (∀ id key, undone.pool.lookupText id key = kept.pool.lookupText id key) ∧
      (∀ id key, undone.pool.lookupList id key = kept.pool.lookupList id key) ∧
      undone.pool.staged = kept.pool.staged ∧
      (∀ number text, earlier.pool.resolve? number = some text →
        kept.pool.resolve? number = some text ∧ undone.pool.resolve? number = some text) ∧
      (∀ entry ∈ undone.pool.staged.toList, entry.1 ≠ abandoned) ∧
      (∀ key, undone.pool.lookupText abandoned key = none) ∧
      (∀ key, undone.pool.lookupList abandoned key = []) ∧
      ∀ id ∈ earlier.completed, undone.pool.isLive id := by
  intro earlier kept undone abandoned
  have hbefore : IsScript before := hscript.of_append
  have hfollows := Context.follows_run settings pool hbefore
  have hsound := Context.sound_run settings hpool.wellFormed hbefore
  have hafter : IsScript after := by
    obtain ⟨names, hnames⟩ := isScript_iff.mp hscript
    rw [openNames_append] at hnames
    obtain ⟨outer, -, hrest⟩ := Option.bind_eq_some_iff.mp hnames
    exact isScript_of_not_closed (Option.isSome_of_eq_some hrest) hopen
  obtain ⟨hcompleted, hqueries, hwell, hstrings, hrestored⟩ :=
    hfollows.abort_run settings hsound.pool hopens hafter
  have hkept : kept.pool = settings.finish earlier.pool := by
    have habort : earlier.abort = earlier := by simp only [Context.abort, earlier, hopens.1]
    change settings.finish earlier.abort.pool = _
    rw [habort]
  have hundone : undone.pool = settings.finish
      ((earlier.start name attributes).run settings after).abort.pool := by
    change settings.finish ((Context.initial pool).run settings _).abort.pool = _
    rw [Context.run_append]
    rfl
  have hqueriesKept : kept.queries = earlier.queries := by
    change earlier.abort.queries = _
    simp only [Context.abort, earlier, hopens.1]
  have hqueriesUndone : undone.queries =
      ((earlier.start name attributes).run settings after).abort.queries := by
    change ((Context.initial pool).run settings _).abort.queries = _
    rw [Context.run_append]
    rfl
  have hpools : kept.pool.Restored undone.pool := by
    rw [hkept, hundone]
    exact settings.restored_finish hrestored hsound.pool hwell
  have hundoneWell : undone.pool.WellFormed := by
    rw [hundone]
    exact settings.wellFormed_finish hwell
  have hlive (id : RecordId) : undone.pool.isLive id = earlier.pool.isLive id := by
    rw [hpools.isLive, hkept]
    exact Pool.isLive_congr (settings.record?_finish _ id)
  have habandoned : undone.pool.isLive abandoned = false :=
    (hlive abandoned).trans (Pool.isLive_size earlier.pool)
  refine ⟨rfl, hqueriesUndone.trans (hqueries.trans hqueriesKept.symm), hpools.records,
    hpools.addRecord, hpools.record?, hpools.lookupText, hpools.lookupList, hpools.staged,
    ?_, ?_, hundoneWell.lookupText_of_not_isLive habandoned,
    hundoneWell.lookupList_of_not_isLive habandoned, ?_⟩
  · intro number text htext
    rw [hkept, hundone]
    exact ⟨settings.strings_finish_extends _ number text htext,
      (hstrings.trans (settings.strings_finish_extends _)) number text htext⟩
  · intro entry hentry heq
    rw [← heq, hundoneWell.staged_live entry hentry] at habandoned
    contradiction
  · intro id hid
    rw [hlive]
    exact hsound.completed_live id hid

theorem ingestReading_rollback_unclosed :
    let before : List Event :=
      [.start "components" .empty, .start "component" .empty, .start "project_group" .empty,
        .text "KDE", .stop "project_group", .stop "component"]
    let after : List Event :=
      [.start "project_group" .empty, .text "GNOME", .stop "project_group", .start "name" .empty]
    let pool := Pool.empty.addRecord.2
    let settings := IngestSettings.ofFlags .none
    let kept := ingestReading settings pool ⟨before, some .unreadable⟩
    let undone :=
      ingestReading settings pool ⟨before ++ .start "component" .empty :: after, some .unreadable⟩
    undone.pool.records = kept.pool.records ∧
      ∀ id key, undone.pool.lookupList id key = kept.pool.lookupList id key := by
  intro before after pool settings kept undone
  have hscript : IsScript (before ++ .start "component" .empty :: after) :=
    isScript_iff.mpr ⟨_, rfl⟩
  have hfollows := Context.follows_run settings pool hscript.of_append
  have hframes : Frame.followAll [] before = [.known .start false] := by decide
  rw [hframes] at hfollows
  have hopens : ((Context.initial pool).run settings before).OpensRecord "component" .empty := by
    refine ⟨hfollows.record_eq_none rfl, (hfollows.start "component" .empty).record.mpr ?_⟩
    exact ⟨[], [.known .start false], by decide, by simp [Frame.isLocalized]⟩
  obtain ⟨-, -, hrecords, -, -, -, hlists, -⟩ :=
    ingestReading_rollback settings pool before after "component" .empty .unreadable
      ⟨[.addRecord], rfl⟩ hscript hopens (not_closed_of_isScript (isScript_iff.mpr ⟨_, rfl⟩))
  exact ⟨hrecords, hlists⟩

end Metainfo
