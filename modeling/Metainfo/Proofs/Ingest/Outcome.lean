import Metainfo.Proofs.Ingest.Balance
import Metainfo.Proofs.Ingest.Preservation

/-!
The records that a document leaves, whether it is read to its end or not. They are the ones that it
completes; a record that a failure leaves open is gone, with its number.
-/

namespace Metainfo

open Metainfo.Markup

/-- The records that a document completes, up to the place where its reading ends. -/
def completedRecords (settings : IngestSettings) (pool : Pool) (source : Source) : List RecordId :=
  ((Context.initial pool).run settings (Markup.read source).events).completed

section

variable (settings : IngestSettings) (pool : Pool) (source : Source)

theorem result_ingest :
    (ingest settings pool source).result =
      match (Markup.read source).failure with
      | none => .ok (completedRecords settings pool source)
      | some failure => .error failure := by
  rw [ingest, ingestReading, completedRecords]
  cases (Markup.read source).failure <;> rfl

theorem completedRecords_eq :
    completedRecords settings pool source =
      pool.nextRecords (StartTag.closedRecords [] (Markup.read source).events) :=
  (Context.numbered_run settings pool (isScript_read source)).completed

theorem length_completedRecords :
    (completedRecords settings pool source).length =
      StartTag.closedRecords [] (Markup.read source).events := by
  simp [completedRecords_eq, Pool.nextRecords]

/-- When a document is over no record is open, and those it has completed got the next numbers. -/
theorem numbered_ended :
    Context.Numbered pool (StartTag.closedRecords [] (Markup.read source).events)
        (Context.ended settings pool (Markup.read source)) ∧
      (Context.ended settings pool (Markup.read source)).record = none := by
  have hnumbered := Context.numbered_run settings pool (isScript_read source)
  obtain ⟨-, hclosed⟩ := deliverable_read source
  rw [Context.ended]
  cases hfailure : (Markup.read source).failure with
  | some failure => exact hnumbered.abort
  | none =>
      obtain ⟨name, attributes, children, hevents⟩ := hclosed hfailure
      have hnested : openNames [] (Markup.read source).events = some [] := by
        rw [hevents, openNames_fragment]
      exact ⟨hnumbered, Context.record_run_closed settings pool hnested⟩

theorem isLive_ingest (id : RecordId) :
    (ingest settings pool source).pool.isLive id ↔
      pool.isLive id ∨ id ∈ completedRecords settings pool source := by
  obtain ⟨hnumbered, hnone⟩ := numbered_ended settings pool source
  rw [completedRecords_eq]
  exact (hnumbered.finish hnone settings).1 id

theorem addRecord_ingest :
    (ingest settings pool source).pool.addRecord.1 =
      ⟨pool.addRecord.1.index + (completedRecords settings pool source).length⟩ := by
  obtain ⟨hnumbered, hnone⟩ := numbered_ended settings pool source
  rw [length_completedRecords]
  exact (hnumbered.finish hnone settings).2

end

end Metainfo
