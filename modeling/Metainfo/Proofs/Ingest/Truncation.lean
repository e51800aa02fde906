import Metainfo.Proofs.Ingest.Outcome
import Metainfo.Proofs.Ingest.Owners
import Metainfo.Proofs.Markup.Truncation

/-!
Documents whose input breaks off. They complete the first of the records that they complete when
the input goes on, and these records come out the same.
-/

namespace Metainfo

open Metainfo.Markup

namespace Application.Stands

variable {application : Application} {index : Nat} {tags : List StartTag}
  {before rest events : List Event}

theorem append (h : application.Stands index tags before rest events) (more : List Event) :
    application.Stands index tags before (rest ++ more) (events ++ more) where
  split := by
    rw [h.split]
    simp only [List.append_assoc]
  closed := h.closed
  containers := h.containers

end Application.Stands

/-- Whatever follows the end of an application, its record comes out the same. -/
theorem exists_depicts_append (settings : IngestSettings) {pool : Pool} (hpool : pool.WellFormed)
    {events more : List Event} (h : IsScript (events ++ more)) {record : RecordId}
    (hrecord : record ∈ pool.nextRecords (StartTag.closedRecords [] events))
    (failure failure' : Option Failure) :
    ∃ plain : PlainRecord,
      (ingestReading settings pool ⟨events, failure⟩).pool.Depicts record plain ∧
        (ingestReading settings pool ⟨events ++ more, failure'⟩).pool.Depicts record plain := by
  obtain ⟨document, hdocument⟩ := h.of_append
  obtain ⟨index, hindex, rfl⟩ := List.mem_map.mp hrecord
  rw [List.mem_range, ← length_take_recorded hdocument] at hindex
  obtain ⟨hmakes, before, rest, hstands⟩ :=
    exists_stands_of_prefix hdocument (List.getElem?_eq_getElem hindex)
  exact ⟨_, hstands.depicts hmakes h.of_append settings hpool failure,
    (hstands.append more).depicts hmakes h settings hpool failure'⟩

/-- An input that breaks off is only cut short. Of its document a beginning is delivered, and either
the breaking off is the failure, or there was a fault before, which is the same and in the same
place when the input goes on. The records that are completed by then are the first ones of the
whole document, and they show the same. -/
theorem ingest_truncated (bytes more : List UInt8) (ending : Ending) :
    let broken : Source := ⟨bytes, .failed⟩
    let whole : Source := ⟨bytes ++ more, ending⟩
    (Markup.read broken).events <+: (Markup.read whole).events ∧
      ((Markup.read broken).failure = some .unreadable ∨
        ∃ fault location, (Markup.read broken).failure = some (.malformed fault location) ∧
          (Markup.read whole).failure = some (.malformed fault location)) ∧
      ∀ (settings : IngestSettings) (pool : Pool), pool.Reachable →
        let early := completedRecords settings pool broken
        let late := completedRecords settings pool whole
        early <+: late ∧
          (∀ id, (ingest settings pool broken).pool.isLive id ↔ pool.isLive id ∨ id ∈ early) ∧
          (∀ id, (ingest settings pool whole).pool.isLive id ↔ pool.isLive id ∨ id ∈ late) ∧
          (∀ records, (ingest settings pool whole).result = .ok records → records = late) ∧
          ∀ record ∈ early, ∃ view,
            (ingest settings pool broken).pool.view record = .ok view ∧
              (ingest settings pool whole).pool.view record = .ok view := by
  intro broken whole
  obtain ⟨hevents, hfailure⟩ := read_append bytes more ending
  refine ⟨hevents, ?_, ?_⟩
  · rcases hfailure with hunreadable | ⟨hsame, fault, location, hfault⟩
    · exact Or.inl hunreadable
    · exact Or.inr ⟨fault, location, hfault, by rw [← hfault, hsame]⟩
  intro settings pool hpool early late
  obtain ⟨rest, hrest⟩ := hevents
  have hearly : early = pool.nextRecords (StartTag.closedRecords [] (Markup.read broken).events) :=
    completedRecords_eq settings pool broken
  have hlate : late = pool.nextRecords (StartTag.closedRecords [] (Markup.read whole).events) :=
    completedRecords_eq settings pool whole
  refine ⟨?_, isLive_ingest settings pool broken, isLive_ingest settings pool whole, ?_, ?_⟩
  · rw [hearly, hlate, ← hrest, StartTag.closedRecords_append, Pool.nextRecords, Pool.nextRecords,
      List.range_add, List.map_append]
    exact List.prefix_append _ _
  · exact fun records hresult => eq_completed_of_ok hresult
  · intro record hrecord
    rw [hearly] at hrecord
    have hscript : IsScript ((Markup.read broken).events ++ rest) := by
      rw [hrest]
      exact isScript_read whole
    obtain ⟨plain, hbroken, hwhole⟩ := exists_depicts_append settings hpool.wellFormed hscript
      hrecord (Markup.read broken).failure (Markup.read whole).failure
    rw [hrest] at hwhole
    exact ⟨plain.view record, hbroken.view, hwhole.view⟩

/-- An input that breaks off in the second of two applications, after the first letters of a tag. -/
theorem ingest_truncated_tag :
    let bytes := Utf8.encode "<components><component/><comp"
    let more := Utf8.encode "onent/></components>"
    let settings := IngestSettings.ofFlags .none
    let broken := ingest settings .empty ⟨bytes, .failed⟩
    let whole := ingest settings .empty ⟨bytes ++ more, .complete⟩
    (⟨0⟩ : RecordId) ∈ completedRecords settings .empty ⟨bytes, .failed⟩ ∧
      ∃ view, broken.pool.view ⟨0⟩ = .ok view ∧ whole.pool.view ⟨0⟩ = .ok view := by
  intro bytes more settings broken whole
  obtain ⟨-, -, hrecords⟩ := ingest_truncated bytes more .complete
  obtain ⟨-, -, -, -, hviews⟩ := hrecords settings .empty ⟨[], rfl⟩
  have hrecord : (⟨0⟩ : RecordId) ∈ completedRecords settings .empty ⟨bytes, .failed⟩ := by
    have hevents : (Markup.read ⟨bytes, .failed⟩).events =
        [.start "components" .empty, .start "component" .empty, .stop "component"] := by
      decide +kernel
    rw [completedRecords_eq, hevents]
    decide +kernel
  exact ⟨hrecord, hviews ⟨0⟩ hrecord⟩

end Metainfo
