import Metainfo.Proofs.Ingest.Numbering
import Metainfo.Proofs.Markup.Delivery

/-!
What the nesting of the events is good for. The counters of a context are never taken below zero,
and a document that is read to its end leaves no record behind that was not completed.
-/

namespace Metainfo

open Metainfo.Markup

namespace Context

/-- Where an element closes, both counters have something to count down. -/
theorem depth_pos_of_stop (settings : IngestSettings) (pool : Pool) {before rest : List Event}
    {name : String} (h : IsScript (before ++ .stop name :: rest)) :
    0 < ((initial pool).run settings before).depth := by
  obtain ⟨names, hnames⟩ := isScript_iff.mp h
  rw [openNames_append] at hnames
  obtain ⟨inside, hbefore, hrest⟩ := Option.bind_eq_some_iff.mp hnames
  obtain ⟨outer, houter, -⟩ := Option.bind_eq_some_iff.mp hrest
  obtain ⟨hfollows, hlength⟩ := (follows_initial pool).run settings rfl hbefore
  rw [hfollows.depth, hlength, nest_stop_eq_some.mp houter]
  exact Nat.succ_pos _

end Context

/-- A document without failure leaves live what was so before and what it completed. -/
theorem isLive_ingest_of_ok (settings : IngestSettings) (pool : Pool) (source : Source)
    {records : List RecordId} (h : (ingest settings pool source).result = .ok records) :
    ((Context.initial pool).run settings (Markup.read source).events).record = none ∧
      ∀ id, (ingest settings pool source).pool.isLive id ↔ pool.isLive id ∨ id ∈ records := by
  obtain ⟨-, hclosed⟩ := deliverable_read source
  have hscript := isScript_read source
  rw [ingest] at h ⊢
  generalize Markup.read source = reading at h hclosed hscript
  obtain ⟨events, failure⟩ := reading
  cases failure with
  | some failure =>
      have hfailed : Except.error failure = Except.ok records := h
      contradiction
  | none =>
      obtain ⟨name, attributes, children, hevents⟩ := hclosed rfl
      have hnested : openNames [] events = some [] := by
        have hwhole : events = _ := hevents
        rw [hwhole, openNames_fragment]
      have hnone := Context.record_run_closed settings pool hnested
      have hnumbered := Context.numbered_run settings pool hscript
      have hrecords : records = pool.nextRecords (StartTag.closedRecords [] events) := by
        rw [← hnumbered.completed]
        exact (Except.ok.inj h).symm
      rw [hrecords]
      exact ⟨hnone, (hnumbered.finish hnone settings).1⟩

/-- A document is delivered as the beginning of one element with matching tags, in which text is
not empty and not cut up; all of it if no failure is found, which is to say that nothing is left
open. So the counters never fall below zero, and every record that is there after a document without
failure was there before or has been completed. -/
theorem ingest_balanced (source : Source) :
    let reading := Markup.read source
    (∃ name attributes children,
        reading.events <+: (Fragment.element name attributes children .empty).events) ∧
      (∀ event ∈ reading.events, event ≠ .text "") ∧
      reading.events.IsChain (fun first second => ¬ (first.isText ∧ second.isText)) ∧
      (reading.failure = none → ∃ name attributes children,
        reading.events = (Fragment.element name attributes children .empty).events) ∧
      (source.ending = .complete →
        (openNames [] reading.events ≠ some [] ∨
          ∀ name attributes, .start name attributes ∉ reading.events) →
        ∃ fault location, reading.failure = some (.malformed fault location)) ∧
      ∀ (settings : IngestSettings) (pool : Pool),
        (∀ before name rest, reading.events = before ++ .stop name :: rest →
          let context := (Context.initial pool).run settings before
          0 < context.depth ∧ (context.depth = context.knownDepth → 0 < context.knownDepth)) ∧
        ∀ records, (ingest settings pool source).result = .ok records →
          ((Context.initial pool).run settings reading.events).record = none ∧
            ∀ id, (ingest settings pool source).pool.isLive id ↔
              pool.isLive id ∨ id ∈ records := by
  intro reading
  obtain ⟨⟨⟨names, hrooted⟩, hparted⟩, hclosed⟩ := deliverable_read source
  refine ⟨hrooted.isPrefix, hparted.nonempty, hparted.apart, hclosed, ?_, ?_⟩
  · intro hcomplete hopen
    refine malformed_read hcomplete ?_
    intro hnone
    obtain ⟨name, attributes, children, hevents⟩ := hclosed hnone
    rcases hopen with hopen | hempty
    · refine hopen ?_
      rw [hevents, openNames_fragment]
    · refine hempty name attributes ?_
      rw [hevents]
      exact List.mem_cons_self
  · intro settings pool
    refine ⟨?_, fun records hresult => isLive_ingest_of_ok settings pool source hresult⟩
    intro before name rest hevents context
    have hscript : IsScript (before ++ .stop name :: rest) := by
      rw [← hevents]
      exact isScript_read source
    have hpos : 0 < context.depth := Context.depth_pos_of_stop settings pool hscript
    exact ⟨hpos, fun hdepth => hdepth ▸ hpos⟩

end Metainfo
