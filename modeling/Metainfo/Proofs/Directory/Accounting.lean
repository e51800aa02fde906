import Metainfo.Proofs.Directory.Batch
import Metainfo.Proofs.Ingest.Accounting

/-!
The records of a directory, as they are in the pool and as they are in the report. A document that
fails leaves those of its records that were completed before, and the report does not list them.
-/

namespace Metainfo

open Metainfo.Markup
open Metainfo.Utf8

namespace DirectoryIngest

variable {settings : DirectoryIngest} {files : Files} {directory : Path}

/-- A run adds to the live records what its documents complete. The report lists what those of them
complete that are read to their ends, and so all that was added if no document that completes a
record fails, and only then. -/
theorem run_accounts (pool : Pool) {names : List (List UInt8)}
    (h : files.list (settings.lookupPath directory) = .ok names) :
    let jobs := (documentNames names).filterMap
      (settings.job? files (settings.lookupPath directory) (settings.candidates pool directory))
    ∃ progress, settings.run files pool directory = .ok progress ∧
      progress.pool.records = pool.records ++ completedInTurn pool jobs ∧
      progress.report.records = (ingestInTurn pool jobs).flatMap Ingested.records ∧
      (progress.pool.records = pool.records ++ progress.report.records ↔
        ∀ job ∈ jobs, (Markup.read job.source).failure.isSome → job.count = 0) := by
  intro jobs
  obtain ⟨progress, hrun, hpool, hreport⟩ : ∃ progress,
      settings.run files pool directory = .ok progress ∧
        progress.pool = (if settings.flags.deferWrites then poolAfter pool jobs
          else (poolAfter pool jobs).internalize) ∧
        progress.report.records = (ingestInTurn pool jobs).flatMap Ingested.records :=
    ⟨_, run_of_list_ok pool h, rfl, List.nil_append _⟩
  have hrecords : progress.pool.records = pool.records ++ completedInTurn pool jobs := by
    rw [hpool, ← records_poolAfter]
    split
    · rfl
    · exact Pool.records_internalize _
  refine ⟨progress, hrun, hrecords, hreport, ?_⟩
  rw [hrecords, hreport, List.append_cancel_left_eq, eq_comm, reported_eq_completed_iff]

/-- A document that fails behind its first application: the record is there, and the report says
nothing of it. -/
theorem run_accounts_malformed :
    let broken := Source.ofBytes
      (encode "<components><component><name>A</name></component></oops>")
    let files := Files.ofDocuments (.ofString "m") [("a.metainfo.xml", broken)]
    ∃ progress, (ofFlags .none).run files .empty (.ofString "m") = .ok progress ∧
      progress.pool.records = [⟨0⟩] ∧ progress.report.records = [] := by
  intro broken files
  have hlist : files.list (.ofString "m") = .ok (["a.metainfo.xml"].map encode) :=
    Files.list_ofDocuments _ _
  have hnames : documentNames (["a.metainfo.xml"].map encode) = ["a.metainfo.xml"] :=
    documentNames_of_accepted (by decide +kernel) (by decide)
  let job : Job := ⟨(ofFlags .none).documentSettings files "a.metainfo.xml" [], broken⟩
  have hjobs : (documentNames (["a.metainfo.xml"].map encode)).filterMap ((ofFlags .none).job?
      files (.ofString "m") ((ofFlags .none).candidates .empty (.ofString "m"))) = [job] := by
    rw [hnames]
    rfl
  obtain ⟨progress, hrun, hrecords, hreport, -⟩ :=
    @run_accounts (ofFlags .none) files (.ofString "m") .empty _ hlist
  have hfailure : (Markup.read broken).failure.isSome := by decide +kernel
  have hcompleted : completedInTurn .empty [job] = [⟨0⟩] := by
    rw [completedInTurn_eq]
    decide +kernel
  refine ⟨progress, hrun, ?_, ?_⟩
  · rw [hrecords]
    exact (congrArg (completedInTurn .empty) hjobs).trans hcompleted
  · rw [hreport]
    have hnone : (job.ingest .empty).records = [] :=
      (records_ingest_eq job .empty).trans (if_pos hfailure)
    refine (congrArg (fun jobs => (ingestInTurn .empty jobs).flatMap Ingested.records)
      hjobs).trans ?_
    exact List.append_eq_nil_iff.mpr ⟨hnone, rfl⟩

end DirectoryIngest

end Metainfo
