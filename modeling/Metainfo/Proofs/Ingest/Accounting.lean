import Metainfo.Proofs.Ingest.Sequence

/-!
What documents add to the live records of a pool, in order. It is what each of them completes,
whether it is read to its end or not; what those that are read to their ends report is less where
another one completed a record before it failed.
-/

namespace Metainfo

open Metainfo.Markup

namespace Pool

variable {pool later : Pool} {count : Nat}

theorem records_internalize (pool : Pool) : pool.internalize.records = pool.records := by
  have hlive : pool.internalize.isLive = pool.isLive :=
    funext fun id => isLive_congr (record?_internalize pool id)
  rw [records, records, slots_internalize, hlive]

/-- If the next handles become live and no others, they follow those from before. -/
theorem records_of_isLive
    (hlive : ∀ id, later.isLive id ↔ pool.isLive id ∨ id ∈ pool.nextRecords count)
    (hnext : later.addRecord.1 = pool.addRecord.1.shift count) :
    later.records = pool.records ++ pool.nextRecords count := by
  have hsize : later.slots.size = pool.slots.size + count := congrArg RecordId.index hnext
  have hnew : ((List.range count).map (pool.slots.size + ·)).map RecordId.mk =
      pool.nextRecords count := List.map_map
  rw [records, hsize, List.range_add, List.map_append, List.filter_append, hnew, records]
  congr 1
  · refine List.filter_congr fun id hid => ?_
    obtain ⟨index, hindex, rfl⟩ := List.mem_map.mp hid
    have hold : (⟨index⟩ : RecordId) ∉ pool.nextRecords count := fun hmem =>
      Nat.not_le_of_lt (List.mem_range.mp hindex) (mem_nextRecords.mp hmem).1
    rw [Bool.eq_iff_iff, hlive, or_iff_left hold]
  · exact List.filter_eq_self.mpr fun id hid => (hlive id).mpr (Or.inr hid)

end Pool

/-- A document adds the records that it completes. -/
theorem records_ingest (settings : IngestSettings) (pool : Pool) (source : Source) :
    (ingest settings pool source).pool.records =
      pool.records ++ completedRecords settings pool source := by
  have hlive := isLive_ingest settings pool source
  have hnext := addRecord_ingest settings pool source
  rw [length_completedRecords] at hnext
  simp only [completedRecords_eq] at hlive
  rw [completedRecords_eq]
  exact Pool.records_of_isLive hlive hnext

/-- The records that documents complete one after the other. -/
def completedInTurn (pool : Pool) : List Job → List RecordId
  | [] => []
  | job :: jobs => job.completed pool ++ completedInTurn (job.ingest pool).pool jobs

theorem records_poolAfter (pool : Pool) (jobs : List Job) :
    (poolAfter pool jobs).records = pool.records ++ completedInTurn pool jobs := by
  induction jobs generalizing pool with
  | nil => exact (List.append_nil _).symm
  | cons job jobs ih =>
      have hjob : (job.ingest pool).pool.records = pool.records ++ job.completed pool :=
        records_ingest job.settings pool job.source
      rw [poolAfter_cons, ih, hjob, completedInTurn, List.append_assoc]

/-- They get the next handles. -/
theorem completedInTurn_eq (pool : Pool) (jobs : List Job) :
    completedInTurn pool jobs = pool.nextRecords (jobs.map Job.count).sum := by
  induction jobs generalizing pool with
  | nil => rfl
  | cons job jobs ih =>
      have hnext := addRecord_ingest job.settings pool job.source
      rw [length_completedRecords] at hnext
      rw [completedInTurn, ih, Job.completed, completedRecords_eq, List.map_cons, List.sum_cons]
      exact (Pool.nextRecords_add hnext _).symm

/-- A document that is read to its end reports what it completes, and any other one nothing. -/
theorem records_ingest_eq (job : Job) (pool : Pool) :
    (job.ingest pool).records =
      if (Markup.read job.source).failure.isSome then [] else job.completed pool := by
  rw [Ingested.records, Job.ingest, result_ingest]
  cases (Markup.read job.source).failure <;> rfl

theorem reported_sublist (pool : Pool) (jobs : List Job) :
    ((ingestInTurn pool jobs).flatMap Ingested.records).Sublist (completedInTurn pool jobs) := by
  induction jobs generalizing pool with
  | nil => exact .slnil
  | cons job jobs ih =>
      rw [ingestInTurn, List.flatMap_cons, completedInTurn]
      refine List.Sublist.append ?_ (ih _)
      rw [records_ingest_eq]
      split
      · exact List.nil_sublist _
      · exact List.Sublist.refl _

/-- All that is completed is reported if no document that completes a record fails, and only
then. -/
theorem reported_eq_completed_iff (pool : Pool) (jobs : List Job) :
    (ingestInTurn pool jobs).flatMap Ingested.records = completedInTurn pool jobs ↔
      ∀ job ∈ jobs, (Markup.read job.source).failure.isSome → job.count = 0 := by
  induction jobs generalizing pool with
  | nil => simp [ingestInTurn, completedInTurn]
  | cons job jobs ih =>
      have hlength : (job.completed pool).length = job.count :=
        length_completedRecords job.settings pool job.source
      rw [ingestInTurn, List.flatMap_cons, completedInTurn, List.forall_mem_cons, ← ih,
        records_ingest_eq]
      by_cases hfailure : (Markup.read job.source).failure.isSome
      · rw [if_pos hfailure, List.nil_append]
        constructor
        · intro hsame
          have hle := (reported_sublist (job.ingest pool).pool jobs).length_le
          have hnone : job.completed pool = [] := by
            have hlengths := congrArg List.length hsame
            rw [List.length_append] at hlengths
            exact List.length_eq_zero_iff.mp (by omega)
          rw [hnone] at hsame hlength
          exact ⟨fun _ => hlength.symm, hsame⟩
        · rintro ⟨hzero, hsame⟩
          rw [List.length_eq_zero_iff.mp (hlength.trans (hzero hfailure)), hsame, List.nil_append]
      · rw [if_neg hfailure, List.append_cancel_left_eq]
        exact (and_iff_right fun hsome => absurd hsome hfailure).symm

/-! What is seen of the records. -/

section

variable {pool : Pool}

/-- What a document makes of its records is the same in every later pool. -/
theorem exists_portraits {job : Job} (howners : job.settings.OwnersLive pool) :
    ∃ plains : List PlainRecord, ∀ (later : Pool) (count : Nat), pool.Since count later →
      plains.Forall₂ (fun plain record => (job.ingest later).pool.Depicts record plain)
        (later.nextRecords job.count) := by
  obtain ⟨document, hdocument⟩ := isScript_read job.source
  let applications := document.recorded.take job.count
  have hcount : applications.length = job.count := length_take_recorded hdocument
  refine ⟨applications.map (·.portrait job.settings (job.settings.ownerNames pool [])),
    fun later count hsince => ?_⟩
  obtain ⟨hlater, hnames⟩ := howners.kept hsince.kept
  rw [← hcount, List.forall₂_map_left_iff]
  refine later.forall₂_nextRecords fun index application happlication => ?_
  have hdepicts := ingest_portraits job.settings hsince.wellFormed hlater hdocument happlication
  rw [hnames] at hdepicts
  exact hdepicts

/-- Documents that are ingested in turn leave the records that each leaves alone, in order. -/
theorem exists_depicts_in_turn (hpool : pool.WellFormed) {jobs : List Job}
    (howners : ∀ job ∈ jobs, job.settings.OwnersLive pool) :
    ∃ plains : List (List PlainRecord),
      jobs.Forall₂ (fun job plains => plains.Forall₂
        (fun plain record => (job.ingest pool).pool.Depicts record plain)
        (pool.nextRecords job.count)) plains ∧
      ∀ (later : Pool) (count : Nat), pool.Since count later →
        plains.flatten.Forall₂ (fun plain record => (poolAfter later jobs).Depicts record plain)
          (completedInTurn later jobs) := by
  induction jobs with
  | nil => exact ⟨[], .nil, fun _ _ _ => .nil⟩
  | cons job jobs ih =>
      rw [List.forall_mem_cons] at howners
      obtain ⟨first, hfirst⟩ := exists_portraits howners.1
      obtain ⟨rest, halone, hrest⟩ := ih howners.2
      refine ⟨first :: rest, .cons (hfirst pool 0 (.refl hpool)) halone,
        fun later count hsince => ?_⟩
      have hnext := since_ingest hsince.wellFormed job
      rw [List.flatten_cons, completedInTurn, Job.completed, completedRecords_eq]
      refine List.rel_append ?_ (hrest _ _ (hsince.trans hnext))
      refine (hfirst later count hsince).imp fun plain record hdepicts => ?_
      exact hdepicts.kept ((since_poolAfter hnext.wellFormed jobs).kept record hdepicts.isLive)

/-- If every live record is as described, all of them can be viewed. -/
theorem Pool.views_of_depicts {plains : List PlainRecord}
    (h : plains.Forall₂ (fun plain record => pool.Depicts record plain) pool.records) :
    pool.views = .ok (List.zipWith PlainRecord.view plains pool.records) := by
  rw [views]
  generalize pool.records = records at h ⊢
  induction h with
  | nil => rfl
  | cons hdepicts _ ih =>
      rw [List.mapM_cons, hdepicts.view, ih]
      rfl

end

end Metainfo
