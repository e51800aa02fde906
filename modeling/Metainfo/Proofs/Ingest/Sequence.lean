import Metainfo.Proofs.Ingest.Independence
import Metainfo.Proofs.Ingest.Outcome

/-!
Documents ingested one after the other, each with settings of its own and however it ends. What was
live beforehand stays as it was, so that each document gives the records that it gives alone; their
numbers go on from those of the records completed before.
-/

namespace Metainfo

open Metainfo.Markup

/-- The handle that comes so many places later. -/
def RecordId.shift (offset : Nat) (id : RecordId) : RecordId :=
  ⟨id.index + offset⟩

/-- The records of a document that was read to its end; none if it was not. -/
def Ingested.records (ingested : Ingested) : List RecordId :=
  ingested.result.toOption.getD []

/-- A document with the settings with which it is ingested. -/
structure Job where
  settings : IngestSettings
  source : Source

namespace Job

def ingest (job : Job) (pool : Pool) : Ingested :=
  Metainfo.ingest job.settings pool job.source

def completed (job : Job) (pool : Pool) : List RecordId :=
  completedRecords job.settings pool job.source

/-- How many records the document completes. -/
def count (job : Job) : Nat :=
  StartTag.closedRecords [] (Markup.read job.source).events

end Job

/-- What becomes of documents that are ingested one after the other. -/
def ingestInTurn (pool : Pool) : List Job → List Ingested
  | [] => []
  | job :: jobs => job.ingest pool :: ingestInTurn (job.ingest pool).pool jobs

/-- The pool in which they leave their records. -/
def poolAfter (pool : Pool) (jobs : List Job) : Pool :=
  jobs.foldl (fun pool job => (job.ingest pool).pool) pool

theorem poolAfter_append (pool : Pool) (jobs more : List Job) :
    poolAfter pool (jobs ++ more) = poolAfter (poolAfter pool jobs) more :=
  List.foldl_append

theorem poolAfter_cons (pool : Pool) (job : Job) (jobs : List Job) :
    poolAfter pool (job :: jobs) = poolAfter (job.ingest pool).pool jobs :=
  rfl

theorem ingestInTurn_append (pool : Pool) (jobs more : List Job) :
    ingestInTurn pool (jobs ++ more) =
      ingestInTurn pool jobs ++ ingestInTurn (poolAfter pool jobs) more := by
  induction jobs generalizing pool with
  | nil => rfl
  | cons job jobs ih => exact congrArg (job.ingest pool :: ·) (ih (job.ingest pool).pool)

theorem length_ingestInTurn (pool : Pool) (jobs : List Job) :
    (ingestInTurn pool jobs).length = jobs.length := by
  induction jobs generalizing pool with
  | nil => rfl
  | cons job jobs ih => exact congrArg (· + 1) (ih (job.ingest pool).pool)

theorem ingestInTurn_getElem? (pool : Pool) (before : List Job) (job : Job) (after : List Job) :
    (ingestInTurn pool (before ++ job :: after))[before.length]? =
      some (job.ingest (poolAfter pool before)) := by
  rw [ingestInTurn_append, List.getElem?_append_right (length_ingestInTurn pool before).le,
    length_ingestInTurn, Nat.sub_self]
  rfl

namespace Pool

/-- The second pool has all that was live in the first one as it was, and so many new numbers have
been given out. -/
structure Since (pool : Pool) (count : Nat) (later : Pool) : Prop where
  wellFormed : later.WellFormed
  kept : ∀ id, pool.isLive id → Kept id pool later
  next : later.addRecord.1 = pool.addRecord.1.shift count

variable {pool later last : Pool} {count more : Nat}

theorem Since.refl (h : pool.WellFormed) : pool.Since 0 pool where
  wellFormed := h
  kept id _ := .refl id pool
  next := rfl

theorem Since.trans (h : pool.Since count later) (hlast : later.Since more last) :
    pool.Since (count + more) last where
  wellFormed := hlast.wellFormed
  kept id hid := (h.kept id hid).trans (hlast.kept id ((h.kept id hid).isLive.trans hid))
  next := by
    rw [hlast.next, h.next]
    exact congrArg RecordId.mk (Nat.add_assoc _ _ _)

theorem Since.nextRecords (h : pool.Since count later) (more : Nat) :
    later.nextRecords more = (pool.nextRecords more).map (·.shift count) := by
  rw [Pool.nextRecords, Pool.nextRecords, List.map_map, h.next]
  refine List.map_congr_left fun offset _ => congrArg RecordId.mk ?_
  exact Nat.add_right_comm _ _ _

end Pool

section

variable {pool : Pool} {settings : IngestSettings} {source : Source}

theorem since_ingest (hpool : pool.WellFormed) (job : Job) :
    pool.Since job.count (job.ingest pool).pool where
  wellFormed := wellFormed_ingestReading job.settings hpool (isScript_read job.source)
  kept _ hid := kept_live_ingestReading job.settings hpool (isScript_read job.source) hid
  next := by
    have hnext := addRecord_ingest job.settings pool job.source
    rwa [length_completedRecords] at hnext

theorem since_poolAfter (hpool : pool.WellFormed) (jobs : List Job) :
    pool.Since (jobs.map Job.count).sum (poolAfter pool jobs) := by
  induction jobs generalizing pool with
  | nil => exact .refl hpool
  | cons job jobs ih =>
      have hfirst := since_ingest hpool job
      exact hfirst.trans (ih hfirst.wellFormed)

/-- The records that a document completes have the next numbers. -/
theorem completedRecords_getElem? {index : Nat} {record : RecordId}
    (h : (completedRecords settings pool source)[index]? = some record) :
    index < StartTag.closedRecords [] (Markup.read source).events ∧
      record = pool.addRecord.1.shift index := by
  rw [completedRecords_eq, Pool.nextRecords, List.getElem?_map, Option.map_eq_some_iff] at h
  obtain ⟨offset, hoffset, rfl⟩ := h
  obtain ⟨hlt, rfl⟩ := List.getElem?_eq_some_iff.mp hoffset
  rw [List.length_range] at hlt
  exact ⟨hlt, by rw [List.getElem_range]; rfl⟩

/-- The records of a document are as the portraits of its applications, whether it is read to its
end or not. -/
theorem ingest_portraits (settings : IngestSettings) (hpool : pool.WellFormed)
    (howners : settings.OwnersLive pool) {document : Fragment}
    (hdocument : (Markup.read source).events <+: document.events) {index : Nat}
    {application : Application} (happlication : (document.recorded.take
      (StartTag.closedRecords [] (Markup.read source).events))[index]? = some application) :
    (ingest settings pool source).pool.Depicts (pool.addRecord.1.shift index)
      (application.portrait settings (settings.ownerNames pool [])) := by
  obtain ⟨owners, hdepicts, hnames⟩ :=
    exists_depicts_of_prefix hdocument happlication settings hpool (Markup.read source).failure
  rw [← howners.ownerNames_eq, ← hnames fun owner howner => (howners owner howner).2]
  exact hdepicts

/-- Later on a document gives the records that it gives at once. -/
theorem Pool.Since.exists_depicts {later : Pool} {count : Nat} (h : pool.Since count later)
    (hpool : pool.WellFormed) (howners : settings.OwnersLive pool) (source : Source)
    {record : RecordId} (hrecord : record ∈ completedRecords settings pool source) :
    ∃ plain : PlainRecord, (ingest settings pool source).pool.Depicts record plain ∧
      (ingest settings later source).pool.Depicts (record.shift count) plain := by
  obtain ⟨document, hdocument⟩ := isScript_read source
  rw [completedRecords_eq] at hrecord
  obtain ⟨index, hindex, rfl⟩ := List.mem_map.mp hrecord
  rw [List.mem_range, ← length_take_recorded hdocument] at hindex
  have happlication := List.getElem?_eq_getElem hindex
  obtain ⟨hlater, hnames⟩ := howners.kept h.kept
  have hnumber : (pool.addRecord.1.shift index).shift count =
      later.addRecord.1.shift index := by
    rw [h.next]
    exact congrArg RecordId.mk (Nat.add_right_comm _ _ _)
  have hdepicts := ingest_portraits settings h.wellFormed hlater hdocument happlication
  rw [hnames, ← hnumber] at hdepicts
  exact ⟨_, ingest_portraits settings hpool howners hdocument happlication, hdepicts⟩

end

/-- Among other documents each one ends as it does alone, and it leaves the records that it leaves
alone, with numbers that are later by as many records as were completed before. -/
theorem ingestInTurn_contribution {pool : Pool} (hpool : pool.WellFormed) (before : List Job)
    {job : Job} (howners : job.settings.OwnersLive pool) (after : List Job) :
    let offset := (before.map Job.count).sum
    ((ingestInTurn pool (before ++ job :: after))[before.length]?).map Ingested.result =
        some ((job.ingest pool).result.map fun records => records.map (·.shift offset)) ∧
      ∀ record ∈ job.completed pool, ∃ plain : PlainRecord,
        (job.ingest pool).pool.Depicts record plain ∧
          (poolAfter pool (before ++ job :: after)).Depicts (record.shift offset) plain := by
  intro offset
  have hsince := since_poolAfter hpool before
  constructor
  · have hcompleted := completedRecords_eq job.settings (poolAfter pool before) job.source
    rw [hsince.nextRecords, ← completedRecords_eq job.settings pool job.source] at hcompleted
    rw [ingestInTurn_getElem?, Option.map_some, Job.ingest, Job.ingest, result_ingest,
      result_ingest, hcompleted]
    cases (Markup.read job.source).failure <;> rfl
  · intro record hrecord
    obtain ⟨plain, halone, hdepicts⟩ :=
      hsince.exists_depicts hpool howners job.source hrecord
    refine ⟨plain, halone, ?_⟩
    have hingested := since_ingest hsince.wellFormed job
    have hafter := since_poolAfter hingested.wellFormed after
    rw [poolAfter_append, poolAfter_cons]
    exact hdepicts.kept (hafter.kept _ hdepicts.isLive)

end Metainfo
