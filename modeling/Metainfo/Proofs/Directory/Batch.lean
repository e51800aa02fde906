import Metainfo.Directory.Basic
import Metainfo.Proofs.Ingest.Unissued
import Metainfo.Proofs.Pool.FileList
import Metainfo.Proofs.Text.Order

/-!
A directory is ingested document by document. The run is the one over the documents that can be
opened, in the order of their names, each with the owners that the pool has for it beforehand; what
one of them comes to does not depend on the others.
-/

namespace Metainfo

open Metainfo.Markup
open Metainfo.Naming
open Metainfo.Utf8

/-- The documents of one directory and nothing else. -/
def Files.ofDocuments (directory : Path) (documents : List (String × Source)) : Files where
  read path :=
    (documents.find? fun document => directory.join (.ofString document.1) = path).elim
      (.error .notFound) fun document => .ok document.2
  list path :=
    if path = directory then .ok ((documents.map Prod.fst).map encode) else .error .notFound
  isFile _ := false

theorem Files.list_ofDocuments (directory : Path) (documents : List (String × Source)) :
    (ofDocuments directory documents).list directory =
      .ok ((documents.map Prod.fst).map encode) := by
  rw [ofDocuments]
  exact if_pos rfl

namespace DirectoryIngest

/-! The order of the documents. -/

theorem perm_documentNames (names : List (List UInt8)) :
    (documentNames names).Perm ((names.filterMap strict).filter isMetadataFile) :=
  List.mergeSort_perm _ _

theorem documentNames_ordered (names : List (List UInt8)) :
    (documentNames names).Pairwise fun name next => encode name ≤ encode next := by
  have hle (name next : String) : (!decide (next < name)) = true ↔ name ≤ next := by
    rw [Bool.not_eq_true', decide_eq_false_iff_not]
    exact String.not_lt
  have hsorted : (documentNames names).Pairwise fun name next => !decide (next < name) := by
    refine List.pairwise_mergeSort (fun first second third hfirst hsecond => ?_)
      (fun first second => ?_) _
    · exact (hle _ _).mpr (String.le_trans ((hle _ _).mp hfirst) ((hle _ _).mp hsecond))
    · rw [Bool.or_eq_true, hle, hle]
      exact String.le_total first second
  exact hsorted.imp fun h => encode_le_iff.mpr ((hle _ _).mp h)

/-- A name is there as often as its bytes are listed, if it is that of a metadata file. -/
theorem count_documentNames (names : List (List UInt8)) (name : String) :
    (documentNames names).count name =
      if isMetadataFile name then names.count (encode name) else 0 := by
  rw [(perm_documentNames names).count_eq]
  split
  · rename_i haccepted
    rw [List.count_filter haccepted, List.count_filterMap, List.count]
    refine List.countP_congr fun bytes _ => ?_
    simp [strict_eq_some_iff]
  · rename_i hrejected
    refine List.count_eq_zero.mpr fun hmem => ?_
    exact hrejected (List.mem_filter.mp hmem).2

/-- It does not matter in which order the entries of the directory are listed. -/
theorem documentNames_eq_of_perm {names permuted : List (List UInt8)} (h : permuted.Perm names) :
    documentNames permuted = documentNames names := by
  have hsame : (documentNames permuted).Perm (documentNames names) :=
    ((perm_documentNames permuted).trans ((h.filterMap strict).filter isMetadataFile)).trans
      (perm_documentNames names).symm
  refine hsame.eq_of_pairwise (fun name next _ _ hle hge => ?_) (documentNames_ordered permuted)
    (documentNames_ordered names)
  exact String.le_antisymm (encode_le_iff.mp hle) (encode_le_iff.mp hge)

/-- Accepted names that are listed in their order are visited as they are. -/
theorem documentNames_of_accepted {names : List String} (h : ∀ name ∈ names, isMetadataFile name)
    (hordered : names.Pairwise (· ≤ ·)) : documentNames (names.map encode) = names := by
  have hstrict : strict ∘ encode = some := by
    funext name
    exact strict_eq_some_iff.mpr rfl
  rw [documentNames, List.filterMap_map, hstrict, List.filterMap_some, List.filter_eq_self.mpr h]
  refine List.mergeSort_of_pairwise (hordered.imp fun hle => ?_)
  rw [Bool.not_eq_true', decide_eq_false_iff_not]
  exact String.not_lt.mpr hle

/-! The documents one by one. -/

/-- A document that can be opened, with the settings with which it is ingested. -/
def job? (settings : DirectoryIngest) (files : Files) (path : Path)
    (listed : List (RecordId × String)) (name : String) : Option Job :=
  match files.read (path.join (.ofString name)) with
  | .error _ => none
  | .ok source =>
      let owners := (listed.filter fun (_, basename) => basename = name).map Prod.fst
      some ⟨settings.documentSettings files name owners, source⟩

/-- What is wrong with a document. -/
def problem? (files : Files) (path : Path) (name : String) : Option Problem :=
  let path := path.join (.ofString name)
  match files.read path with
  | .error error => some ⟨path, .cannotOpen error⟩
  | .ok source => (Markup.read source).failure.map fun failure => ⟨path, .cannotRead failure⟩

theorem eq_of_job? {settings : DirectoryIngest} {files : Files} {path : Path}
    {listed : List (RecordId × String)} {name : String} {job : Job}
    (h : settings.job? files path listed name = some job) :
    job.settings = settings.documentSettings files name
      ((listed.filter fun (_, basename) => basename = name).map Prod.fst) := by
  rw [job?] at h
  split at h
  · contradiction
  · exact (congrArg Job.settings (Option.some.inj h)).symm

theorem document_congr (settings : DirectoryIngest) {files others : Files}
    (h : others.read = files.read) : settings.document others = settings.document files := by
  have hresolve : settings.desktopFiles.resolve others = settings.desktopFiles.resolve files := by
    funext id useRoot
    rw [DesktopFiles.resolve, DesktopFiles.resolve, h]
  funext path listed progress name
  rw [document, document, documentSettings, documentSettings, hresolve, h]

section

variable (settings : DirectoryIngest) (files : Files) (path : Path)
  (listed : List (RecordId × String))

/-- The run after some documents: what they come to is added to what there was before. -/
def Progress.extend (progress : Progress) (visited : List String) : Progress :=
  let jobs := visited.filterMap (settings.job? files path listed)
  let ingested := ingestInTurn progress.pool jobs
  { pool := poolAfter progress.pool jobs
    report :=
      { records := progress.report.records ++ ingested.flatMap Ingested.records
        problems := progress.report.problems ++ visited.filterMap (problem? files path)
        documents := progress.report.documents +
          visited.countP fun name => (problem? files path name).isNone }
    queries := progress.queries ++ ingested.flatMap Ingested.queries }

theorem Progress.extend_append (progress : Progress) (visited more : List String) :
    progress.extend settings files path listed (visited ++ more) =
      (progress.extend settings files path listed visited).extend settings files path listed
        more := by
  simp only [Progress.extend]
  rw [List.filterMap_append, List.filterMap_append, ingestInTurn_append, poolAfter_append,
    List.countP_append]
  simp only [List.flatMap_append, List.append_assoc, Nat.add_assoc]

/-- Every document counts, as one that was read or as one with a problem. -/
theorem Progress.counted_extend (progress : Progress) (visited : List String) :
    let later := progress.extend settings files path listed visited
    later.report.documents + later.report.problems.length =
      progress.report.documents + progress.report.problems.length + visited.length := by
  intro later
  have hproblems : (visited.filterMap (problem? files path)).length =
      visited.countP fun name => ¬ (problem? files path name).isNone := by
    rw [List.length_filterMap_eq_countP]
    refine List.countP_congr fun name _ => ?_
    cases problem? files path name <;> simp
  have htotal := List.length_eq_countP_add_countP
    (fun name => (problem? files path name).isNone) (l := visited)
  simp only [later, Progress.extend, List.length_append]
  omega

/-- One document adds its records, or what is wrong with it. -/
theorem document_eq (progress : Progress) (name : String) :
    settings.document files path listed progress name =
      progress.extend settings files path listed [name] := by
  cases hread : files.read (path.join (.ofString name)) with
  | error error =>
      simp [document, Progress.extend, job?, problem?, hread, ingestInTurn, poolAfter]
  | ok source =>
      have hresult := result_ingest (settings.documentSettings files name
        ((listed.filter fun (_, basename) => basename = name).map Prod.fst)) progress.pool source
      cases hfailure : (Markup.read source).failure with
      | none =>
          rw [hfailure] at hresult
          simp [document, Progress.extend, job?, problem?, hread, ingestInTurn, poolAfter,
            Job.ingest, Ingested.records, Except.toOption, hfailure, hresult]
      | some failure =>
          rw [hfailure] at hresult
          simp [document, Progress.extend, job?, problem?, hread, ingestInTurn, poolAfter,
            Job.ingest, Ingested.records, Except.toOption, hfailure, hresult]

theorem foldl_document (progress : Progress) (visited : List String) :
    visited.foldl (settings.document files path listed) progress =
      progress.extend settings files path listed visited := by
  induction visited generalizing progress with
  | nil => simp [Progress.extend, ingestInTurn, poolAfter]
  | cons name visited ih =>
      rw [List.foldl_cons, ih, document_eq, ← Progress.extend_append, List.singleton_append]

end

/-- The pool that a run leaves. One that fails leaves the pool that it was given. -/
def poolLeft (settings : DirectoryIngest) (files : Files) (pool : Pool) (directory : Path) : Pool :=
  match settings.run files pool directory with
  | .ok progress => progress.pool
  | .error _ => pool

section

variable {settings : DirectoryIngest} {files : Files} {pool : Pool} {directory path : Path}

theorem run_of_list_error (pool : Pool) {error : SystemError}
    (h : files.list (settings.lookupPath directory) = .error error) :
    settings.run files pool directory = .error ⟨settings.lookupPath directory⟩ := by
  rw [run, h]

/-- A run over a directory is the run over the documents in turn, and what they stage is carried
out at the end. -/
theorem run_of_list_ok (pool : Pool) {names : List (List UInt8)}
    (h : files.list (settings.lookupPath directory) = .ok names) :
    let listed := settings.candidates pool directory
    let progress := Progress.extend settings files (settings.lookupPath directory) listed
      ⟨pool, .empty, []⟩ (documentNames names)
    settings.run files pool directory = .ok { progress with
      pool :=
        if settings.flags.deferWrites then progress.pool else progress.pool.internalize } := by
  intro listed progress
  rw [run, h]
  dsimp only
  rw [foldl_document]
  cases settings.flags.deferWrites <;> rfl

theorem poolLeft_of_list_ok {names : List (List UInt8)}
    (h : files.list (settings.lookupPath directory) = .ok names) :
    let after := poolAfter pool ((documentNames names).filterMap
      (settings.job? files (settings.lookupPath directory) (settings.candidates pool directory)))
    settings.poolLeft files pool directory =
      if settings.flags.deferWrites then after else after.internalize := by
  intro after
  rw [poolLeft, run_of_list_ok pool h]
  rfl

/-- What can be seen of a record after the last document can be seen in the end. -/
theorem depicts_poolLeft (hpool : pool.WellFormed) {names : List (List UInt8)}
    (h : files.list (settings.lookupPath directory) = .ok names) {record : RecordId}
    {plain : PlainRecord} (hdepicts : (poolAfter pool ((documentNames names).filterMap
      (settings.job? files (settings.lookupPath directory)
        (settings.candidates pool directory)))).Depicts record plain) :
    (settings.poolLeft files pool directory).Depicts record plain := by
  rw [poolLeft_of_list_ok h]
  split
  · exact hdepicts
  · exact hdepicts.kept (.internalize (since_poolAfter hpool _).wellFormed record)

theorem run_congr {others : Files} {names permuted : List (List UInt8)}
    (hread : others.read = files.read) (h : files.list (settings.lookupPath directory) = .ok names)
    (hothers : others.list (settings.lookupPath directory) = .ok permuted)
    (hperm : permuted.Perm names) :
    settings.run others pool directory = settings.run files pool directory := by
  rw [run, run, h, hothers]
  dsimp only
  rw [documentNames_eq_of_perm hperm, document_congr settings hread]

/-- The owners of a document are records that list its file. -/
theorem mem_recordsListing_of_job? (hpool : pool.WellFormed) {name : String} {job : Job}
    (h : settings.job? files path (settings.candidates pool directory) name = some job)
    {owner : RecordId} (howner : owner ∈ job.settings.owners) :
    owner ∈ pool.recordsListing (trimmedDirectory directory.display ++ "/" ++ name) := by
  rw [eq_of_job? h] at howner
  obtain ⟨⟨record, found⟩, hentry, rfl⟩ := List.mem_map.mp howner
  obtain ⟨hlisted, hfound⟩ := List.mem_filter.mp hentry
  obtain rfl := of_decide_eq_true hfound
  rw [candidates] at hlisted
  split at hlisted
  · exact Pool.mem_recordsListing_of_mem_searchFiles hpool hlisted
  · contradiction

theorem ownersLive_of_job? (hpool : pool.WellFormed) {name : String} {job : Job}
    (h : settings.job? files path (settings.candidates pool directory) name = some job)
    (hknown : job.settings.OwnersKnown pool) : job.settings.OwnersLive pool := fun owner howner =>
  ⟨Pool.isLive_of_mem_recordsListing (mem_recordsListing_of_job? hpool h howner),
    hknown owner howner⟩

end

/-- A run visits the documents of a directory in the order of the bytes of their names, each as
often as it is listed, and the order of the listing does not matter. It is the run over the
documents that can be opened, one after the other. Each of them ends as it does alone and gives the
records that it gives alone, with numbers that go on from those completed before, by malformed
documents too. If the directory cannot be listed, nothing changes. -/
theorem run_in_turn (settings : DirectoryIngest) (files : Files) (pool : Pool)
    (directory : Path) :
    let path := settings.lookupPath directory
    let listed := settings.candidates pool directory
    (∀ error, files.list path = .error error →
      settings.run files pool directory = .error ⟨path⟩ ∧
        settings.poolLeft files pool directory = pool) ∧
    ∀ names, files.list path = .ok names →
      let visited := documentNames names
      let jobs := visited.filterMap (settings.job? files path listed)
      let ingested := ingestInTurn pool jobs
      (∀ name, visited.count name =
        if isMetadataFile name then names.count (encode name) else 0) ∧
      visited.Pairwise (fun name next => encode name ≤ encode next) ∧
      (∀ others : Files, others.read = files.read →
        ∀ permuted : List (List UInt8), others.list path = .ok permuted → permuted.Perm names →
          settings.run others pool directory = settings.run files pool directory) ∧
      ∃ progress, settings.run files pool directory = .ok progress ∧
        settings.poolLeft files pool directory = progress.pool ∧
        progress.pool = (if settings.flags.deferWrites then poolAfter pool jobs
          else (poolAfter pool jobs).internalize) ∧
        (settings.flags.deferWrites = false → progress.pool.staged = #[]) ∧
        progress.report.records = ingested.flatMap Ingested.records ∧
        progress.report.problems = visited.filterMap (problem? files path) ∧
        progress.report.documents + progress.report.problems.length = visited.length ∧
        (pool.Reachable → ∀ before job after, jobs = before ++ job :: after →
          job.settings.OwnersKnown pool →
            let alone := job.ingest pool
            let offset := (before.map Job.count).sum
            (ingested[before.length]?).map Ingested.result =
                some (alone.result.map fun records => records.map (·.shift offset)) ∧
              ∀ record ∈ job.completed pool, ∃ plain : PlainRecord,
                alone.pool.view record = .ok (plain.view record) ∧
                  progress.pool.view (record.shift offset) =
                    .ok (plain.view (record.shift offset))) := by
  intro path listed
  constructor
  · intro error hlist
    have hrun := run_of_list_error pool hlist
    exact ⟨hrun, by rw [poolLeft, hrun]⟩
  intro names hlist visited jobs ingested
  have hrun := run_of_list_ok pool hlist
  refine ⟨count_documentNames names, documentNames_ordered names,
    fun others hread permuted hothers hperm => run_congr hread hlist hothers hperm,
    _, hrun, by rw [poolLeft, hrun], rfl, fun hflag => ?_, List.nil_append _, List.nil_append _,
    ?_, ?_⟩
  · dsimp only
    rw [if_neg (by simp [hflag]), Pool.staged_internalize]
  · have hcounted := Progress.counted_extend settings files path listed ⟨pool, .empty, []⟩ visited
    exact hcounted.trans (Nat.zero_add _)
  · intro hpool before job after hjobs hknown alone offset
    have hmem : job ∈ jobs := hjobs ▸ List.mem_append_right before List.mem_cons_self
    obtain ⟨name, -, hjob⟩ := List.mem_filterMap.mp hmem
    have howners := ownersLive_of_job? hpool.wellFormed hjob hknown
    obtain ⟨hresult, hviews⟩ :=
      ingestInTurn_contribution hpool.wellFormed before howners after
    rw [← hjobs] at hresult hviews
    refine ⟨hresult, fun record hrecord => ?_⟩
    obtain ⟨plain, halone, hlater⟩ := hviews record hrecord
    have hfinal := (depicts_poolLeft hpool.wellFormed hlist hlater).view
    rw [poolLeft_of_list_ok hlist] at hfinal
    exact ⟨plain, halone.view, hfinal⟩

/-- A malformed document in front, of which a record was completed. -/
theorem run_in_turn_malformed :
    let broken := Source.ofBytes (encode "<components><component/></oops>")
    let sound := Source.ofBytes (encode "<component><id>foo.desktop</id></component>")
    let files := Files.ofDocuments (.ofString "m")
      [("a.metainfo.xml", broken), ("b.metainfo.xml", sound)]
    let named := Pool.empty.addRecord.2.intern "foo-data"
    let pool := (named.2.setName ⟨0⟩ named.1).addToList ⟨0⟩ .files "m/b.metainfo.xml"
    let settings := ofFlags { Flags.none with searchFileLists := true }
    let job : Job := ⟨settings.documentSettings files "b.metainfo.xml" [⟨0⟩], sound⟩
    ∃ progress, settings.run files pool (.ofString "m") = .ok progress ∧
      progress.report.documents + progress.report.problems.length = 2 ∧
      progress.pool.staged = #[] ∧
      ∃ plain : PlainRecord, (job.ingest pool).pool.view ⟨1⟩ = .ok (plain.view ⟨1⟩) ∧
        progress.pool.view ⟨2⟩ = .ok (plain.view ⟨2⟩) := by
  intro broken sound files named pool settings job
  have hreachable : pool.Reachable :=
    ⟨[.addRecord, .intern "foo-data", .setName ⟨0⟩ named.1,
      .addToList ⟨0⟩ .files "m/b.metainfo.xml"], rfl⟩
  have hlist : files.list (.ofString "m") =
      .ok (["a.metainfo.xml", "b.metainfo.xml"].map encode) := Files.list_ofDocuments _ _
  have hnames : documentNames (["a.metainfo.xml", "b.metainfo.xml"].map encode) =
      ["a.metainfo.xml", "b.metainfo.xml"] :=
    documentNames_of_accepted (by decide +kernel) (by decide)
  have hsearch (strings : Interner) (name : StringId) :
      ((({ Pool.empty.addRecord.2 with strings } : Pool).setName ⟨0⟩ name).addToList ⟨0⟩ .files
        "m/b.metainfo.xml").searchFiles (Path.ofString "m").display =
          [(⟨0⟩, "b.metainfo.xml")] := by
    cbv
  have hlisted : settings.candidates pool (.ofString "m") = [(⟨0⟩, "b.metainfo.xml")] :=
    hsearch named.2.strings named.1
  let first : Job := ⟨settings.documentSettings files "a.metainfo.xml" [], broken⟩
  have hjobs : (documentNames (["a.metainfo.xml", "b.metainfo.xml"].map encode)).filterMap
      (settings.job? files (settings.lookupPath (.ofString "m"))
        (settings.candidates pool (.ofString "m"))) = [first, job] := by
    rw [hnames, hlisted]
    rfl
  have hknown : job.settings.OwnersKnown pool := by
    intro owner howner name hname
    obtain rfl := List.mem_singleton.mp howner
    obtain rfl := Option.some.inj hname
    exact ⟨"foo-data", Pool.wellFormed_empty.strings.resolve?_intern "foo-data"⟩
  obtain ⟨-, hrun⟩ := run_in_turn settings files pool (.ofString "m")
  obtain ⟨-, -, -, progress, hprogress, -, -, hstaged, -, -, hcounted, halone⟩ := hrun _ hlist
  refine ⟨progress, hprogress, hcounted.trans (congrArg List.length hnames), hstaged rfl, ?_⟩
  obtain ⟨-, hviews⟩ := halone hreachable [first] job [] hjobs hknown
  have hcompleted : ⟨1⟩ ∈ job.completed pool := by
    rw [Job.completed, completedRecords_eq]
    decide +kernel
  obtain ⟨plain, hfirst, hlater⟩ := hviews ⟨1⟩ hcompleted
  have hcount : RecordId.shift ([first].map Job.count).sum ⟨1⟩ = ⟨2⟩ := by decide +kernel
  rw [hcount] at hlater
  exact ⟨plain, hfirst, hlater⟩

/-- A malformed document in front changes what a record requires, if the name of its owner has a
number that the pool has not given out: the name that the malformed document gives its application
is the text that the pool learns first. -/
theorem poolLeft_malformed_unissued :
    let broken := Source.ofBytes (encode "<component><name>A</name></oops>")
    let sound := Source.ofBytes (encode "<component><id>foo.desktop</id></component>")
    let pool := (Pool.empty.addRecord.2.setName ⟨0⟩ ⟨4⟩).addToList ⟨0⟩ .files "m/b.metainfo.xml"
    let settings := ofFlags { Flags.none with searchFileLists := true }
    let requires (documents : List (String × Source)) :=
      let final := settings.poolLeft (.ofDocuments (.ofString "m") documents) pool (.ofString "m")
      (final.requires ⟨1⟩).map final.spell?
    pool.Reachable ∧ (Markup.read broken).failure.isSome ∧
      requires [("b.metainfo.xml", sound)] = [some ⟨"application:foo", none⟩] ∧
      requires [("a.metainfo.xml", broken), ("b.metainfo.xml", sound)] =
        [some ⟨"application:A", none⟩] := by
  intro broken sound pool settings requires
  have hpool : pool.Reachable :=
    ⟨[.addRecord, .setName ⟨0⟩ ⟨4⟩, .addToList ⟨0⟩ .files "m/b.metainfo.xml"], rfl⟩
  have hlisted : settings.candidates pool (.ofString "m") = [(⟨0⟩, "b.metainfo.xml")] := by cbv
  have hbroken : (Markup.read broken).failure.isSome := by decide +kernel
  let named : Application :=
    ⟨⟨"component", .empty⟩, .element "name" .empty (.text "A" .empty) .empty⟩
  let application : Application :=
    ⟨⟨"component", .empty⟩, .element "id" .empty (.text "foo.desktop" .empty) .empty⟩
  have hreading : Markup.read sound = ⟨application.document.events, none⟩ := by decide +kernel
  have hpackages : application.packages = [] := by decide +kernel
  have hfinal {documents : List (String × Source)} {jobs : List Job} {plain : PlainRecord}
      {name : String} (haccepted : ∀ name ∈ documents.map Prod.fst, isMetadataFile name)
      (hordered : (documents.map Prod.fst).Pairwise (· ≤ ·))
      (hjobs : (documents.map Prod.fst).filterMap (settings.job?
        (.ofDocuments (.ofString "m") documents) (.ofString "m") [(⟨0⟩, "b.metainfo.xml")]) = jobs)
      (h : (poolAfter pool jobs).Depicts ⟨1⟩ plain) (hname : plain.requires = [⟨name, none⟩]) :
      requires documents = [some ⟨name, none⟩] := by
    rw [← hjobs, ← documentNames_of_accepted haccepted hordered, ← hlisted] at h
    have hlist := Files.list_ofDocuments (.ofString "m") documents
    have hdepicts := depicts_poolLeft hpool.wellFormed hlist h
    exact hdepicts.requires.trans (congrArg (List.map some) hname)
  refine ⟨hpool, hbroken, ?_, ?_⟩
  · let documents := [("b.metainfo.xml", sound)]
    let job : Job := ⟨settings.documentSettings (.ofDocuments (.ofString "m") documents)
      "b.metainfo.xml" [⟨0⟩], sound⟩
    have howners : job.settings.owners = [⟨0⟩] := rfl
    have hdetails : application.content.details = [.id "foo.desktop"] := by decide +kernel
    have hnext : pool.name? ⟨0⟩ = some (pool.strings.intern "application:foo").1 :=
      congrArg some (Interner.intern_initial (by decide)).symm
    obtain ⟨plain, hrequires, hdepicts⟩ := exists_depicts_next hreading hpool.wellFormed
      (by decide) hpackages howners (by decide) hdetails (by decide +kernel) hnext
    exact hfinal (by decide +kernel) (by decide) rfl hdepicts hrequires
  · let documents := [("a.metainfo.xml", broken), ("b.metainfo.xml", sound)]
    let files := Files.ofDocuments (.ofString "m") documents
    let first : Job := ⟨settings.documentSettings files "a.metainfo.xml" [], broken⟩
    let job : Job := ⟨settings.documentSettings files "b.metainfo.xml" [⟨0⟩], sound⟩
    let later := (first.ingest pool).pool
    have hsince := since_ingest hpool.wellFormed first
    have hkept := hsince.kept ⟨0⟩ (by decide)
    have hresolve : later.resolve? ⟨4⟩ = some "application:A" := by
      have hevents : (Markup.read broken).events =
          .start named.tag.name named.tag.attributes :: named.content.events := by decide +kernel
      have hdetails : named.content.details = [.name "application:A"] := by decide +kernel
      have hstrings := strings_ingest_broken first.settings pool hevents hbroken (by decide)
        hdetails rfl
      have hknown := Interner.valid_initial.resolve?_intern "application:A"
      rw [Interner.intern_initial (by decide)] at hknown
      exact (congrArg (Interner.resolve? · ⟨4⟩) hstrings).trans hknown
    have howners : job.settings.owners = [⟨0⟩] := rfl
    obtain ⟨plain, hrequires, hdepicts⟩ := exists_depicts_owner hreading hsince.wellFormed
      (by decide) hpackages howners (hkept.isLive.trans (by decide)) hkept.name? hresolve
    have hrecord : later.addRecord.1 = ⟨1⟩ := by
      rw [hsince.next]
      decide +kernel
    have hjobs : (documents.map Prod.fst).filterMap (settings.job? files (.ofString "m")
        [(⟨0⟩, "b.metainfo.xml")]) = [first, job] := rfl
    rw [hrecord] at hdepicts
    exact hfinal (by decide +kernel) (by decide) hjobs hdepicts hrequires

end DirectoryIngest

end Metainfo
