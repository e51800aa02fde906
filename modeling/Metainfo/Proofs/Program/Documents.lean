import Metainfo.Program
import Metainfo.Proofs.Ingest.Accounting
import Metainfo.Proofs.Ingest.Deferral

/-!
Documents that are named one by one. They share a pool, but each leaves there the records that it
leaves alone, and one that fails is remembered to the end.
-/

namespace Metainfo

open Metainfo.Markup

namespace Program

/-- The content of a document, if nothing was read of the standard input before. -/
def content (files : Files) (input : Source) (path : Path) : Except SystemError Source :=
  if path = inputPath then .ok input else files.read path

/-- The standard input after a document. -/
def inputAfter (input : Source) (path : Path) : Source :=
  if path = inputPath then leftOver input else input

/-- The contents of documents that are read one after the other. -/
def contents (files : Files) (input : Source) : List Path → List (Except SystemError Source)
  | [] => []
  | path :: paths => content files input path :: contents files (inputAfter input path) paths

/-- A document can be opened and is well-formed. -/
def isSound : Except SystemError Source → Bool
  | .error _ => false
  | .ok source => (Markup.read source).failure.isNone

theorem readDocument_eq (files : Files) (progress : Progress) (path : Path) :
    readDocument files progress path = (content files progress.input path,
      { progress with input := inputAfter progress.input path }) := by
  rw [readDocument, content, inputAfter]
  split <;> rfl

theorem content_congr (files : Files) (input other : Source) {path : Path}
    (h : path ≠ inputPath) : content files input path = content files other path := by
  rw [content, content, if_neg h, if_neg h]

/-- If the standard input is read once at most, it is read from its start. -/
theorem contents_eq_map {files : Files} {input : Source} {paths : List Path}
    (h : paths.count inputPath ≤ 1) :
    contents files input paths = paths.map (content files input) := by
  induction paths generalizing input with
  | nil => rfl
  | cons path paths ih =>
      rw [List.count_cons] at h
      rw [contents, ih (Nat.le_of_add_right_le h), List.map_cons]
      by_cases hpath : path = inputPath
      · have hnone : inputPath ∉ paths := List.count_eq_zero.mp (by simp [hpath] at h; omega)
        congr 1
        refine List.map_congr_left fun other hother => content_congr files _ _ ?_
        rintro rfl
        exact hnone hother
      · rw [inputAfter, if_neg hpath]

section

variable (files : Files) (flags : Flags) (desktopFiles : DesktopFiles)

/-- The documents that can be opened. -/
def jobs (contents : List (Except SystemError Source)) : List Job :=
  (contents.filterMap Except.toOption).map (Job.mk (documentSettings files flags desktopFiles))

/-- A document is ingested if it can be opened, and whether all went well is noted. -/
theorem ingestDocument_spec (progress : Progress) (path : Path) :
    let opened := content files progress.input path
    let after := ingestDocument files flags desktopFiles progress path
    after.pool = poolAfter progress.pool (jobs files flags desktopFiles [opened]) ∧
      after.clean = (progress.clean && isSound opened) ∧
      after.input = inputAfter progress.input path := by
  intro opened after
  cases hopened : content files progress.input path with
  | error error =>
      simp only [after, opened, ingestDocument, readDocument_eq, hopened]
      exact ⟨rfl, (Bool.and_false _).symm, rfl⟩
  | ok source =>
      have hresult := result_ingest (documentSettings files flags desktopFiles) progress.pool source
      simp only [after, opened, ingestDocument, readDocument_eq, hopened, isSound]
      cases hfailure : (Markup.read source).failure with
      | none =>
          rw [hfailure] at hresult
          simp only [hresult]
          exact ⟨rfl, (Bool.and_true _).symm, trivial⟩
      | some failure =>
          rw [hfailure] at hresult
          simp only [hresult]
          exact ⟨rfl, (Bool.and_false _).symm, rfl⟩

/-- All of them are, one after the other. -/
theorem foldl_ingestDocument (progress : Progress) (paths : List Path) :
    let opened := contents files progress.input paths
    let final := paths.foldl (ingestDocument files flags desktopFiles) progress
    final.pool = poolAfter progress.pool (jobs files flags desktopFiles opened) ∧
      final.clean = (progress.clean && opened.all isSound) := by
  induction paths generalizing progress with
  | nil => exact ⟨rfl, (Bool.and_true _).symm⟩
  | cons path paths ih =>
      obtain ⟨hpool, hclean, hinput⟩ := ingestDocument_spec files flags desktopFiles progress path
      obtain ⟨hrest, hall⟩ := ih (ingestDocument files flags desktopFiles progress path)
      rw [hinput, hpool, ← poolAfter_append, jobs, jobs, ← List.map_append,
        ← List.filterMap_append] at hrest
      rw [hinput, hclean, Bool.and_assoc] at hall
      exact ⟨hrest, hall⟩

theorem ingestDocuments_spec (pool : Pool) (input : Source) (paths : List Path) :
    let opened := contents files input paths
    let after := poolAfter pool (jobs files flags desktopFiles opened)
    let final := ingestDocuments files flags desktopFiles pool input paths
    final.pool = (if flags.deferWrites then after else after.internalize) ∧
      final.clean = opened.all isSound := by
  intro opened after final
  obtain ⟨hafter, hclean⟩ :=
    foldl_ingestDocument files flags desktopFiles ⟨pool, true, [], input, []⟩ paths
  simp only [final, ingestDocuments]
  split
  · exact ⟨hafter, hclean⟩
  · exact ⟨congrArg Pool.internalize hafter, hclean⟩

end

theorem isSound_iff (content : Except SystemError Source) (settings : IngestSettings)
    (pool : Pool) :
    isSound content ↔ ∃ source records, content = .ok source ∧
      (ingest settings pool source).result = .ok records := by
  cases content with
  | error error => simp [isSound]
  | ok source =>
      have hresult := result_ingest settings pool source
      cases hfailure : (Markup.read source).failure with
      | none =>
          rw [hfailure] at hresult
          simp [isSound, hfailure, hresult]
      | some failure =>
          rw [hfailure] at hresult
          simp [isSound, hfailure, hresult]

/-- The views of records that are numbered from the start. -/
def numbered (plains : List PlainRecord) : List RecordView :=
  plains.mapIdx fun index plain => plain.view ⟨index⟩

/-- Records that are put together are numbered anew. -/
theorem numbered_flatten (plains : List (List PlainRecord)) :
    numbered plains.flatten =
      (plains.map numbered).flatten.mapIdx fun index view => { view with id := ⟨index⟩ } := by
  have hsame : plains.flatten.Forall₂ (fun plain view => ∃ id, view = plain.view id)
      (plains.map numbered).flatten := by
    refine List.rel_flatten (List.forall₂_map_right_iff.mpr ?_)
    refine List.forall₂_same.mpr fun part _ => ?_
    refine List.forall₂_iff_get.mpr ⟨by simp [numbered], fun index hleft hright => ?_⟩
    exact ⟨⟨index⟩, by simp [numbered]⟩
  refine List.ext_getElem (by simp [numbered, hsame.length_eq]) fun index hleft hright => ?_
  have hplain : index < plains.flatten.length := by
    simpa only [numbered, List.length_mapIdx] using hleft
  obtain ⟨id, hview⟩ := (List.forall₂_iff_get.mp hsame).2 index hplain (hsame.length_eq ▸ hplain)
  rw [List.get_eq_getElem, List.get_eq_getElem] at hview
  simp only [numbered, List.getElem_mapIdx] at hview ⊢
  rw [hview]
  rfl

/-- A pool that has records from the start shows them with these numbers. -/
theorem views_eq_numbered {pool : Pool} {plains : List PlainRecord} {count : Nat}
    (hrecords : pool.records = Pool.empty.nextRecords count)
    (h : plains.Forall₂ (fun plain record => pool.Depicts record plain)
      (Pool.empty.nextRecords count)) :
    pool.records = (List.range plains.length).map RecordId.mk ∧
      pool.views = .ok (numbered plains) := by
  have hcount : plains.length = count := by simpa [Pool.nextRecords] using h.length_eq
  have hnumbers : pool.records = (List.range plains.length).map RecordId.mk := by
    rw [hrecords, hcount, Pool.nextRecords]
    exact List.map_congr_left fun index _ => congrArg RecordId.mk (Nat.zero_add index)
  refine ⟨hnumbers, ?_⟩
  rw [← hrecords] at h
  rw [Pool.views_of_depicts h, hnumbers]
  refine congrArg Except.ok (List.ext_getElem ?_ fun index hleft hright => ?_)
  · simp [numbered]
  · simp [numbered]

/-- So does a document that is ingested alone, whether or not its writes stay staged. -/
theorem views_alone {settings : IngestSettings} {source : Source} {plains : List PlainRecord}
    (h : plains.Forall₂
      (fun plain record => (ingest settings .empty source).pool.Depicts record plain)
      (Pool.empty.nextRecords (Job.mk settings source).count)) (defer : Bool) :
    let alone := ingest (settings.deferring defer) .empty source
    alone.pool.records = completedRecords (settings.deferring defer) .empty source ∧
      alone.pool.views = .ok (numbered plains) := by
  intro alone
  have hrecords := records_ingest settings .empty source
  rw [completedRecords_eq] at hrecords
  have hsame := alike_ingest (.refl Pool.coherent_empty) settings defer source
  exact ⟨records_ingest (settings.deferring defer) .empty source,
    hsame.pool.views.trans (views_eq_numbered hrecords h).2⟩

/-- Documents that are named one by one leave the records that each of them leaves alone, in order
and numbered from the start; those that cannot be opened leave nothing, and those that fail leave
what they completed. All went well if every document could be opened and none of them failed, and
in any case all records can be shown. -/
theorem ingestDocuments_in_turn (files : Files) (flags : Flags) (desktopFiles : DesktopFiles)
    (input : Source) (paths : List Path) (hinput : paths.count inputPath ≤ 1) (defer : Bool) :
    let contents := paths.map (content files input)
    let settings := (documentSettings files flags desktopFiles).deferring defer
    let alone := ingest settings .empty
    let final := ingestDocuments files flags desktopFiles .empty input paths
    (∃ views : List (List RecordView),
      (contents.filterMap Except.toOption).Forall₂ (fun source views =>
        (alone source).pool.records = completedRecords settings .empty source ∧
          (alone source).pool.views = .ok views) views ∧
      final.pool.records = (List.range views.flatten.length).map RecordId.mk ∧
      final.pool.views =
        .ok (views.flatten.mapIdx fun index view => { view with id := ⟨index⟩ })) ∧
    (final.clean = true ↔ ∀ content ∈ contents, ∃ source records,
      content = .ok source ∧ (alone source).result = .ok records) ∧
    ∀ json, ∃ output, render json final.pool = .ok output := by
  intro opened settings alone final
  obtain ⟨hcarried, hclean⟩ := ingestDocuments_spec files flags desktopFiles .empty input paths
  rw [contents_eq_map hinput] at hcarried hclean
  let documents := jobs files flags desktopFiles opened
  have hfinal : (poolAfter .empty documents).Alike final.pool := by
    rw [show final.pool = _ from hcarried]
    exact (Pool.Alike.refl (coherent_poolAfter Pool.coherent_empty _)).carriedOut true _
  have howners : ∀ job ∈ documents, job.settings.OwnersLive .empty := by
    refine List.forall_mem_map.mpr fun source _ owner howner => ?_
    contradiction
  obtain ⟨plains, halone, hafter⟩ := exists_depicts_in_turn Pool.wellFormed_empty howners
  have hdepicts := hafter .empty 0 (.refl Pool.wellFormed_empty)
  have hrecords := records_poolAfter .empty documents
  rw [completedInTurn_eq] at hdepicts hrecords
  obtain ⟨hnumbers, hnumbered⟩ := views_eq_numbered hrecords hdepicts
  rw [numbered_flatten] at hnumbered
  have hviews : final.pool.views = _ := hfinal.views.trans hnumbered
  refine ⟨⟨plains.map numbered, ?_, ?_, hviews⟩, ?_, ?_⟩
  · rw [List.forall₂_map_right_iff]
    exact (List.forall₂_map_left_iff.mp halone).imp fun source part hpart =>
      views_alone hpart defer
  · have hlength : (plains.map numbered).flatten.length = plains.flatten.length := by
      simp [numbered, Function.comp_def]
    rw [hlength]
    exact hfinal.records.trans hnumbers
  · rw [show final.clean = _ from hclean, List.all_eq_true]
    exact forall₂_congr fun content _ => isSound_iff content settings .empty
  · intro json
    rw [render, hviews]
    exact ⟨_, rfl⟩

/-- A malformed document from the standard input, one that is not there, and a sound one. -/
theorem ingestDocuments_in_turn_malformed :
    let broken := Source.ofBytes (Utf8.encode "<components><component/></oops>")
    let sound := Source.ofBytes (Utf8.encode "<component><id>foo.desktop</id></component>")
    let files : Files := { Files.none with
      read := fun path => if path = .ofString "b" then .ok sound else .error .notFound }
    let paths : List Path := [inputPath, .ofString "a", .ofString "b"]
    let final := ingestDocuments files .none .default .empty broken paths
    let alone := ingest ((documentSettings files .none .default).deferring false) .empty
    paths.count inputPath ≤ 1 ∧ final.clean = false ∧
      ∃ first second, (alone broken).pool.views = .ok first ∧
        (alone sound).pool.views = .ok second ∧ final.pool.views =
          .ok ((first ++ second).mapIdx fun index view => { view with id := ⟨index⟩ }) := by
  intro broken sound files paths final alone
  have hinput : paths.count inputPath ≤ 1 := by decide
  have hcontents : paths.map (content files broken) =
      [.ok broken, .error .notFound, .ok sound] := rfl
  obtain ⟨⟨views, halone, -, hviews⟩, hclean, -⟩ :=
    ingestDocuments_in_turn files .none .default broken paths hinput false
  rw [hcontents] at halone hclean
  refine ⟨hinput, ?_, ?_⟩
  · rw [Bool.eq_false_iff, ne_eq, hclean]
    intro hall
    obtain ⟨source, records, hsource, -⟩ := hall (.error .notFound) (by simp)
    contradiction
  · obtain ⟨first, rest, hfirst, hrest, rfl⟩ := List.forall₂_cons_left_iff.mp halone
    obtain ⟨second, others, hsecond, hothers, rfl⟩ := List.forall₂_cons_left_iff.mp hrest
    obtain rfl := List.forall₂_nil_left_iff.mp hothers
    refine ⟨first, second, hfirst.2, hsecond.2, ?_⟩
    rwa [List.flatten_cons, List.flatten_singleton] at hviews

end Program

end Metainfo
