import Metainfo.Pool.FileList
import Metainfo.Proofs.Pool.Observation
import Metainfo.Proofs.Pool.Spelling
import Metainfo.Proofs.Text.Affix

/-!
The metadata files that the records list. A listed path names a file of a directory if it consists
of the directory, without the slashes at its end, one slash and the name of the file.
-/

namespace Metainfo

open Metainfo.Affix
open Metainfo.Naming

theorem Naming.hasMetadataEnding_of_isMetadataFile {filename : String}
    (h : isMetadataFile filename = true) : hasMetadataEnding filename = true :=
  (Bool.and_eq_true_iff.mp h).2

/-- A directory without the slashes at its end. -/
def trimmedDirectory (directory : String) : String :=
  String.ofList (directory.toList.reverse.dropWhile (· = '/')).reverse

namespace Pool

variable {pool : Pool} {directory path name : String} {record : RecordId}

theorem metadataIn?_eq_some_iff :
    metadataIn? (trimmedDirectory directory).toList path = some name ↔
      path = trimmedDirectory directory ++ "/" ++ name ∧ '/' ∉ name.toList ∧
        hasMetadataEnding name = true := by
  have hpath : path = trimmedDirectory directory ++ "/" ++ name ↔
      path.toList = (trimmedDirectory directory).toList ++ '/' :: name.toList := by
    rw [← String.toList_inj]
    simp
  rw [hpath]
  simp only [metadataIn?, Option.bind_eq_bind, Option.bind_eq_some_iff, Prod.exists]
  constructor
  · rintro ⟨parent, basename, hcut, hfound⟩
    obtain ⟨hparts, hnot⟩ := cutLast?_eq_some_iff.mp hcut
    split at hfound
    · rename_i haccepted
      obtain rfl := Option.some.inj hfound
      obtain ⟨hparent, hending⟩ := Bool.and_eq_true_iff.mp haccepted
      rw [String.toList_ofList]
      exact ⟨of_decide_eq_true hparent ▸ hparts, hnot, hending⟩
    · contradiction
  · rintro ⟨hparts, hnot, hending⟩
    refine ⟨_, _, cutLast?_eq_some_iff.mpr ⟨hparts, hnot⟩, ?_⟩
    simp [hending]

theorem searchFiles_eq (pool : Pool) (directory : String) :
    pool.searchFiles directory =
      ((List.range pool.slots.size).map RecordId.mk).flatMap fun id =>
        ((pool.lookupList id .files).filterMap
          (metadataIn? (trimmedDirectory directory).toList)).map fun name => (id, name) := by
  rw [searchFiles, trimmedDirectory, String.toList_ofList]

/-- The records that list a file, by record number. -/
def recordsListing (pool : Pool) (path : String) : List RecordId :=
  pool.records.filter fun record => (pool.lookupList record .files).contains path

/-- Only live records list files. -/
theorem recordsListing_eq (h : pool.WellFormed) (path : String) :
    pool.recordsListing path = ((List.range pool.slots.size).map RecordId.mk).filter fun record =>
      (pool.lookupList record .files).contains path := by
  rw [recordsListing, records, List.filter_filter]
  refine List.filter_congr fun id _ => ?_
  cases hid : pool.isLive id with
  | true => rw [Bool.and_true]
  | false => rw [h.lookupList_of_not_isLive hid, List.contains_nil, Bool.false_and]

theorem isLive_of_mem_recordsListing (h : record ∈ pool.recordsListing path) :
    pool.isLive record = true :=
  (List.mem_filter.mp (List.mem_of_mem_filter h)).2

/-- A record that is found for a file of a directory lists it. -/
theorem mem_recordsListing_of_mem_searchFiles (h : pool.WellFormed)
    (hfound : (record, name) ∈ pool.searchFiles directory) :
    record ∈ pool.recordsListing (trimmedDirectory directory ++ "/" ++ name) := by
  rw [searchFiles_eq, List.mem_flatMap] at hfound
  obtain ⟨id, hid, hname⟩ := hfound
  obtain ⟨found, hfound, hpair⟩ := List.mem_map.mp hname
  obtain ⟨rfl, rfl⟩ := Prod.mk.inj hpair
  obtain ⟨path, hpath, hin⟩ := List.mem_filterMap.mp hfound
  rw [recordsListing_eq h, ← (metadataIn?_eq_some_iff.mp hin).1]
  exact List.mem_filter.mpr ⟨hid, List.contains_iff_mem.mpr hpath⟩

end Pool

/-- However often each text is there, it is added once. -/
theorem foldl_addNew_repeated {α β τ : Type} [DecidableEq τ] (found : α → List β)
    (text? : α → Option τ) (elements : List α) (kept : List τ) :
    (elements.flatMap fun element => (found element).filterMap fun _ => text? element).foldl
        addNew kept =
      ((elements.filter fun element => !(found element).isEmpty).filterMap text?).foldl
        addNew kept := by
  induction elements generalizing kept with
  | nil => rfl
  | cons element elements ih =>
      have hrepeated (more : List β) (kept : List τ) {text : τ} (hmem : text ∈ kept) :
          (more.filterMap fun _ => some text).foldl addNew kept = kept := by
        induction more with
        | nil => rfl
        | cons _ more ihmore =>
            rw [List.filterMap_cons, List.foldl_cons, addNew,
              if_pos (List.contains_iff_mem.mpr hmem)]
            exact ihmore
      rw [List.flatMap_cons, List.foldl_append, ih]
      cases hfound : found element with
      | nil => simp [hfound]
      | cons first more =>
          cases htext : text? element with
          | none => simp [hfound, htext]
          | some text =>
              rw [List.filterMap_cons, List.foldl_cons,
                hrepeated more _ (mem_addNew.mpr (Or.inr rfl))]
              simp [hfound, htext]

namespace Pool

variable {pool : Pool} {directory name : String}

/-- What is told of the records that list a file of a directory, each time that they list it, is
what is told of them once. -/
theorem eraseDups_searchFiles (h : pool.WellFormed) (hslash : '/' ∉ name.toList)
    (hending : hasMetadataEnding name = true) {τ : Type} [DecidableEq τ]
    (text? : RecordId → Option τ) :
    ((((pool.searchFiles directory).filter fun (_, basename) => basename = name).map
        Prod.fst).filterMap text?).eraseDups =
      ((pool.recordsListing (trimmedDirectory directory ++ "/" ++ name)).filterMap
        text?).eraseDups := by
  let found (id : RecordId) : List String :=
    ((pool.lookupList id .files).filterMap
      (metadataIn? (trimmedDirectory directory).toList)).filter (· = name)
  have hfound (id : RecordId) : (!(found id).isEmpty) =
      (pool.lookupList id .files).contains (trimmedDirectory directory ++ "/" ++ name) := by
    rw [Bool.eq_iff_iff, List.contains_iff_mem, Bool.not_eq_true',
      List.isEmpty_eq_false_iff_exists_mem]
    constructor
    · rintro ⟨other, hother⟩
      obtain ⟨hmem, hname⟩ := List.mem_filter.mp hother
      obtain rfl := of_decide_eq_true hname
      obtain ⟨path, hpath, hin⟩ := List.mem_filterMap.mp hmem
      exact (metadataIn?_eq_some_iff.mp hin).1 ▸ hpath
    · intro hmem
      refine ⟨name, List.mem_filter.mpr ⟨List.mem_filterMap.mpr ⟨_, hmem, ?_⟩, decide_eq_true rfl⟩⟩
      exact metadataIn?_eq_some_iff.mpr ⟨rfl, hslash, hending⟩
  have hflat : (((pool.searchFiles directory).filter fun (_, basename) => basename = name).map
        Prod.fst).filterMap text? =
      ((List.range pool.slots.size).map RecordId.mk).flatMap fun id =>
        (found id).filterMap fun _ => text? id := by
    rw [searchFiles_eq]
    simp only [List.filter_flatMap, List.map_flatMap, List.filterMap_flatMap, List.filter_map,
      List.map_map, List.filterMap_map]
    rfl
  rw [hflat, ← foldl_addNew, foldl_addNew_repeated, foldl_addNew, recordsListing_eq h,
    List.filter_congr fun id _ => hfound id]

end Pool

end Metainfo
