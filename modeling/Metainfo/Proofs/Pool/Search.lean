import Mathlib.Data.List.TakeWhile
import Metainfo.Proofs.Pool.FileList
import Metainfo.Proofs.Sorting

/-!
Searching the file lists of all records. The pool keeps its lists in two places, those carried out
in no particular order; looking through both and sorting what is found by record gives each record's
files in the order of its list.
-/

namespace Metainfo

open Metainfo.Affix
open Metainfo.Naming
open Metainfo.Sorting

/-- A name has a metadata ending if it is something with one of the endings behind it. -/
theorem Naming.hasMetadataEnding_iff {name : String} :
    hasMetadataEnding name = true ↔
      ∃ stem ending, stem ≠ "" ∧ ending ∈ metadataEndings ∧ name = stem ++ ending := by
  have hname (stem ending : String) :
      name = stem ++ ending ↔ name.toList = stem.toList ++ ending.toList := by
    rw [← String.toList_inj, String.toList_append]
  rw [hasMetadataEnding, List.any_eq_true]
  constructor
  · rintro ⟨ending, hending, h⟩
    split at h
    · rename_i first rest hcut
      refine ⟨String.ofList (first :: rest), ending, ?_, hending, ?_⟩
      · intro hempty
        simpa using congrArg String.toList hempty
      · rw [hname, String.toList_ofList]
        exact withoutEnding?_eq_some_iff.mp hcut
    · contradiction
  · rintro ⟨stem, ending, hstem, hending, h⟩
    refine ⟨ending, hending, ?_⟩
    rw [withoutEnding?_eq_some_iff.mpr ((hname stem ending).mp h)]
    cases hlist : stem.toList with
    | nil => exact absurd (String.toList_inj.mp hlist) hstem
    | cons first rest => rfl

/-- A directory is the trimmed one with slashes behind it, and the trimmed one ends in none. -/
theorem trimmedDirectory_spec (directory : String) :
    ∃ slashes, directory =
        trimmedDirectory directory ++ String.ofList (List.replicate slashes '/') ∧
      (trimmedDirectory directory).toList.getLast? ≠ some '/' := by
  let chars := directory.toList.reverse
  have hcut : directory.toList =
      (chars.dropWhile (· = '/')).reverse ++ (chars.takeWhile (· = '/')).reverse := by
    rw [← List.reverse_append, List.takeWhile_append_dropWhile, List.reverse_reverse]
  have hslashes : (chars.takeWhile (· = '/')).reverse =
      List.replicate (chars.takeWhile (· = '/')).length '/' := by
    rw [List.eq_replicate_iff, List.length_reverse]
    refine ⟨rfl, fun char hchar => ?_⟩
    simpa using List.mem_takeWhile_imp (List.mem_reverse.mp hchar)
  refine ⟨(chars.takeWhile (· = '/')).length, ?_, ?_⟩
  · rw [← String.toList_inj, String.toList_append, trimmedDirectory, String.toList_ofList,
      String.toList_ofList, ← hslashes]
    exact hcut
  · rw [trimmedDirectory, String.toList_ofList, List.getLast?_reverse]
    intro hlast
    have hhead := List.head?_dropWhile_not (· = '/') chars
    rw [hlast] at hhead
    simp at hhead

namespace Pool

/-- The entries of the file lists: those carried out, record by record as `entries` has them, then
the staged ones. -/
def listings (pool : Pool) (entries : List (RecordId × RecordAttributes)) :
    List (RecordId × String) :=
  (entries.flatMap fun (id, attributes) =>
      (attributes.files.filterMap pool.resolve?).map fun path => (id, path)) ++
    pool.staged.toList.filterMap fun (id, write) =>
      match write with
      | .push .files path => some (id, path)
      | _ => none

/-- Finds the metadata files of a directory among all entries and then sorts them by record. -/
def searchListings (pool : Pool) (entries : List (RecordId × RecordAttributes))
    (directory : String) : List (RecordId × String) :=
  let directory := (directory.toList.reverse.dropWhile (· = '/')).reverse
  sortedBy (fun (id, _) => id.index) <|
    (pool.listings entries).filterMap fun (id, path) =>
      (metadataIn? directory path).map fun name => (id, name)

variable {pool : Pool} {entries : List (RecordId × RecordAttributes)}

/-- However the attributes are listed, each record has its own there. -/
theorem filter_attributes (h : entries.Perm pool.attributes.toList) (id : RecordId) :
    entries.filter (·.1 = id) =
      (pool.attributes[id]?.map fun attributes => (id, attributes)).toList := by
  have hmem (attributes : RecordAttributes) :
      (id, attributes) ∈ entries ↔ pool.attributes[id]? = some attributes := by
    rw [h.mem_iff, Std.HashMap.mem_toList_iff_getElem?_eq_some]
  have hdistinct : entries.Pairwise fun first second => first.1 ≠ second.1 := by
    refine (h.pairwise_iff fun hne => hne.symm).mpr ?_
    exact Std.HashMap.distinct_keys_toList.imp fun hne => by simpa using hne
  cases hfound : pool.attributes[id]? with
  | none =>
      refine List.filter_eq_nil_iff.mpr fun entry hentry hid => ?_
      obtain rfl := of_decide_eq_true hid
      have hsome := (hmem entry.2).mp hentry
      rw [hfound] at hsome
      contradiction
  | some attributes =>
      obtain ⟨before, after, rfl⟩ := List.append_of_mem ((hmem attributes).mpr hfound)
      obtain ⟨-, hafter, hbefore⟩ := List.pairwise_append.mp hdistinct
      have hnotBefore : before.filter (·.1 = id) = [] := by
        refine List.filter_eq_nil_iff.mpr fun entry hentry hid => ?_
        exact hbefore entry hentry _ List.mem_cons_self (of_decide_eq_true hid)
      have hnotAfter : after.filter (·.1 = id) = [] := by
        refine List.filter_eq_nil_iff.mpr fun entry hentry hid => ?_
        exact (List.pairwise_cons.mp hafter).1 entry hentry (of_decide_eq_true hid).symm
      rw [List.filter_append, hnotBefore, List.filter_cons_of_pos (by simp), hnotAfter]
      rfl

/-- What one owner has among what all the owners have. -/
theorem filter_flatMap_owned {α κ γ : Type} [DecidableEq κ] (owner : α → κ)
    {owned : α → List (κ × γ)} (h : ∀ element, ∀ pair ∈ owned element, pair.1 = owner element)
    (key : κ) (elements : List α) :
    (elements.flatMap owned).filter (·.1 = key) =
      (elements.filter (owner · = key)).flatMap owned := by
  induction elements with
  | nil => rfl
  | cons element rest ih =>
      rw [List.flatMap_cons, List.filter_append, ih]
      by_cases hkey : owner element = key
      · rw [List.filter_cons_of_pos (by simpa using hkey), List.flatMap_cons]
        congr 1
        refine List.filter_eq_self.mpr fun pair hpair => decide_eq_true ?_
        exact (h element pair hpair).trans hkey
      · rw [List.filter_cons_of_neg (by simpa using hkey), List.append_left_eq_self]
        refine List.filter_eq_nil_iff.mpr fun pair hpair heq => hkey ?_
        exact (h element pair hpair).symm.trans (of_decide_eq_true heq)

/-- Among all entries those of one record are its file list. -/
theorem filter_listings (h : entries.Perm pool.attributes.toList) (id : RecordId) :
    (pool.listings entries).filter (·.1 = id) =
      (pool.lookupList id .files).map fun path => (id, path) := by
  rw [listings, List.filter_append, lookupList_eq, List.map_append]
  congr 1
  · rw [filter_flatMap_owned Prod.fst ?_ id entries, filter_attributes h,
      internalNumbers]
    · cases pool.attributes[id]? with
      | none => rfl
      | some attributes => exact List.append_nil _
    · rintro ⟨owner, attributes⟩ pair hpair
      obtain ⟨path, -, rfl⟩ := List.mem_map.mp hpair
      rfl
  · rw [List.filter_filterMap, List.map_filterMap]
    refine List.filterMap_congr fun entry _ => ?_
    obtain ⟨owner, write⟩ := entry
    cases write with
    | set key value => rfl
    | push key value =>
        cases key with
        | files => by_cases hid : owner = id <;> simp [addedValue, hid]
        | _ => simp [addedValue]

/-- Whatever the order in which the attributes are listed, looking through both places and sorting
by record finds what looking through the lists of one record after the other finds. -/
theorem searchListings_eq (hpool : pool.WellFormed)
    (h : entries.Perm pool.attributes.toList) (directory : String) :
    pool.searchListings entries directory = pool.searchFiles directory := by
  have hlive : ∀ entry ∈ pool.listings entries, entry.1.index < pool.slots.size := by
    intro entry hentry
    have hown : entry ∈ (pool.listings entries).filter (·.1 = entry.1) :=
      List.mem_filter.mpr ⟨hentry, decide_eq_true rfl⟩
    rw [filter_listings h] at hown
    cases hid : pool.isLive entry.1 with
    | true => exact index_lt_of_isLive hid
    | false =>
        rw [hpool.lookupList_of_not_isLive hid] at hown
        contradiction
  let trimmed := (directory.toList.reverse.dropWhile (· = '/')).reverse
  let found (entry : RecordId × String) : Option (RecordId × String) :=
    (metadataIn? trimmed entry.2).map fun name => (entry.1, name)
  have hfound : ∀ pair ∈ (pool.listings entries).filterMap found,
      pair.1.index ∈ List.range pool.slots.size := by
    intro pair hpair
    obtain ⟨entry, hentry, hin⟩ := List.mem_filterMap.mp hpair
    obtain ⟨name, -, rfl⟩ := Option.map_eq_some_iff.mp hin
    exact List.mem_range.mpr (hlive entry hentry)
  change sortedBy (fun pair => pair.1.index) ((pool.listings entries).filterMap found) = _
  rw [sortedBy_eq_flatMap List.pairwise_lt_range hfound, searchFiles, List.flatMap_map]
  refine List.flatMap_congr fun index _ => ?_
  have hsame : ((pool.listings entries).filterMap found).filter (·.1.index = index) =
      ((pool.listings entries).filter (·.1 = ⟨index⟩)).filterMap found := by
    rw [List.filter_filterMap, List.filterMap_filter]
    refine List.filterMap_congr fun entry _ => ?_
    obtain ⟨⟨owner⟩, path⟩ := entry
    by_cases hindex : owner = index
    · cases hmetadata : metadataIn? trimmed path <;> simp [found, hindex, hmetadata]
    · cases hmetadata : metadataIn? trimmed path <;> simp [found, hindex, hmetadata]
  rw [hsame, filter_listings h, List.filterMap_map, List.map_filterMap]
  rfl

/-- Carrying the staged lists out does not change what is found. -/
theorem searchFiles_internalize (hpool : pool.WellFormed) (directory : String) :
    pool.internalize.searchFiles directory = pool.searchFiles directory := by
  rw [searchFiles, searchFiles, slots_internalize]
  simp only [hpool.lookupList_internalize]

/-- Only live records have files to be found. -/
theorem searchFiles_eq_records (hpool : pool.WellFormed) (directory : String) :
    pool.searchFiles directory = pool.records.flatMap fun record =>
      ((pool.lookupList record .files).filterMap
        (metadataIn? (trimmedDirectory directory).toList)).map fun name => (record, name) := by
  rw [searchFiles_eq, records]
  generalize (List.range pool.slots.size).map RecordId.mk = ids
  induction ids with
  | nil => rfl
  | cons id rest ih =>
      rw [List.flatMap_cons, ih, List.filter_cons]
      cases hid : pool.isLive id with
      | true => rfl
      | false =>
          rw [hpool.lookupList_of_not_isLive hid]
          rfl

theorem mem_searchFiles_iff (hpool : pool.WellFormed) {directory name : String}
    {record : RecordId} :
    (record, name) ∈ pool.searchFiles directory ↔
      pool.isLive record = true ∧
        trimmedDirectory directory ++ "/" ++ name ∈ pool.lookupList record .files ∧
        '/' ∉ name.toList ∧ hasMetadataEnding name = true := by
  have hrecord (other : RecordId) : other ∈ pool.records ↔ pool.isLive other = true := by
    rw [records, List.mem_filter, and_iff_right_iff_imp]
    exact fun hlive => List.mem_map.mpr ⟨_, List.mem_range.mpr (index_lt_of_isLive hlive), rfl⟩
  simp only [searchFiles_eq_records hpool, List.mem_flatMap, hrecord, List.mem_map,
    List.mem_filterMap, metadataIn?_eq_some_iff, Prod.mk.injEq]
  constructor
  · rintro ⟨record, hlive, name, ⟨path, hpath, rfl, hname⟩, rfl, rfl⟩
    exact ⟨hlive, hpath, hname⟩
  · rintro ⟨hlive, hpath, hname⟩
    exact ⟨record, hlive, name, ⟨_, hpath, rfl, hname⟩, rfl, rfl⟩

/-- The search finds, for the live records in ascending order and for each in the order of its file
list, the listed paths that consist of the directory without the slashes at its end, a slash and a
name without slashes that has a metadata ending behind something, and nothing else. The order in
which the attributes are kept plays no part, carrying the staged writes out changes nothing, and a
metadata file is found for exactly the live records that list it. -/
theorem searchFiles_exact {pool : Pool} (hpool : pool.Reachable) (directory : String) :
    ∃ (base : String) (slashes : Nat) (name? : String → Option String),
      directory = base ++ String.ofList (List.replicate slashes '/') ∧
      base.toList.getLast? ≠ some '/' ∧
      (∀ path name, name? path = some name ↔
        path = base ++ "/" ++ name ∧ '/' ∉ name.toList ∧
          ∃ stem ending, stem ≠ "" ∧ ending ∈ [".appdata.xml", ".metainfo.xml"] ∧
            name = stem ++ ending) ∧
      (pool.searchFiles directory = pool.records.flatMap fun record =>
        ((pool.lookupList record .files).filterMap name?).map fun name => (record, name)) ∧
      (∀ entries, entries.Perm pool.attributes.toList →
        pool.searchListings entries directory = pool.searchFiles directory) ∧
      pool.internalize.searchFiles directory = pool.searchFiles directory ∧
      (∀ record name, (record, name) ∈ pool.searchFiles directory →
        pool.isLive record = true) ∧
      ∀ name, '/' ∉ name.toList → isMetadataFile name = true → ∀ record,
        (record, name) ∈ pool.searchFiles directory ↔
          pool.isLive record = true ∧ base ++ "/" ++ name ∈ pool.lookupList record .files := by
  have hwell := hpool.wellFormed
  obtain ⟨slashes, hdirectory, hbase⟩ := trimmedDirectory_spec directory
  refine ⟨trimmedDirectory directory, slashes,
    metadataIn? (trimmedDirectory directory).toList, hdirectory, hbase, ?_,
    searchFiles_eq_records hwell directory, fun entries h => searchListings_eq hwell h directory,
    searchFiles_internalize hwell directory, ?_, ?_⟩
  · intro path name
    rw [metadataIn?_eq_some_iff, hasMetadataEnding_iff]
    rfl
  · intro record name hfound
    exact ((mem_searchFiles_iff hwell).mp hfound).1
  · intro name hslash hmetadata record
    rw [mem_searchFiles_iff hwell]
    constructor
    · rintro ⟨hlive, hlisted, -⟩
      exact ⟨hlive, hlisted⟩
    · rintro ⟨hlive, hlisted⟩
      exact ⟨hlive, hlisted, hslash, hasMetadataEnding_of_isMetadataFile hmetadata⟩

/-- Files staged for two records in turn are found record by record once they are carried out,
however the attributes are listed; a bare ending is no name. -/
theorem searchFiles_exact_carried_out :
    let pool := empty.performAll
      [.addRecord, .addRecord, .addToList ⟨1⟩ .files "/d/b.appdata.xml",
        .addToList ⟨0⟩ .files "/d/.appdata.xml", .addToList ⟨0⟩ .files "/d/a.metainfo.xml"]
    pool.Reachable ∧
      ∀ entries, entries.Perm pool.internalize.attributes.toList →
        pool.internalize.searchListings entries "/d//" =
          [(⟨0⟩, "a.metainfo.xml"), (⟨1⟩, "b.appdata.xml")] := by
  intro pool
  have hreachable : pool.Reachable := ⟨_, rfl⟩
  have hfound : pool.searchFiles "/d//" =
      [(⟨0⟩, "a.metainfo.xml"), (⟨1⟩, "b.appdata.xml")] := by
    have hstaged (id : RecordId) : pool.lookupList id .files =
        pool.staged.toList.filterMap (addedValue id .files) := by
      have hnone : pool.attributes[id]? = none := Std.HashMap.getElem?_empty
      rw [lookupList_eq, internalNumbers, hnone]
      rfl
    simp only [searchFiles_eq, hstaged]
    decide +kernel
  have hcarried : pool.internalize.Reachable :=
    ⟨[.addRecord, .addRecord, .addToList ⟨1⟩ .files "/d/b.appdata.xml",
      .addToList ⟨0⟩ .files "/d/.appdata.xml", .addToList ⟨0⟩ .files "/d/a.metainfo.xml",
      .internalize], rfl⟩
  obtain ⟨-, -, -, -, -, -, -, -, hsame, -⟩ := searchFiles_exact hreachable "/d//"
  obtain ⟨-, -, -, -, -, -, -, hlisted, -⟩ := searchFiles_exact hcarried "/d//"
  exact ⟨hreachable, fun entries h => (hlisted entries h).trans (hsame.trans hfound)⟩

end Pool

end Metainfo
