import Metainfo.Proofs.Pool.Search

/-!
Names made from ids. A record is called after its id without the ending of a desktop file. Whatever
the id, the file name guessed from it is one that a directory or a file list is searched for, unless
the id itself makes it a hidden one or leads to another directory.
-/

namespace Metainfo

open Metainfo.Affix
open Metainfo.Naming

theorem trimmedDirectory_eq_self {directory : String}
    (h : directory.toList.getLast? ≠ some '/') : trimmedDirectory directory = directory := by
  rw [trimmedDirectory, ← String.toList_inj, String.toList_ofList]
  rw [← List.head?_reverse] at h
  cases hreverse : directory.toList.reverse with
  | nil => rw [List.reverse_eq_nil_iff.mp hreverse, List.dropWhile_nil, List.reverse_nil]
  | cons last rest =>
      have hlast : last ≠ '/' := fun heq => h (by rw [hreverse, heq, List.head?_cons])
      rw [List.dropWhile_cons_of_neg (by simpa using hlast), ← hreverse, List.reverse_reverse]

/-- A live record that lists a metadata file of a directory is found for it. -/
theorem Pool.mem_searchFiles_of_listed {pool : Pool} {directory name : String} {record : RecordId}
    (hlive : pool.isLive record = true)
    (hlisted : trimmedDirectory directory ++ "/" ++ name ∈ pool.lookupList record .files)
    (hslash : '/' ∉ name.toList) (hending : hasMetadataEnding name = true) :
    (record, name) ∈ pool.searchFiles directory := by
  rw [searchFiles_eq, List.mem_flatMap]
  refine ⟨record, List.mem_map.mpr ⟨_, List.mem_range.mpr (index_lt_of_isLive hlive), rfl⟩, ?_⟩
  refine List.mem_map.mpr ⟨name, List.mem_filterMap.mpr ⟨_, hlisted, ?_⟩, rfl⟩
  exact metadataIn?_eq_some_iff.mpr ⟨rfl, hslash, hending⟩

namespace Naming

/-- An id without the ending of a desktop file. -/
def idStem (id : String) : String :=
  if ".desktop".toList <:+ id.toList then
    String.ofList (id.toList.take (id.length - ".desktop".length))
  else id

theorem nameFromId_eq (id : String) : nameFromId id = "application:" ++ idStem id := by
  rw [nameFromId, applicationName, idStem, withoutEnding?]
  by_cases h : ".desktop".toList <:+ id.toList
  · rw [if_pos h, if_pos (List.isSuffixOf_iff_suffix.mpr h), Option.elim_some, String.length_toList]
    rfl
  · rw [if_neg h, if_neg (mt List.isSuffixOf_iff_suffix.mp h), Option.elim_none]

/-- A name and an id that stands in for it get the same prefix. -/
theorem map_or_nameFromId (name id : Option String) :
    (name.map applicationName).or (id.map nameFromId) =
      (name.or (id.map idStem)).map fun name => "application:" ++ name := by
  have hid : nameFromId = fun id => applicationName (idStem id) := funext nameFromId_eq
  rw [hid, Option.map_or, Option.map_map]
  rfl

theorem stem?_eq_some_iff {text ending stem : String} :
    stem? text ending = some stem ↔ stem ≠ "" ∧ text = stem ++ ending := by
  have htext : text = stem ++ ending ↔
      withoutEnding? text.toList ending.toList = some stem.toList := by
    rw [withoutEnding?_eq_some_iff, ← String.toList_inj, String.toList_append]
  rw [htext, stem?]
  cases hcut : withoutEnding? text.toList ending.toList with
  | none => simp
  | some before =>
      cases before with
      | nil => simp [eq_comm (a := ([] : List Char))]
      | cons first rest =>
          rw [Option.some_inj, Option.some_inj, ← String.toList_inj, String.toList_ofList]
          refine ⟨fun hstem => ⟨?_, hstem⟩, And.right⟩
          rintro rfl
          contradiction

/-- No ending of an id stands at the end of another one, so at most one is to be replaced. -/
theorem eq_of_endings {first second : String × String} (hfirst : first ∈ idEndings)
    (hsecond : second ∈ idEndings) {stem other : String}
    (h : stem ++ first.1 = other ++ second.1) : first = second := by
  have hapart : ∀ first ∈ idEndings, ∀ second ∈ idEndings,
      first.1.toList.isSuffixOf second.1.toList → first = second := by decide +kernel
  have hsame : stem.toList ++ first.1.toList = other.toList ++ second.1.toList := by
    rw [← String.toList_append, h, String.toList_append]
  have hone : first.1.toList <:+ stem.toList ++ first.1.toList := List.suffix_append _ _
  have hother : second.1.toList <:+ stem.toList ++ first.1.toList :=
    hsame ▸ List.suffix_append _ _
  rcases List.suffix_or_suffix_of_suffix hone hother with hsuffix | hsuffix
  · exact hapart first hfirst second hsecond (List.isSuffixOf_iff_suffix.mpr hsuffix)
  · exact (hapart second hsecond first hfirst (List.isSuffixOf_iff_suffix.mpr hsuffix)).symm

theorem guessFilename_of_ne_empty {id : String} (hid : id ≠ "") :
    guessFilename id =
      some ((idEndings.findSome? fun (ending, replacement) =>
        (stem? id ending).map (· ++ replacement)).getD (id ++ ".metainfo.xml")) := by
  rw [guessFilename, if_neg (by simpa using hid)]

theorem guessFilename_of_ending {stem ending replacement : String}
    (h : (ending, replacement) ∈ idEndings) (hstem : stem ≠ "") :
    guessFilename (stem ++ ending) = some (stem ++ replacement) := by
  have hid : stem ++ ending ≠ "" := fun hempty => hstem (String.append_eq_empty_iff.mp hempty).1
  rw [guessFilename_of_ne_empty hid]
  cases hfound : idEndings.findSome? fun (ending', replacement) =>
      (stem? (stem ++ ending) ending').map (· ++ replacement) with
  | none =>
      have hnone : (stem? (stem ++ ending) ending).map (· ++ replacement) = none :=
        List.findSome?_eq_none_iff.mp hfound _ h
      rw [stem?_eq_some_iff.mpr ⟨hstem, rfl⟩] at hnone
      contradiction
  | some filename =>
      obtain ⟨pair, hpair, hname⟩ := List.exists_of_findSome?_eq_some hfound
      obtain ⟨other, hother, rfl⟩ := Option.map_eq_some_iff.mp hname
      obtain ⟨-, hparts⟩ := stem?_eq_some_iff.mp hother
      obtain rfl := eq_of_endings h hpair hparts
      rw [Option.getD_some, String.append_left_inj ending |>.mp hparts]

theorem guessFilename_of_no_ending {id : String} (hid : id ≠ "")
    (h : ∀ stem ending replacement, (ending, replacement) ∈ idEndings → id = stem ++ ending →
      stem = "") :
    guessFilename id = some (id ++ ".metainfo.xml") := by
  have hnone : (idEndings.findSome? fun (ending, replacement) =>
      (stem? id ending).map (· ++ replacement)) = none := by
    rw [List.findSome?_eq_none_iff]
    rintro ⟨ending, replacement⟩ hpair
    rw [Option.map_eq_none_iff, Option.eq_none_iff_forall_ne_some]
    intro stem hstem
    obtain ⟨hne, hparts⟩ := stem?_eq_some_iff.mp hstem
    exact hne (h stem ending replacement hpair hparts)
  rw [guessFilename_of_ne_empty hid, hnone, Option.getD_none]

/-- A guessed name begins like the id and has a metadata ending behind what it takes from it. -/
theorem exists_guessFilename {id : String} (hid : id ≠ "") :
    ∃ stem rest ending, stem ≠ "" ∧ id = stem ++ rest ∧ ending ∈ metadataEndings ∧
      guessFilename id = some (stem ++ ending) := by
  by_cases h : ∃ stem ending replacement,
      (ending, replacement) ∈ idEndings ∧ id = stem ++ ending ∧ stem ≠ ""
  · obtain ⟨stem, ending, replacement, hpair, rfl, hstem⟩ := h
    have hreplacement : ∀ pair ∈ idEndings, pair.2 ∈ metadataEndings := by decide
    exact ⟨stem, ending, replacement, hstem, rfl, hreplacement _ hpair,
      guessFilename_of_ending hpair hstem⟩
  · refine ⟨id, "", ".metainfo.xml", hid, (String.append_empty).symm, by decide,
      guessFilename_of_no_ending hid fun stem ending replacement hpair hparts => ?_⟩
    exact by_contra fun hstem => h ⟨stem, ending, replacement, hpair, hparts, hstem⟩

/-- Of every id that is not empty a file name is guessed: the id with the metadata ending in place
of its own if it has one behind something, or else behind it. The name is one of a metadata file
exactly if the id does not begin with a point, and if the id has no slash, the name is found for
every live record that lists it in the directory. -/
theorem guessFilename_recognised {id : String} (hid : id ≠ "") :
    ∃ filename, guessFilename id = some filename ∧
      (∃ stem ending, stem ≠ "" ∧ ending ∈ [".appdata.xml", ".metainfo.xml"] ∧
        filename = stem ++ ending) ∧
      (isMetadataFile filename = true ↔ id.toList.head? ≠ some '.') ∧
      ('/' ∉ id.toList → ∀ (pool : Pool) (directory : String) (record : RecordId),
        directory.toList.getLast? ≠ some '/' → pool.isLive record = true →
        directory ++ "/" ++ filename ∈ pool.lookupList record .files →
        (record, filename) ∈ pool.searchFiles directory) ∧
      (∀ stem ending replacement,
        (ending, replacement) ∈
          [(".desktop", ".appdata.xml"), (".ttf", ".metainfo.xml"), (".otf", ".metainfo.xml"),
            (".xml", ".metainfo.xml"), (".db", ".metainfo.xml")] →
        stem ≠ "" → id = stem ++ ending → filename = stem ++ replacement) ∧
      ((∀ ending ∈ [".desktop", ".ttf", ".otf", ".xml", ".db"], ∀ stem,
          id = stem ++ ending → stem = "") →
        filename = id ++ ".metainfo.xml") := by
  obtain ⟨stem, rest, ending, hstem, hid', hending, hguess⟩ := exists_guessFilename hid
  have hmetadata : hasMetadataEnding (stem ++ ending) = true :=
    hasMetadataEnding_iff.mpr ⟨stem, ending, hstem, hending, rfl⟩
  have hhead : (stem ++ ending).toList.head? = id.toList.head? := by
    have hne : stem.toList ≠ [] := mt String.toList_eq_nil_iff.mp hstem
    rw [hid', String.toList_append, String.toList_append, List.head?_append_of_ne_nil _ hne,
      List.head?_append_of_ne_nil _ hne]
  refine ⟨stem ++ ending, hguess, ⟨stem, ending, hstem, hending, rfl⟩, ?_, ?_, ?_, ?_⟩
  · rw [isMetadataFile, hmetadata, Bool.and_true, hhead, bne_iff_ne]
  · intro hslash pool directory record hdirectory hlive hlisted
    rw [← trimmedDirectory_eq_self hdirectory] at hlisted
    refine Pool.mem_searchFiles_of_listed hlive hlisted ?_ hmetadata
    have hplain : ∀ ending ∈ metadataEndings, '/' ∉ ending.toList := by decide
    rw [String.toList_append, List.mem_append, not_or]
    rw [hid', String.toList_append, List.mem_append, not_or] at hslash
    exact ⟨hslash.1, hplain ending hending⟩
  · rintro other ownEnding replacement hpair hother rfl
    rw [guessFilename_of_ending hpair hother] at hguess
    exact (Option.some.inj hguess).symm
  · intro hnone
    have hall : ∀ pair ∈ idEndings, pair.1 ∈ [".desktop", ".ttf", ".otf", ".xml", ".db"] := by
      decide
    rw [guessFilename_of_no_ending hid fun stem ending replacement hpair =>
      hnone ending (hall _ hpair) stem] at hguess
    exact (Option.some.inj hguess).symm

/-- The name guessed from an id is found for the record that lists it. -/
theorem guessFilename_recognised_listed :
    let pool := Pool.empty.performAll
      [.addRecord, .addToList ⟨0⟩ .files "/d/foo.appdata.xml"]
    "foo.desktop" ≠ "" ∧
      guessFilename "foo.desktop" = some "foo.appdata.xml" ∧
      isMetadataFile "foo.appdata.xml" = true ∧
      (⟨0⟩, "foo.appdata.xml") ∈ pool.searchFiles "/d" := by
  intro pool
  have hid : "foo.desktop" ≠ "" := by decide
  obtain ⟨filename, hguess, -, hmetadata, hfound, hreplaced, -⟩ := guessFilename_recognised hid
  obtain rfl : filename = "foo.appdata.xml" :=
    hreplaced "foo" ".desktop" ".appdata.xml" (by decide) (by decide) (by decide)
  have hlisted : "/d" ++ "/" ++ "foo.appdata.xml" ∈ pool.lookupList ⟨0⟩ .files := by
    have hnone : pool.attributes[(⟨0⟩ : RecordId)]? = none := Std.HashMap.getElem?_empty
    rw [Pool.lookupList_eq, Pool.internalNumbers, hnone]
    decide +kernel
  exact ⟨hid, hguess, hmetadata.mpr (by decide),
    hfound (by decide) pool "/d" ⟨0⟩ (by decide) (by decide +kernel) hlisted⟩

/-- An id that is nothing but an ending keeps it, and its file is a hidden one. -/
example :
    guessFilename ".desktop" = some ".desktop.metainfo.xml" ∧
      isMetadataFile ".desktop.metainfo.xml" = false := by
  decide +kernel

end Naming

end Metainfo
