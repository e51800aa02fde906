import Mathlib.Data.List.DropRight
import Mathlib.Data.List.Infix
import Metainfo.DesktopEntry
import Metainfo.Proofs.Text.Affix

/-!
What a desktop entry gives: of the pairs in its sections, in whatever lines they stand, the first
name and the first comment. Nothing that comes after both have been found makes a difference.
-/

namespace Metainfo

open Metainfo.Affix
open Metainfo.Blank
open Metainfo.Utf8

/-- The lines end where the line feeds are, and what follows the last one is left over. -/
theorem Source.splitLines_eq (bytes : List UInt8) :
    splitLines bytes =
      ((bytes.splitOn (byteOf '\n')).dropLast.map (· ++ [byteOf '\n']),
        (bytes.splitOn (byteOf '\n')).getLast (List.splitOn_ne_nil _ _)) := by
  induction bytes with
  | nil => rfl
  | cons byte rest ih =>
      have hne := List.splitOn_ne_nil (byteOf '\n') rest
      rw [splitLines, ih]
      by_cases hline : byte = byteOf '\n'
      · simp [List.splitOn_cons_eq_if_modifyHead, hline, List.dropLast_cons_of_ne_nil hne,
          List.getLast_cons hne]
      · obtain ⟨first, others, hpieces⟩ := List.exists_cons_of_ne_nil hne
        cases others with
        | nil => simp [List.splitOn_cons_eq_if_modifyHead, hline, hpieces]
        | cons second others => simp [List.splitOn_cons_eq_if_modifyHead, hline, hpieces]

namespace DesktopEntry

/-! The pairs of an input, stage by stage. -/

/-- The lines of an input, each with its line feed. What is left over counts as a line if the input
came to its end. -/
def cutLines (source : Source) : List (List UInt8) :=
  let pieces := source.bytes.splitOn (byteOf '\n')
  pieces.dropLast.map (· ++ [byteOf '\n']) ++
    if source.ending = .complete then pieces.getLast?.toList else []

/-- The texts of the lines that are not too long, without white space at their ends; neither empty
ones nor comments. -/
def texts (lines : List (List UInt8)) : List (List Char) :=
  ((lines.filter fun line => line.length ≤ maxLine).map fun line =>
    ((lossy line).toList.dropWhile isLineSpace).rdropWhile isLineSpace).filter fun text =>
      text ≠ [] ∧ text.head? ≠ some '#'

/-- The texts in the sections of the entry. The head of a section closes the one before it. -/
def inSections : (inside : Bool) → List (List Char) → List (List Char)
  | _, [] => []
  | inside, text :: rest =>
      if text.head? = some '[' then inSections (text = "[Desktop Entry]".toList) rest
      else if inside then text :: inSections inside rest
      else inSections inside rest

/-- The texts before and after the first equals sign, without the padding around it, if neither is
empty. -/
def pair? (text : List Char) : Option (String × String) :=
  let key := (text.takeWhile (· ≠ '=')).rdropWhile isPadding
  let value := ((text.dropWhile (· ≠ '=')).drop 1).dropWhile isPadding
  if '=' ∈ text ∧ key ≠ [] ∧ value ≠ [] then some (String.ofList key, String.ofList value)
  else none

def pairsFrom (inside : Bool) (lines : List (List UInt8)) : List (String × String) :=
  (inSections inside (texts lines)).filterMap pair?

/-- All pairs in the sections of the entry. -/
def pairs (source : Source) : List (String × String) :=
  pairsFrom false (cutLines source)

def firstValue (key : String) (pairs : List (String × String)) : Option String :=
  (pairs.find? fun pair => pair.1 = key).map Prod.snd

/-- The reading of `readLines` that never stops early. -/
def readToEnd (entry : DesktopEntry) (inSection : Bool) : List (List UInt8) → DesktopEntry
  | [] => entry
  | line :: rest =>
      match Line.ofBytes line with
      | .nothing => readToEnd entry inSection rest
      | .section isEntry => readToEnd entry isEntry rest
      | .assignment key value =>
          readToEnd (if inSection then entry.assign key value else entry) inSection rest

/-! What a line adds to the pairs. -/

theorem ofAssignment_eq (text : List Char) :
    Line.ofAssignment text = (pair? text).elim .nothing fun (key, value) =>
      .assignment key value := by
  rw [Line.ofAssignment, pair?, cutFirst?_eq]
  by_cases hcut : '=' ∈ text
  · have htrim : trimEnd isPadding (text.takeWhile (· ≠ '=')) =
        (text.takeWhile (· ≠ '=')).rdropWhile isPadding := rfl
    rw [if_pos hcut]
    simp only [htrim]
    cases hkey : (text.takeWhile (· ≠ '=')).rdropWhile isPadding with
    | nil => simp
    | cons first rest =>
        cases hvalue : ((text.dropWhile (· ≠ '=')).drop 1).dropWhile isPadding with
        | nil => simp
        | cons other more => simp [hcut]
  · rw [if_neg hcut, if_neg fun h => hcut h.1]
    rfl

theorem texts_cons (line : List UInt8) (lines : List (List UInt8)) :
    texts (line :: lines) = texts [line] ++ texts lines := by
  rw [texts, ← List.singleton_append, List.filter_append, List.map_append, List.filter_append]
  rfl

/-- A line is passed over, or its text is the head of a section, or it is read as an assignment. -/
theorem texts_singleton (line : List UInt8) :
    (texts [line] = [] ∧ Line.ofBytes line = .nothing) ∨
      ∃ text, texts [line] = [text] ∧
        ((text.head? = some '[' ∧
            Line.ofBytes line = .section (text = "[Desktop Entry]".toList)) ∨
          (text.head? ≠ some '[' ∧ Line.ofBytes line = Line.ofAssignment text)) := by
  rw [Line.ofBytes]
  by_cases hlong : line.length > maxLine
  · refine Or.inl ⟨?_, if_pos hlong⟩
    simp [texts, Nat.not_le.mpr hlong]
  · have htext : texts [line] = [trim isLineSpace (lossy line).toList].filter fun text =>
        text ≠ [] ∧ text.head? ≠ some '#' := by
      rw [texts, List.filter_cons_of_pos (by simpa using hlong)]
      rfl
    rw [if_neg hlong, htext]
    cases trim isLineSpace (lossy line).toList with
    | nil => exact Or.inl ⟨rfl, rfl⟩
    | cons first rest =>
        by_cases hcomment : first = '#'
        · refine Or.inl ⟨?_, ?_⟩
          · simp [hcomment]
          · subst hcomment
            rfl
        · refine Or.inr ⟨first :: rest, by simp [hcomment], ?_⟩
          by_cases hhead : first = '['
          · refine Or.inl ⟨congrArg some hhead, ?_⟩
            subst hhead
            rfl
          · refine Or.inr ⟨fun h => hhead (Option.some.inj h), ?_⟩
            simp [hcomment, hhead]

theorem pairsFrom_cons (inside : Bool) (line : List UInt8) (rest : List (List UInt8)) :
    pairsFrom inside (line :: rest) =
      match Line.ofBytes line with
      | .nothing => pairsFrom inside rest
      | .section isEntry => pairsFrom isEntry rest
      | .assignment key value =>
          if inside then (key, value) :: pairsFrom inside rest else pairsFrom inside rest := by
  rw [pairsFrom, texts_cons]
  obtain ⟨hnone, hline⟩ | ⟨text, htext, ⟨hhead, hline⟩ | ⟨hhead, hline⟩⟩ := texts_singleton line
  · rw [hnone, hline]
    rfl
  · rw [htext, hline, List.singleton_append, inSections, if_pos hhead]
    rfl
  · rw [htext, hline, List.singleton_append, inSections, if_neg hhead, ofAssignment_eq]
    cases inside with
    | false => cases pair? text <;> rfl
    | true =>
        rw [if_pos rfl, List.filterMap_cons]
        cases pair? text <;> rfl

/-! Filling the fields. -/

/-- The fields that are still empty get the first values that there are for them. -/
def fill (entry : DesktopEntry) (pairs : List (String × String)) : DesktopEntry :=
  ⟨entry.name.or (firstValue "Name" pairs), entry.comment.or (firstValue "Comment" pairs)⟩

theorem fill_nil (entry : DesktopEntry) : entry.fill [] = entry := by
  simp [fill, firstValue]

theorem fill_cons (entry : DesktopEntry) (key value : String) (pairs : List (String × String)) :
    entry.fill ((key, value) :: pairs) = (entry.assign key value).fill pairs := by
  by_cases hname : key = "Name"
  · cases hfound : entry.name <;> simp [fill, firstValue, assign, hname, hfound]
  · by_cases hcomment : key = "Comment"
    · cases hfound : entry.comment <;> simp [fill, firstValue, assign, hcomment, hfound]
    · simp [fill, firstValue, assign, hname, hcomment]

theorem fill_of_isFull {entry : DesktopEntry} (h : entry.isFull = true) (pairs : List (String × String)) :
    entry.fill pairs = entry := by
  obtain ⟨hname, hcomment⟩ := Bool.and_eq_true_iff.mp h
  rw [fill, Option.or_of_isSome hname, Option.or_of_isSome hcomment]

theorem readLines_eq_fill (entry : DesktopEntry) (inSection : Bool) (lines : List (List UInt8)) :
    readLines entry inSection lines = entry.fill (pairsFrom inSection lines) := by
  induction lines generalizing entry inSection with
  | nil => exact (fill_nil entry).symm
  | cons line rest ih =>
      rw [readLines, pairsFrom_cons]
      cases Line.ofBytes line with
      | nothing => exact ih entry inSection
      | «section» isEntry => exact ih entry isEntry
      | assignment key value =>
          simp only
          cases inSection with
          | false => exact ih entry false
          | true =>
              simp only [if_true]
              rw [fill_cons]
              split
              · rename_i hfull
                rw [fill_of_isFull hfull]
              · exact ih _ true

/-- Stopping early leaves out nothing that would still be filled in. -/
theorem readToEnd_eq_fill (entry : DesktopEntry) (inSection : Bool) (lines : List (List UInt8)) :
    readToEnd entry inSection lines = entry.fill (pairsFrom inSection lines) := by
  induction lines generalizing entry inSection with
  | nil => exact (fill_nil entry).symm
  | cons line rest ih =>
      rw [readToEnd, pairsFrom_cons]
      cases Line.ofBytes line with
      | nothing => exact ih entry inSection
      | «section» isEntry => exact ih entry isEntry
      | assignment key value =>
          cases inSection with
          | false => exact ih entry false
          | true => exact (ih _ true).trans (fill_cons entry key value _).symm

/-! The lines of the input. -/

theorem pairsFrom_append_nil (inside : Bool) (lines : List (List UInt8)) :
    pairsFrom inside (lines ++ [[]]) = pairsFrom inside lines := by
  have htexts : texts (lines ++ [[]]) = texts lines := by
    rw [texts, List.filter_append, List.map_append, List.filter_append]
    exact List.append_nil _
  rw [pairsFrom, htexts, pairsFrom]

theorem pairsFrom_lines (inside : Bool) (source : Source) :
    pairsFrom inside source.lines = pairsFrom inside (cutLines source) := by
  obtain ⟨bytes, ending⟩ := source
  cases ending with
  | failed => simp [Source.lines, cutLines, Source.splitLines_eq]
  | complete =>
      have hne := List.splitOn_ne_nil (byteOf '\n') bytes
      rw [cutLines, if_pos rfl, List.getLast?_eq_some_getLast hne, Source.lines,
        Source.splitLines_eq]
      -- Nothing left over is no line for `lines`, and an empty one, which gives no pair, here.
      cases (bytes.splitOn (byteOf '\n')).getLast hne with
      | nil => exact (pairsFrom_append_nil inside _).symm
      | cons byte tail => rfl

/-! The values. -/

theorem texts_getLast? {lines : List (List UInt8)} {text : List Char} (h : text ∈ texts lines) :
    ∀ last ∈ text.getLast?, isLineSpace last = false := by
  obtain ⟨line, -, rfl⟩ := List.mem_map.mp (List.mem_filter.mp h).1
  intro last hlast
  have hne : ((lossy line).toList.dropWhile isLineSpace).rdropWhile isLineSpace ≠ [] := by
    rintro hnil
    simp [hnil] at hlast
  have hnot := List.rdropWhile_last_not isLineSpace _ hne
  rw [List.getLast?_eq_some_getLast hne, Option.mem_some_iff] at hlast
  rw [hlast] at hnot
  exact eq_false_of_ne_true hnot

theorem inSections_subset (inside : Bool) (lines : List (List Char)) :
    inSections inside lines ⊆ lines := by
  induction lines generalizing inside with
  | nil => exact List.Subset.refl []
  | cons text rest ih =>
      rw [inSections]
      split
      · exact List.subset_cons_of_subset text (ih _)
      · split
        · exact List.cons_subset_cons text (ih inside)
        · exact List.subset_cons_of_subset text (ih inside)

/-- The value stands at the end of the text. -/
theorem value_of_pair? {text : List Char} {key value : String}
    (h : pair? text = some (key, value)) : value.toList ≠ [] ∧ value.toList <:+ text := by
  rw [pair?] at h
  split at h
  · rename_i hparts
    obtain ⟨-, rfl⟩ := Prod.mk.inj (Option.some.inj h)
    rw [String.toList_ofList]
    refine ⟨hparts.2.2, ?_⟩
    exact (List.dropWhile_suffix _).trans ((List.drop_suffix 1 _).trans (List.dropWhile_suffix _))
  · contradiction

theorem value_of_firstValue {inside : Bool} {lines : List (List UInt8)} {key value : String}
    (h : firstValue key (pairsFrom inside lines) = some value) :
    value ≠ "" ∧ ∀ last ∈ value.toList.getLast?, isLineSpace last = false := by
  obtain ⟨⟨name, value⟩, hfound, rfl⟩ := Option.map_eq_some_iff.mp h
  obtain ⟨text, htext, hpair⟩ := List.mem_filterMap.mp (List.mem_of_find?_eq_some hfound)
  obtain ⟨hne, hsuffix⟩ := value_of_pair? hpair
  refine ⟨fun hempty => hne (congrArg String.toList hempty), fun last hlast => ?_⟩
  refine texts_getLast? (inSections_subset inside _ htext) last ?_
  obtain ⟨front, rfl⟩ := hsuffix
  rw [List.getLast?_append_of_ne_nil front hne]
  exact hlast

/-- Reading gives the values of the first pair named `Name` and of the first one named `Comment`,
each whatever the other is, among all pairs in the sections of the entry. So it gives what reading
on to the end would give, and no value is empty or ends in white space. -/
theorem read_first_pairs (source : Source) :
    read source =
        ⟨firstValue "Name" (pairs source), firstValue "Comment" (pairs source)⟩ ∧
      read source = readToEnd empty false source.lines ∧
      ∀ value, (read source).name = some value ∨ (read source).comment = some value →
        value ≠ "" ∧ ∀ last ∈ value.toList.getLast?, isLineSpace last = false := by
  have hread : read source =
      ⟨firstValue "Name" (pairs source), firstValue "Comment" (pairs source)⟩ := by
    rw [read, readLines_eq_fill, pairsFrom_lines]
    rfl
  refine ⟨hread, ?_, fun value hvalue => ?_⟩
  · rw [readToEnd_eq_fill, read, readLines_eq_fill]
  · rw [hread] at hvalue
    rcases hvalue with hname | hcomment
    · exact value_of_firstValue hname
    · exact value_of_firstValue hcomment

end DesktopEntry

end Metainfo
