import Mathlib.Data.List.Basic
import Metainfo.Content.Indent
import Metainfo.Proofs.Content.Collapse

/-!
Indenting in place. Room is made for a margin before each line that is not empty; filled from the
back, the content becomes the indented one, and no byte is lost. In a text whose words are parted by
single blanks every line has its margin.
-/

namespace Metainfo

/-! The text as a whole. -/

section Lines

variable {α : Type} [DecidableEq α] (line : α) (margin : List α)

/-- The text with a margin before each line that is not empty, given whether it starts a line. -/
def indentedFrom (fresh : Bool) : List α → List α
  | [] => []
  | element :: rest =>
      if element = line then element :: indentedFrom true rest
      else (if fresh then margin else []) ++ element :: indentedFrom false rest

/-- Whether what follows this text starts a line. -/
def freshAfter (fresh : Bool) (text : List α) : Bool :=
  text.getLast?.elim fresh (· = line)

/-- The text with a margin after each line break. -/
def aligned (text : List α) : List α :=
  text.flatMap fun element => if element = line then line :: margin else [element]

variable {line margin}

theorem indentedFrom_append (fresh : Bool) (text tail : List α) :
    indentedFrom line margin fresh (text ++ tail) =
      indentedFrom line margin fresh text ++
        indentedFrom line margin (freshAfter line fresh text) tail := by
  induction text generalizing fresh with
  | nil => rfl
  | cons element rest ih =>
      have hfresh : freshAfter line fresh (element :: rest) =
          freshAfter line (element = line) rest := by
        rw [freshAfter, List.getLast?_cons, freshAfter]
        cases rest.getLast? <;> rfl
      rw [hfresh, List.cons_append, indentedFrom, indentedFrom]
      split
      · rename_i hline
        rw [ih, List.cons_append, decide_eq_true hline]
      · rename_i hline
        rw [ih, List.append_assoc, List.cons_append, decide_eq_false hline]

theorem sublist_indentedFrom (fresh : Bool) (text : List α) :
    text.Sublist (indentedFrom line margin fresh text) := by
  induction text generalizing fresh with
  | nil => exact List.Sublist.refl []
  | cons element rest ih =>
      rw [indentedFrom]
      split
      · exact (ih true).cons_cons element
      · exact ((ih false).cons_cons element).trans (List.sublist_append_right _ _)

theorem mem_indentedFrom {fresh : Bool} {text : List α} {element : α}
    (h : element ∈ indentedFrom line margin fresh text) : element ∈ margin ∨ element ∈ text := by
  induction text generalizing fresh with
  | nil => contradiction
  | cons first rest ih =>
      rw [indentedFrom] at h
      split at h
      · rcases List.mem_cons.mp h with rfl | hrest
        · exact Or.inr List.mem_cons_self
        · exact (ih hrest).imp_right (List.mem_cons_of_mem first)
      · rcases List.mem_append.mp h with hmargin | htext
        · split at hmargin
          · exact Or.inl hmargin
          · contradiction
        · rcases List.mem_cons.mp htext with rfl | hrest
          · exact Or.inr List.mem_cons_self
          · exact (ih hrest).imp_right (List.mem_cons_of_mem first)

/-- A part of a line that is not empty gets the margin only where it starts the line. -/
theorem indentedFrom_part {text : List α} (hne : text ≠ []) (h : line ∉ text) (margin : List α)
    (fresh : Bool) (tail : List α) :
    indentedFrom line margin fresh (text ++ tail) =
      (if fresh then margin else []) ++ (text ++ indentedFrom line margin false tail) := by
  induction text generalizing fresh with
  | nil => contradiction
  | cons element rest ih =>
      have hline : element ≠ line := fun heq => h (heq ▸ List.mem_cons_self)
      rw [List.cons_append, indentedFrom, if_neg hline]
      rcases eq_or_ne rest [] with rfl | hrest
      · rfl
      · rw [ih hrest fun hmem => h (List.mem_cons_of_mem element hmem)]
        rfl

theorem aligned_of_notMem {text : List α} (h : line ∉ text) : aligned line margin text = text := by
  induction text with
  | nil => rfl
  | cons element rest ih =>
      have hline : element ≠ line := fun heq => h (heq ▸ List.mem_cons_self)
      rw [aligned, List.flatMap_cons, if_neg hline, List.singleton_append]
      exact congrArg (element :: ·) (ih fun hmem => h (List.mem_cons_of_mem element hmem))

variable {spacing : Spacing α}

/-- With words parted by single blanks no line is empty, so each has its margin. -/
theorem Spacing.Tidy.indentedFrom {text : List α} (h : spacing.Tidy text) (fresh : Bool) :
    indentedFrom spacing.line margin fresh text =
      (if fresh then margin else []) ++ aligned spacing.line margin text := by
  induction h generalizing fresh with
  | @word word hword =>
      have hpart := indentedFrom_part hword.1 hword.line_notMem margin fresh []
      rw [List.append_nil] at hpart
      rw [hpart, Metainfo.indentedFrom, List.append_nil, aligned_of_notMem hword.line_notMem]
  | @more word tail blank hword hblank htail ih =>
      have haligned : aligned spacing.line margin (word ++ blank :: tail) =
          word ++ aligned spacing.line margin (blank :: tail) := by
        rw [aligned, List.flatMap_append]
        exact congrArg (· ++ _) (aligned_of_notMem hword.line_notMem)
      rw [indentedFrom_part hword.1 hword.line_notMem, haligned, Metainfo.indentedFrom, aligned,
        List.flatMap_cons]
      rcases eq_or_ne blank spacing.line with rfl | hline
      · rw [if_pos rfl, if_pos rfl, ih true]
        rfl
      · rw [if_neg hline, if_neg hline, ih false]
        rfl

theorem Spacing.indentedFrom_collapsed (spacing : Spacing α) (margin text : List α) :
    indentedFrom spacing.line margin true (spacing.collapsed text) =
      if (spacing.collapsed text).isEmpty then []
      else margin ++ aligned spacing.line margin (spacing.collapsed text) := by
  rcases spacing.collapsed_eq_nil_or_tidy text with hnil | htidy
  · rw [hnil]
    rfl
  · have hne : (spacing.collapsed text).isEmpty = false :=
      List.isEmpty_eq_false_iff.mpr htidy.ne_nil
    rw [hne]
    exact htidy.indentedFrom true

variable {β : Type} [DecidableEq β] {target : Spacing β} {encode : α → List β}

/-- Indenting the written text gives the indented text, written. -/
theorem Spacing.Encodes.indentedFrom (h : spacing.Encodes target encode) (margin : List α)
    (fresh : Bool) (text : List α) :
    indentedFrom target.line (margin.flatMap encode) fresh (text.flatMap encode) =
      (indentedFrom spacing.line margin fresh text).flatMap encode := by
  induction text generalizing fresh with
  | nil => rfl
  | cons element rest ih =>
      rw [List.flatMap_cons, Metainfo.indentedFrom]
      split
      · rename_i hline
        rw [hline, h.line, List.singleton_append, Metainfo.indentedFrom, if_pos rfl, ih,
          List.flatMap_cons, h.line, List.singleton_append]
      · rename_i hline
        have hpart : target.line ∉ encode element :=
          fun hmem => hline ((h.line_mem element).mp hmem)
        rw [indentedFrom_part (h.ne_nil element) hpart, ih, List.flatMap_append, List.flatMap_cons]
        split <;> rfl

end Lines

namespace ContentBuffer

open Metainfo.Utf8
open Metainfo.Blank

variable {width read write : Nat} {bytes : Array UInt8}

def spaces (width : Nat) : List UInt8 :=
  List.replicate width (byteOf ' ')

def indentedBytes (width : Nat) (data : List UInt8) : List UInt8 :=
  indentedFrom (byteOf '\n') (spaces width) true data

theorem take_succ_eq (h : read < bytes.size) :
    bytes.toList.take (read + 1) = bytes.toList.take read ++ [bytes.getD read 0] := by
  rw [List.take_add_one]
  simp [h]

theorem startsLine_eq (h : read < bytes.size) :
    startsLine bytes read =
      (bytes.getD read 0 != byteOf '\n' &&
        freshAfter (byteOf '\n') true (bytes.toList.take read)) := by
  rw [startsLine]
  cases read with
  | zero => rfl
  | succ before =>
      rw [take_succ_eq (Nat.lt_of_succ_lt h), freshAfter, List.getLast?_concat]
      rfl

/-- One more byte comes with a margin if it starts a line. -/
theorem indentedBytes_take_succ (h : read < bytes.size) (width : Nat) :
    indentedBytes width (bytes.toList.take (read + 1)) =
      indentedBytes width (bytes.toList.take read) ++
        ((if startsLine bytes read then spaces width else []) ++ [bytes.getD read 0]) := by
  rw [indentedBytes, take_succ_eq h, indentedFrom_append, indentedBytes, indentedFrom,
    startsLine_eq h]
  rcases eq_or_ne (bytes.getD read 0) (byteOf '\n') with hline | hline
  · rw [hline]
    rfl
  · rw [if_neg hline, bne_iff_ne.mpr hline, Bool.true_and]
    rfl

theorem length_indentedBytes (h : read ≤ bytes.size) (width : Nat) :
    (indentedBytes width (bytes.toList.take read)).length =
      read + width * (List.range read).countP (startsLine bytes) := by
  induction read with
  | zero => rfl
  | succ read ih =>
      rw [indentedBytes_take_succ h, List.range_succ, List.countP_append, List.countP_singleton,
        List.length_append, ih (Nat.le_of_succ_le h)]
      split <;> simp [spaces, Nat.mul_add] <;> omega

theorem toList_fillSpaces (start width : Nat) (bytes : Array UInt8)
    (h : start + width ≤ bytes.size) :
    (fillSpaces bytes start width).toList =
      bytes.toList.take start ++ (spaces width ++ bytes.toList.drop (start + width)) := by
  induction width generalizing start bytes with
  | zero => exact (List.take_append_drop start bytes.toList).symm
  | succ width ih =>
      have hsize : start + 1 + width ≤ (bytes.setIfInBounds start (byteOf ' ')).size := by
        rw [Array.size_setIfInBounds]
        omega
      have hlast : start + 1 + width = start + (width + 1) := by omega
      rw [fillSpaces, ih _ _ hsize, take_set (by omega), Array.toList_setIfInBounds,
        List.drop_set_of_lt (by omega), hlast, spaces, spaces, List.replicate_succ]
      simp

theorem getD_setIfInBounds_of_ne {index : Nat} (h : index ≠ write) (byte : UInt8) :
    (bytes.setIfInBounds write byte).getD index 0 = bytes.getD index 0 := by
  rw [Array.getD_eq_getD_getElem?, Array.getElem?_setIfInBounds_ne h.symm,
    Array.getD_eq_getD_getElem?]

theorem size_fillSpaces (start width : Nat) (bytes : Array UInt8) :
    (fillSpaces bytes start width).size = bytes.size := by
  induction width generalizing start bytes with
  | zero => rfl
  | succ width ih => rw [fillSpaces, ih, Array.size_setIfInBounds]

/-- Moving a byte up, not past its place, leaves the start of its line as it was. -/
theorem startsLine_moved (hread : read ≤ write) (hsize : write < bytes.size) :
    startsLine (bytes.setIfInBounds write (bytes.getD read 0)) read = startsLine bytes read := by
  have hbyte : (bytes.setIfInBounds write (bytes.getD read 0)).getD read 0 =
      bytes.getD read 0 := by
    rcases eq_or_ne read write with rfl | hne
    · simp [hsize]
    · exact getD_setIfInBounds_of_ne hne _
  rw [startsLine, startsLine, hbyte]
  cases read with
  | zero => rfl
  | succ before =>
      have hne : before + 1 - 1 ≠ write := by omega
      rw [getD_setIfInBounds_of_ne hne]

theorem drop_moved (hsize : write < bytes.size) (byte : UInt8) :
    (bytes.setIfInBounds write byte).toList.drop write = byte :: bytes.toList.drop (write + 1) := by
  have hlength : write < (bytes.toList.set write byte).length := by
    rw [List.length_set, Array.length_toList]
    exact hsize
  rw [Array.toList_setIfInBounds, List.drop_eq_getElem_cons hlength, List.getElem_set_self,
    List.drop_set_of_lt (Nat.lt_succ_self write)]

theorem le_length_indentedBytes (h : read ≤ bytes.size) (width : Nat) :
    read ≤ (indentedBytes width (bytes.toList.take read)).length := by
  rw [length_indentedBytes h]
  exact Nat.le_add_right _ _

/-- The bytes before `read` are indented up to `write`, what is there stays. -/
theorem toList_indentBefore (width : Nat) (bytes : Array UInt8) (read write : Nat)
    (hread : read ≤ bytes.size) (hsize : write ≤ bytes.size)
    (hwrite : write = (indentedBytes width (bytes.toList.take read)).length) :
    (indentBefore width bytes read write).toList =
      indentedBytes width (bytes.toList.take read) ++ bytes.toList.drop write := by
  induction read generalizing bytes write with
  | zero =>
      have hzero : write = 0 := hwrite
      rw [indentBefore, hzero]
      rfl
  | succ read ih =>
      have hle := le_length_indentedBytes (Nat.le_of_succ_le hread) width
      rw [indentedBytes_take_succ hread] at hwrite ⊢
      let byte := bytes.getD read 0
      generalize hindented : indentedBytes width (bytes.toList.take read) = indented at *
      have hrest (moved : Array UInt8) (hsame : moved.size = bytes.size)
          (htake : moved.toList.take read = bytes.toList.take read) :
          (indentBefore width moved read indented.length).toList =
            indented ++ moved.toList.drop indented.length := by
        rw [ih moved indented.length (by omega) (by simp at hwrite; omega)
          (by rw [htake, hindented]), htake, hindented]
      have hmoved (place : Nat) (h : indented.length ≤ place) :
          (bytes.setIfInBounds place byte).toList.take read = bytes.toList.take read := by
        rw [Array.toList_setIfInBounds, List.take_set_of_le (Nat.le_trans hle h)]
      cases hstarts : startsLine bytes read with
      | false =>
          obtain rfl : write = indented.length + 1 := by simpa [hstarts] using hwrite
          rw [indentBefore, Nat.add_sub_cancel, startsLine_moved hle hsize, hstarts,
            if_neg Bool.false_ne_true,
            hrest _ (Array.size_setIfInBounds ..) (hmoved _ (Nat.le_refl _)), drop_moved hsize,
            List.append_assoc]
          rfl
      | true =>
          obtain rfl : write = indented.length + width + 1 := by
            simpa [hstarts, spaces, Nat.add_assoc] using hwrite
          let moved := bytes.setIfInBounds (indented.length + width) byte
          have hfits : indented.length + width ≤ moved.size := by
            rw [Array.size_setIfInBounds]
            omega
          have hfilled := toList_fillSpaces indented.length width moved hfits
          have htake : (moved.toList.take indented.length).length = indented.length := by
            refine List.length_take_of_le ?_
            exact Nat.le_trans (Nat.le_add_right _ _) hfits
          rw [indentBefore, Nat.add_sub_cancel, startsLine_moved (by omega) hsize, hstarts,
            if_pos rfl, Nat.add_sub_cancel]
          change (indentBefore width (fillSpaces moved indented.length width) read _).toList = _
          rw [hrest]
          · rw [hfilled, List.drop_left' htake, drop_moved hsize]
            simp [byte]
          · rw [size_fillSpaces, Array.size_setIfInBounds]
          · rw [hfilled, List.take_append_of_le_length (by rw [htake]; exact hle), List.take_take,
              Nat.min_eq_left hle, hmoved _ (Nat.le_add_right _ _)]

/-- A content grows by the width for each of its line starts. -/
theorem length_indentedBytes_eq (data : List UInt8) (width : Nat) :
    (indentedBytes width data).length = data.length + width * (ofContent data).lineStarts := by
  have hbytes := bytes_ofContent data
  have hle : data.length ≤ (ofContent data).bytes.size := by
    rw [← Array.length_toList, hbytes, List.length_append]
    exact Nat.le_add_right _ _
  have hcount := length_indentedBytes hle width
  rw [hbytes, List.take_left] at hcount
  rw [lineStarts, size_ofContent, hcount]

/-- The content is indented, and nothing but the terminating zero follows it. -/
theorem indent_ofContent (data : List UInt8) (width : Nat) :
    (ofContent data).indent width = ofContent (indentedBytes width data) := by
  have hbytes := bytes_ofContent data
  have hsize : (ofContent data).bytes.size = data.length + 1 := by
    rw [← Array.length_toList, hbytes, List.length_append, List.length_singleton]
  have hlength := length_indentedBytes_eq data width
  rw [indent]
  split
  · rename_i hroom
    have hsame : data = indentedBytes width data := by
      refine (sublist_indentedFrom true data).eq_of_length ?_
      change data.length = (indentedBytes width data).length
      rw [hlength, hroom, Nat.add_zero]
    rw [← hsame]
  · generalize width * (ofContent data).lineStarts = room at hlength
    have hroom : ((ofContent data).bytes ++ Array.replicate room 0).toList =
        data ++ 0 :: List.replicate room 0 := by
      rw [Array.toList_append, hbytes, Array.toList_replicate, List.append_assoc,
        List.singleton_append]
    have htail :
        (data ++ 0 :: List.replicate room (0 : UInt8)).drop (data.length + room) = [0] := by
      rw [List.drop_length_add_append, ← List.replicate_succ, List.drop_replicate,
        Nat.add_sub_cancel_left]
      rfl
    rw [eq_ofContent_iff, size_ofContent, toList_indentBefore, hroom, List.take_left, htail]
    · simp [hsize]
      omega
    · simp [hsize]
    · rw [hroom, List.take_left, hlength]

end ContentBuffer

end Metainfo
