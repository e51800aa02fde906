import Mathlib.Data.List.Basic
import Metainfo.Proofs.Content.Indent
import Metainfo.Proofs.Content.Words

/-!
What indenting makes of a content: its lines, those that are not empty with a margin. The pass from
the back moves no byte onto one that it has still to read, and ends where the content begins.
-/

namespace Metainfo

section Lines

variable {α : Type} [DecidableEq α] {line : α} {margin : List α}

/-- A line as it is indented: an empty one stays empty. -/
def withMargin (margin text : List α) : List α :=
  if text = [] then [] else margin ++ text

/-- A text is a last line, or a line and the line break before a shorter text. -/
theorem line_induction (line : α) {motive : List α → Prop} (last : ∀ text, line ∉ text → motive text)
    (more : ∀ text rest, line ∉ text → motive rest → motive (text ++ line :: rest))
    (text : List α) : motive text := by
  induction hlength : text.length using Nat.strong_induction_on generalizing text with
  | _ length ih =>
      by_cases hline : line ∈ text
      · obtain ⟨first, rest, rfl, hfirst⟩ := List.eq_append_cons_of_mem hline
        refine more first rest hfirst (ih rest.length ?_ rest rfl)
        simp at hlength
        omega
      · exact last text hline

omit [DecidableEq α] in
theorem intercalate_cons_of_ne_nil (text : List α) {others : List (List α)} (h : others ≠ []) :
    [line].intercalate (text :: others) = text ++ line :: [line].intercalate others := by
  obtain ⟨next, more, rfl⟩ := List.exists_cons_of_ne_nil h
  rw [List.intercalate_cons_cons, List.append_assoc, List.singleton_append]

/-- One line more, before the line break. -/
theorem indentedFrom_line {text : List α} (h : line ∉ text) (margin rest : List α) :
    indentedFrom line margin true (text ++ line :: rest) =
      withMargin margin text ++ line :: indentedFrom line margin true rest := by
  rcases eq_or_ne text [] with rfl | hne
  · rw [List.nil_append, indentedFrom, if_pos rfl]
    rfl
  · rw [indentedFrom_part hne h, indentedFrom, if_pos rfl, if_pos rfl, withMargin, if_neg hne,
      List.append_assoc]

theorem indentedFrom_last {text : List α} (h : line ∉ text) (margin : List α) :
    indentedFrom line margin true text = withMargin margin text := by
  rcases eq_or_ne text [] with rfl | hne
  · rfl
  · have hpart := indentedFrom_part hne h margin true []
    rw [List.append_nil] at hpart
    rw [hpart, indentedFrom, List.append_nil, withMargin, if_neg hne]
    rfl

/-- The indented text has the lines of the text, each as it is indented. -/
theorem indentedFrom_eq_intercalate (margin text : List α) :
    indentedFrom line margin true text =
      [line].intercalate ((text.splitOn line).map (withMargin margin)) := by
  induction text using line_induction line with
  | last text hline =>
      rw [indentedFrom_last hline, List.splitOn_eq_singleton hline]
      simp
  | more text rest hline ih =>
      have hne : (rest.splitOn line).map (withMargin margin) ≠ [] :=
        List.map_eq_nil_iff.not.mpr (List.splitOn_ne_nil line rest)
      rw [indentedFrom_line hline, ih, List.splitOn_append_cons_self_of_not_mem hline,
        List.map_cons, intercalate_cons_of_ne_nil _ hne]

/-- The text grows by the margin for each line that is not empty. -/
theorem length_indentedFrom (margin text : List α) :
    (indentedFrom line margin true text).length =
      text.length + margin.length * (text.splitOn line).countP (· ≠ []) := by
  have hlength (text : List α) : (withMargin margin text).length =
      text.length + margin.length * if text ≠ [] then 1 else 0 := by
    by_cases hempty : text = []
    · simp [withMargin, hempty]
    · simp [withMargin, hempty, Nat.add_comm]
  induction text using line_induction line with
  | last text hline =>
      rw [indentedFrom_last hline, hlength, List.splitOn_eq_singleton hline,
        List.countP_singleton]
      simp only [decide_eq_true_eq]
  | more text rest hline ih =>
      rw [indentedFrom_line hline, List.length_append, List.length_cons, ih, hlength,
        List.splitOn_append_cons_self_of_not_mem hline, List.countP_cons, Nat.mul_add,
        List.length_append, List.length_cons]
      simp only [decide_eq_true_eq]
      omega

end Lines

namespace ContentBuffer

open Metainfo.Utf8

/-- The lines that are not empty, counted by line feeds: the first one, and one for each line feed
that something other than a line feed follows. -/
def filledLines (buffer : ContentBuffer) : Nat :=
  (buffer.content.head?.any (· != byteOf '\n')).toNat +
    ((List.range buffer.size).filter (buffer.bytes.getD · 0 = byteOf '\n')).countP fun newline =>
      newline + 1 < buffer.size && buffer.bytes.getD (newline + 1) 0 != byteOf '\n'

def subtract? (number amount : Nat) : Option Nat :=
  if amount ≤ number then some (number - amount) else none

/-- Sets a byte that is there and is none of the first `unread`, which have still to be read. -/
def overwrite? (unread : Nat) (bytes : Array UInt8) (index : Nat) (byte : UInt8) :
    Option (Array UInt8) :=
  if unread ≤ index then set? bytes index byte else none

def startsLine? (bytes : Array UInt8) (position : Nat) : Option Bool := do
  let byte ← bytes[position]?
  if byte = byteOf '\n' then some false
  else if position = 0 then some true
  else
    let before ← bytes[position - 1]?
    some (before = byteOf '\n')

def fillSpaces? (unread : Nat) (bytes : Array UInt8) (start : Nat) : Nat → Option (Array UInt8)
  | 0 => some bytes
  | width + 1 => do
      let bytes ← overwrite? unread bytes start (byteOf ' ')
      fillSpaces? unread bytes (start + 1) width

/-- How far the pass over a content has come: the bytes, where the last one was written, and how
many of the bytes read start a line. -/
structure Pass where
  bytes : Array UInt8
  write : Nat
  starts : Nat

/-- The pass of `indentBefore` with every position looked up. There is no answer if a position is
outside of the bytes, if more is taken from one than it has, or if a byte is overwritten that has
still to be read. -/
def indentBefore? (width : Nat) (pass : Pass) : (read : Nat) → Option Pass
  | 0 => some pass
  | read + 1 => do
      let byte ← pass.bytes[read]?
      let write ← subtract? pass.write 1
      let moved ← overwrite? read pass.bytes write byte
      if ← startsLine? moved read then
        let write ← subtract? write width
        let filled ← fillSpaces? read moved write width
        indentBefore? width ⟨filled, write, pass.starts + 1⟩ read
      else indentBefore? width ⟨moved, write, pass.starts⟩ read

/-- Makes room for the lines counted beforehand. The pass has to end at the first byte, having met
as many line starts as were counted. -/
def indent? (buffer : ContentBuffer) (width : Nat) : Option ContentBuffer :=
  if buffer.size = 0 ∨ width = 0 then some buffer
  else
    let lines := buffer.filledLines
    if lines = 0 then some buffer
    else do
      let size := buffer.size + width * lines
      let grown := buffer.bytes ++ Array.replicate (width * lines) 0
      let pass ← indentBefore? width ⟨grown, size, 0⟩ buffer.size
      if pass.write = 0 ∧ pass.starts = lines then
        let bytes ← set? pass.bytes size 0
        some ⟨bytes⟩
      else none

variable {width read write : Nat} {bytes : Array UInt8}

theorem subtract?_of_le {number amount : Nat} (h : amount ≤ number) :
    subtract? number amount = some (number - amount) :=
  if_pos h

theorem overwrite?_of_le {unread index : Nat} (hunread : unread ≤ index)
    (hsize : index < bytes.size) (byte : UInt8) :
    overwrite? unread bytes index byte = some (bytes.setIfInBounds index byte) := by
  rw [overwrite?, if_pos hunread, set?_of_lt hsize]

theorem startsLine?_of_lt (h : read < bytes.size) :
    startsLine? bytes read = some (startsLine bytes read) := by
  rw [startsLine?, getElem?_eq_some_getD h, startsLine]
  simp only [Option.bind_eq_bind, Option.bind_some]
  by_cases hline : bytes.getD read 0 = byteOf '\n'
  · rw [if_pos hline, hline]
    rfl
  · rw [if_neg hline, bne_iff_ne.mpr hline, Bool.true_and]
    cases read with
    | zero => rfl
    | succ before =>
        rw [if_neg (Nat.succ_ne_zero before), getElem?_eq_some_getD (by omega)]
        rfl

theorem fillSpaces?_eq_some {unread start : Nat} (hunread : unread ≤ start)
    (h : start + width ≤ bytes.size) :
    fillSpaces? unread bytes start width = some (fillSpaces bytes start width) := by
  induction width generalizing start bytes with
  | zero => rfl
  | succ width ih =>
      rw [fillSpaces?, overwrite?_of_le hunread (by omega)]
      exact ih (Nat.le_succ_of_le hunread) (by rw [Array.size_setIfInBounds]; omega)

theorem getD_fillSpaces_of_lt {index start : Nat} (h : index < start) :
    (fillSpaces bytes start width).getD index 0 = bytes.getD index 0 := by
  induction width generalizing start bytes with
  | zero => rfl
  | succ width ih =>
      rw [fillSpaces, ih (Nat.lt_succ_of_lt h), getD_setIfInBounds_of_ne (Nat.ne_of_lt h)]

/-- How many of the first bytes start a line depends on these bytes only. -/
theorem countP_startsLine_congr {other : Array UInt8}
    (h : ∀ index < read, other.getD index 0 = bytes.getD index 0) :
    (List.range read).countP (startsLine other) = (List.range read).countP (startsLine bytes) := by
  refine List.countP_congr fun index hindex => ?_
  have hlt : index < read := List.mem_range.mp hindex
  rw [startsLine, startsLine, h index hlt, h (index - 1) (by omega)]

/-- The pass writes behind what it has still to read: by the width for each line start among it. -/
theorem indentBefore?_eq_some (width : Nat) (bytes : Array UInt8) (read write starts : Nat)
    (hread : read ≤ bytes.size) (hsize : write ≤ bytes.size)
    (hwrite : write = read + width * (List.range read).countP (startsLine bytes)) :
    indentBefore? width ⟨bytes, write, starts⟩ read =
      some ⟨indentBefore width bytes read write, 0,
        starts + (List.range read).countP (startsLine bytes)⟩ := by
  induction read generalizing bytes write starts with
  | zero =>
      have hzero : write = 0 := by simpa using hwrite
      rw [indentBefore?, indentBefore, hzero]
      rfl
  | succ read ih =>
      rw [List.range_succ, List.countP_append, List.countP_singleton] at hwrite ⊢
      generalize hcount : (List.range read).countP (startsLine bytes) = count at hwrite ⊢
      have hle : read ≤ write - 1 := by
        rw [hwrite, Nat.mul_add]
        omega
      have hstarts : startsLine (bytes.setIfInBounds (write - 1) (bytes.getD read 0)) read =
          startsLine bytes read := startsLine_moved hle (by omega)
      rw [indentBefore?, getElem?_eq_some_getD hread, indentBefore]
      simp only [Option.bind_eq_bind, Option.bind_some]
      rw [subtract?_of_le (by omega), Option.bind_some, overwrite?_of_le hle (by omega),
        Option.bind_some]
      generalize hmoved : bytes.setIfInBounds (write - 1) (bytes.getD read 0) = moved at hstarts ⊢
      have hsame : ∀ index < read, moved.getD index 0 = bytes.getD index 0 := by
        intro index hindex
        rw [← hmoved, getD_setIfInBounds_of_ne (by omega)]
      have hmovedSize : moved.size = bytes.size := by
        rw [← hmoved, Array.size_setIfInBounds]
      rw [startsLine?_of_lt (by omega), Option.bind_some, hstarts]
      cases hstart : startsLine bytes read with
      | false =>
          simp only [hstart, Bool.false_eq_true, if_false, Nat.add_zero] at hwrite
          rw [if_neg Bool.false_ne_true, if_neg Bool.false_ne_true, if_neg Bool.false_ne_true,
            ih moved (write - 1) starts (by omega) (by omega), countP_startsLine_congr hsame,
            hcount, Nat.add_zero]
          rw [countP_startsLine_congr hsame, hcount]
          omega
      | true =>
          rw [hstart, if_pos rfl, Nat.mul_add, Nat.mul_one] at hwrite
          have hfilled : ∀ index < read,
              (fillSpaces moved (write - 1 - width) width).getD index 0 = bytes.getD index 0 := by
            intro index hindex
            rw [getD_fillSpaces_of_lt (by omega), hsame index hindex]
          rw [if_pos rfl, if_pos rfl, if_pos rfl, subtract?_of_le (by omega), Option.bind_some,
            fillSpaces?_eq_some (by omega) (by omega), Option.bind_some,
            ih _ (write - 1 - width) (starts + 1) (by rw [size_fillSpaces]; omega)
              (by rw [size_fillSpaces]; omega),
            countP_startsLine_congr hfilled, hcount, Nat.add_assoc, Nat.add_comm 1]
          rw [countP_startsLine_congr hfilled, hcount]
          omega

theorem lineStarts_ofContent (data : List UInt8) :
    (ofContent data).lineStarts = (data.splitOn (byteOf '\n')).countP (· ≠ []) := by
  have hbytes := length_indentedBytes_eq data 1
  have hspaces : (spaces 1).length = 1 := rfl
  rw [indentedBytes, length_indentedFrom, hspaces] at hbytes
  omega

/-- Counting line feeds and counting line starts come to the same. -/
theorem filledLines_eq (buffer : ContentBuffer) : buffer.filledLines = buffer.lineStarts := by
  rw [filledLines, lineStarts, List.countP_filter, content]
  cases hsize : buffer.size with
  | zero => simp
  | succ size =>
      have hfirst : (buffer.bytes.toList.take (size + 1)).head? =
          some (buffer.bytes.getD 0 0) := by
        have hpos : 0 < buffer.bytes.size := by
          rw [ContentBuffer.size] at hsize
          omega
        rw [List.head?_take, if_neg (Nat.succ_ne_zero size)]
        simp [hpos, List.head?_eq_getElem?]
      have hstarts : (List.range (size + 1)).countP (startsLine buffer.bytes) =
          (buffer.bytes.getD 0 0 != byteOf '\n').toNat +
            (List.range size).countP (startsLine buffer.bytes ∘ Nat.succ) := by
        have hzero : startsLine buffer.bytes 0 = (buffer.bytes.getD 0 0 != byteOf '\n') :=
          Bool.and_true _
        rw [List.range_succ_eq_map, List.countP_cons, List.countP_map, Nat.add_comm, hzero]
        cases buffer.bytes.getD 0 0 != byteOf '\n' <;> rfl
      -- Nothing follows a line feed at the end, so the last position does not count.
      have hbreaks : (List.range (size + 1)).countP (fun newline =>
            (newline + 1 < size + 1 && buffer.bytes.getD (newline + 1) 0 != byteOf '\n') &&
              decide (buffer.bytes.getD newline 0 = byteOf '\n')) =
          (List.range size).countP (startsLine buffer.bytes ∘ Nat.succ) := by
        rw [List.range_succ, List.countP_append, List.countP_singleton, decide_eq_false (by simp),
          Bool.false_and, Bool.false_and, if_neg Bool.false_ne_true, Nat.add_zero]
        refine List.countP_congr fun newline hnewline => ?_
        have hlt : newline + 1 < size + 1 := Nat.succ_lt_succ (List.mem_range.mp hnewline)
        simp [startsLine, hlt]
      rw [hfirst, Option.any_some, hbreaks, hstarts]

/-- The terminating zero stands where the pass is to leave it. -/
theorem set?_terminator {bytes : Array UInt8} {data : List UInt8}
    (h : bytes.toList = data ++ [0]) : set? bytes data.length 0 = some bytes := by
  have hsize : data.length < bytes.size := by
    rw [← Array.length_toList, h, List.length_append]
    exact Nat.lt_succ_self _
  rw [set?_of_lt hsize, Option.some_inj, ← Array.toList_inj, Array.toList_setIfInBounds, h]
  simp

/-- Nothing goes wrong in the pass. -/
theorem indent?_ofContent (data : List UInt8) (width : Nat) :
    (ofContent data).indent? width = some ((ofContent data).indent width) := by
  have hafter := eq_ofContent_iff.mp (indent_ofContent data width)
  have hlength := length_indentedBytes_eq data width
  rw [indent?, filledLines_eq]
  simp only
  by_cases hroom : width * (ofContent data).lineStarts = 0
  · have hsame : (ofContent data).indent width = ofContent data := if_pos hroom
    rw [hsame]
    rcases Nat.mul_eq_zero.mp hroom with hwidth | hlines
    · rw [if_pos (Or.inr hwidth)]
    · rw [if_pos hlines, ite_self]
  · obtain ⟨hwidth, hlines⟩ := Nat.mul_ne_zero_iff.mp hroom
    have hsize : (ofContent data).size ≠ 0 := by
      intro hzero
      rw [lineStarts, hzero] at hlines
      exact hlines rfl
    have hgrown : (ofContent data).indent width = ⟨indentBefore width ((ofContent data).bytes ++
        Array.replicate (width * (ofContent data).lineStarts) 0) (ofContent data).size
          ((ofContent data).size + width * (ofContent data).lineStarts)⟩ := if_neg hroom
    have hbytes : (ofContent data).bytes.size = (ofContent data).size + 1 := by
      rw [size_ofContent, ← Array.length_toList, bytes_ofContent]
      simp
    rw [hgrown] at hafter ⊢
    rw [if_neg (not_or.mpr ⟨hsize, hwidth⟩), if_neg hlines]
    generalize hbuffer : ofContent data = buffer at *
    have hstarts : (List.range buffer.size).countP (startsLine (buffer.bytes ++
        Array.replicate (width * buffer.lineStarts) 0)) = buffer.lineStarts := by
      refine countP_startsLine_congr fun index hindex => ?_
      have hlt : index < buffer.bytes.size := by omega
      simp [Array.getD_eq_getD_getElem?, Array.getElem?_append_left hlt]
    rw [indentBefore?_eq_some _ _ _ _ _ (by simp; omega) (by simp; omega) (by rw [hstarts]),
      hstarts, Nat.zero_add]
    simp only [Option.bind_eq_bind, Option.bind_some, and_self, if_true]
    have hend : buffer.size + width * buffer.lineStarts = (indentedBytes width data).length := by
      rw [hlength, ← hbuffer, size_ofContent]
    rw [hend] at hafter ⊢
    rw [set?_terminator hafter]
    rfl

/-- Indenting leaves the lines of a content in their order, those that are not empty with as many
spaces in front as the width says, and the terminating zero. The content grows by the width for each
line that is not empty, and counting these beforehand by the line feeds gives their number. The pass
from the back takes no more from a position than it has, overwrites no byte that it has still to
read, meets as many line starts as were counted, and ends at the first byte. -/
theorem indent_lines (data : List UInt8) (width : Nat) :
    let lines := data.splitOn (byteOf '\n')
    let filled := lines.countP (· ≠ [])
    let after := (ofContent data).indent width
    after.bytes.toList =
        [byteOf '\n'].intercalate (lines.map (withMargin (spaces width))) ++ [0] ∧
      after.size = data.length + width * filled ∧
      (ofContent data).filledLines = filled ∧
      (ofContent data).indent? width = some after := by
  intro lines filled after
  have hafter : after = ofContent (indentedBytes width data) := indent_ofContent data width
  have hlines : (ofContent data).lineStarts = filled := lineStarts_ofContent data
  refine ⟨?_, ?_, (filledLines_eq _).trans hlines, indent?_ofContent data width⟩
  · rw [hafter, bytes_ofContent, indentedBytes, indentedFrom_eq_intercalate]
  · rw [hafter, size_ofContent, length_indentedBytes_eq, hlines]

end ContentBuffer

end Metainfo
