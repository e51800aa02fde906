import Mathlib.Data.List.GetD
import Mathlib.Data.List.Induction
import Metainfo.Text.LineIndex

/-!
Line and column from the offsets of line feeds. The halving search counts the line feeds before an
offset, so that a place is told by the bytes before it and does not depend on those behind it.
-/

namespace Metainfo

open Metainfo.Utf8

/-- The place behind some bytes. -/
def Location.after (bytes : List UInt8) : Location where
  line := bytes.count (byteOf '\n') + 1
  column := (bytes.reverse.takeWhile fun byte => byte != byteOf '\n').length

namespace LineIndex

theorem newlinesFrom_append (start : Nat) (first second : List UInt8) :
    newlinesFrom start (first ++ second) =
      newlinesFrom start first ++ newlinesFrom (start + first.length) second := by
  induction first generalizing start with
  | nil => rfl
  | cons byte rest ih =>
      rw [List.cons_append, newlinesFrom, newlinesFrom, ih, List.length_cons,
        Nat.add_comm rest.length 1, ← Nat.add_assoc]
      split <;> rfl

theorem length_newlinesFrom (start : Nat) (bytes : List UInt8) :
    (newlinesFrom start bytes).length = bytes.count (byteOf '\n') := by
  induction bytes generalizing start with
  | nil => rfl
  | cons byte rest ih =>
      rw [newlinesFrom, List.count_cons]
      split
      · rename_i hnewline
        simp [ih, hnewline]
      · rename_i hother
        simp [ih, hother]

theorem mem_newlinesFrom {start position : Nat} {bytes : List UInt8}
    (h : position ∈ newlinesFrom start bytes) :
    start ≤ position ∧ position < start + bytes.length := by
  induction bytes generalizing start with
  | nil => contradiction
  | cons byte rest ih =>
      have hrest (hmem : position ∈ newlinesFrom (start + 1) rest) :
          start ≤ position ∧ position < start + (byte :: rest).length := by
        obtain ⟨hle, hlt⟩ := ih hmem
        rw [List.length_cons]
        omega
      rw [newlinesFrom] at h
      split at h
      · rcases List.mem_cons.mp h with rfl | hmem
        · simp
        · exact hrest hmem
      · exact hrest h

/-- Halving finds where the positions stop to precede the offset. -/
theorem partitionPoint_eq {positions : Array Nat} {offset low high point : Nat}
    (hlow : low ≤ point) (hhigh : point ≤ high)
    (hbefore : ∀ index, index < point → positions.getD index 0 < offset)
    (hbehind : ∀ index, point ≤ index → index < high → offset ≤ positions.getD index 0) :
    partitionPoint positions offset low high = point := by
  fun_induction partitionPoint positions offset low high with
  | case1 low high hlt middle hprecedes ih =>
      have hmiddle : middle < point := by
        refine Nat.lt_of_not_le fun hle => ?_
        have hnot := hbehind middle hle (by omega)
        omega
      exact ih hmiddle hhigh hbehind
  | case2 low high hlt middle hfollows ih =>
      have hmiddle : point ≤ middle :=
        Nat.le_of_not_lt fun hlt => hfollows (hbefore middle hlt)
      exact ih hlow hmiddle fun index hpoint hindex => hbehind index hpoint (by omega)
  | case3 low high hge => omega

/-- Behind the last line feed come as many bytes as are missing from it to the end. -/
theorem column_newlinesFrom (start : Nat) (bytes : List UInt8) :
    (if (newlinesFrom start bytes).length = 0 then start
      else (newlinesFrom start bytes).getD ((newlinesFrom start bytes).length - 1) 0 + 1) +
        (bytes.reverse.takeWhile fun byte => byte != byteOf '\n').length =
      start + bytes.length := by
  induction bytes using List.reverseRecOn with
  | nil => rfl
  | append_singleton bytes byte ih =>
      rw [newlinesFrom_append, List.reverse_append, List.reverse_singleton, List.singleton_append,
        List.takeWhile_cons, List.length_append, List.length_append, newlinesFrom]
      by_cases hnewline : byte = byteOf '\n'
      · simp [hnewline, newlinesFrom, Nat.add_assoc]
      · have hnone : (if byte = byteOf '\n' then
            (start + bytes.length) :: newlinesFrom (start + bytes.length + 1) []
            else newlinesFrom (start + bytes.length + 1) []) = [] := by
          rw [if_neg hnewline, newlinesFrom]
        have hrun : (byte != byteOf '\n') = true := by simpa using hnewline
        rw [hnone, List.append_nil, List.length_nil, Nat.add_zero, if_pos hrun, List.length_cons,
          List.length_singleton, ← Nat.add_assoc, ih, Nat.add_assoc]

/-- A place that has been read is told by the bytes before it. -/
theorem location_record {bytes : List UInt8} {offset : Nat} (h : offset ≤ bytes.length) :
    (empty.record bytes).location offset = Location.after (bytes.take offset) := by
  let front := newlinesFrom 0 (bytes.take offset)
  let back := newlinesFrom offset (bytes.drop offset)
  have hlength : (bytes.take offset).length = offset := List.length_take_of_le h
  have hsplit : newlinesFrom 0 bytes = front ++ back := by
    have happend := newlinesFrom_append 0 (bytes.take offset) (bytes.drop offset)
    rwa [List.take_append_drop, hlength, Nat.zero_add] at happend
  have hnewlines : (empty.record bytes).newlines = (front ++ back).toArray := by
    simp [record, empty, hsplit]
  have hget (index : Nat) :
      (front ++ back).toArray.getD index 0 = (front ++ back).getD index 0 := by
    simp
  have hbefore : partitionPoint (front ++ back).toArray offset 0 (front ++ back).toArray.size =
      front.length := by
    refine partitionPoint_eq (Nat.zero_le _) (by simp) ?_ ?_
    · intro index hindex
      rw [hget, List.getD_append _ _ _ _ hindex, List.getD_eq_getElem _ _ hindex]
      have hbound := (mem_newlinesFrom (List.getElem_mem hindex)).2
      rwa [Nat.zero_add, hlength] at hbound
    · intro index hfront hindex
      rw [List.size_toArray, List.length_append] at hindex
      rw [hget, List.getD_append_right _ _ _ _ hfront, List.getD_eq_getElem _ _ (by omega)]
      exact (mem_newlinesFrom (List.getElem_mem _)).1
  have hcolumn := column_newlinesFrom 0 (bytes.take offset)
  rw [hlength, Nat.zero_add] at hcolumn
  rw [location, hnewlines, hbefore, Location.after, ← length_newlinesFrom 0]
  congr 1
  have hlast : (front ++ back).toArray.getD (front.length - 1) 0 + 1 =
      front.getD (front.length - 1) 0 + 1 ∨ front.length = 0 := by
    by_cases hnone : front.length = 0
    · exact Or.inr hnone
    · refine Or.inl ?_
      rw [hget, List.getD_append _ _ _ _ (by omega)]
  change offset - (if front.length = 0 then 0 else _) = _
  change (if front.length = 0 then 0 else front.getD (front.length - 1) 0 + 1) + _ = offset
    at hcolumn
  rcases hlast with hlast | hnone
  · rw [hlast]
    omega
  · rw [if_pos hnone] at hcolumn ⊢
    omega

/-- What is read later does not move a place. -/
theorem location_record_append {bytes : List UInt8} {offset : Nat} (h : offset ≤ bytes.length)
    (more : List UInt8) :
    (empty.record (bytes ++ more)).location offset = (empty.record bytes).location offset := by
  rw [location_record h, location_record (by simp; omega), List.take_append_of_le_length h]

end LineIndex

end Metainfo
