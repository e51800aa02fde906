import Mathlib.Data.List.DropRight
import Mathlib.Logic.Relation
import Metainfo.Proofs.Text.LineIndex

/-!
Reading through a buffer. However the input is cut into the parts that are taken out of the buffer
or read at once, the index knows the line feeds of exactly the bytes that were handed on, and tells
every place among them.
-/

namespace Metainfo

open Metainfo.Utf8

/-- A reader between two calls: the bytes that it has handed on, those to come, how many of these
its buffer holds, and the index that it feeds. -/
structure BufferedReader where
  passed : List UInt8
  coming : List UInt8
  held : Nat
  index : LineIndex
  deriving DecidableEq, Repr

namespace BufferedReader

def start (bytes : List UInt8) : BufferedReader :=
  ⟨[], bytes, 0, .empty⟩

/-- The reader when so many bytes more have been handed on, out of a buffer that held at least
these. -/
def advance (reader : BufferedReader) (amount held : Nat) (index : LineIndex) : BufferedReader :=
  ⟨reader.passed ++ reader.coming.take amount, reader.coming.drop amount, held - amount, index⟩

/-- What a call does. Each of them may first put more of the input into the buffer, `consume` too:
it looks at the buffer once more, and an empty one is filled by that. -/
inductive Step (reader : BufferedReader) : BufferedReader → Prop
  | fill {held : Nat} (hmore : reader.held ≤ held) (hheld : held ≤ reader.coming.length) :
      Step reader { reader with held }
  | consume {amount held : Nat} (hamount : amount ≤ reader.held) (hmore : reader.held ≤ held)
      (hheld : held ≤ reader.coming.length) :
      Step reader
        (reader.advance amount held (reader.index.consume (reader.coming.take held) amount))
  | read {amount held : Nat} (hamount : amount ≤ held) (hmore : reader.held ≤ held)
      (hheld : held ≤ reader.coming.length) :
      Step reader (reader.advance amount held (reader.index.record (reader.coming.take amount)))

/-- What any number of calls in any order lead to. -/
abbrev Reaches : BufferedReader → BufferedReader → Prop :=
  Relation.ReflTransGen Step

end BufferedReader

/-- The line of an offset starts just behind the last line feed before it, or at the front if there
is none. -/
structure IsLineStart (bytes : List UInt8) (offset start : Nat) : Prop where
  le : start ≤ offset
  fresh : start = 0 ∨ ∃ newline, start = newline + 1 ∧ bytes[newline]? = some (byteOf '\n')
  unbroken : ∀ position, start ≤ position → position < offset →
    bytes[position]? ≠ some (byteOf '\n')

theorem IsLineStart.of_take {bytes : List UInt8} {offset start : Nat}
    (h : IsLineStart (bytes.take offset) offset start) : IsLineStart bytes offset start := by
  refine ⟨h.le, h.fresh.imp_right ?_, fun position hstart hend => ?_⟩
  · rintro ⟨newline, rfl, hnewline⟩
    rw [List.getElem?_take_of_lt h.le] at hnewline
    exact ⟨newline, rfl, hnewline⟩
  · rw [← List.getElem?_take_of_lt hend]
    exact h.unbroken position hstart hend

namespace LineIndex

variable {bytes : List UInt8} {offset : Nat}

theorem record_record (index : LineIndex) (first second : List UInt8) :
    (index.record first).record second = index.record (first ++ second) := by
  simp only [record, newlinesFrom_append, List.length_append, Nat.add_assoc, mk.injEq, true_and]
  rw [← Array.toList_inj]
  simp

/-- What is taken out of a buffer is what is read. -/
theorem consume_eq_record (index : LineIndex) {available : List UInt8} {amount : Nat}
    (h : amount ≤ available.length) :
    index.consume available amount = index.record (available.take amount) := by
  rw [consume, record, List.length_take_of_le h]

theorem newlines_record (bytes : List UInt8) :
    (empty.record bytes).newlines.toList = newlinesFrom 0 bytes := by
  simp [record, empty]

theorem mem_newlinesFrom_iff {first position : Nat} :
    first + position ∈ newlinesFrom first bytes ↔ bytes[position]? = some (byteOf '\n') := by
  induction bytes generalizing first position with
  | nil => simp [newlinesFrom]
  | cons byte rest ih =>
      have hbehind : first ∉ newlinesFrom (first + 1) rest := fun hmem =>
        Nat.not_succ_le_self first (mem_newlinesFrom hmem).1
      rw [newlinesFrom]
      cases position with
      | zero =>
          rw [Nat.add_zero, List.getElem?_cons_zero, Option.some_inj]
          split <;> simp_all
      | succ position =>
          have hrest := @ih (first + 1) position
          rw [Nat.add_right_comm, Nat.add_assoc] at hrest
          rw [List.getElem?_cons_succ, ← hrest]
          split <;> simp

theorem pairwise_newlinesFrom (first : Nat) (bytes : List UInt8) :
    (newlinesFrom first bytes).Pairwise (· < ·) := by
  induction bytes generalizing first with
  | nil => exact .nil
  | cons byte rest ih =>
      rw [newlinesFrom]
      split
      · exact .cons (fun _ hmem => (mem_newlinesFrom hmem).1) (ih (first + 1))
      · exact ih (first + 1)

/-- Where the line of the end starts: behind the bytes up to the last line feed. -/
theorem exists_isLineStart (bytes : List UInt8) :
    ∃ start, IsLineStart bytes bytes.length start ∧
      (Location.after bytes).column = bytes.length - start := by
  let front := bytes.rdropWhile fun byte => byte != byteOf '\n'
  let run := bytes.rtakeWhile fun byte => byte != byteOf '\n'
  have hbytes : front ++ run = bytes := List.rdropWhile_append_rtakeWhile
  have hlength : front.length + run.length = bytes.length := by
    rw [← List.length_append, hbytes]
  have hcolumn : (Location.after bytes).column = run.length := List.length_reverse.symm
  refine ⟨front.length, ⟨by omega, ?_, ?_⟩, by omega⟩
  · rcases eq_or_ne front [] with hnil | hne
    · exact Or.inl (by rw [hnil, List.length_nil])
    · have hstop := List.rdropWhile_last_not (fun byte => byte != byteOf '\n') bytes hne
      have hlast : front.getLast hne = byteOf '\n' := by simpa using hstop
      have hcut := List.dropLast_append_getLast hne
      refine Or.inr ⟨front.dropLast.length, ?_, ?_⟩
      · rw [List.length_dropLast, Nat.sub_add_cancel (List.length_pos_of_ne_nil hne)]
      · rw [← hbytes, ← hcut, hlast, List.append_assoc, List.getElem?_append_right (by simp)]
        simp
  · intro position hstart hend hbyte
    rw [← hbytes, List.getElem?_append_right hstart] at hbyte
    have hrun := List.mem_rtakeWhile_imp (List.mem_of_getElem? hbyte)
    simp at hrun

/-- A place among the bytes that have been read is told by the line feeds before it. -/
theorem location_record_eq (h : offset ≤ bytes.length) :
    ∃ start, IsLineStart bytes offset start ∧
      (empty.record bytes).location offset =
        ⟨1 + (bytes.take offset).count (byteOf '\n'), offset - start⟩ := by
  obtain ⟨start, hstart, hcolumn⟩ := exists_isLineStart (bytes.take offset)
  rw [List.length_take_of_le h] at hstart hcolumn
  refine ⟨start, hstart.of_take, ?_⟩
  rw [location_record h, ← hcolumn, Nat.add_comm, Location.after]

end LineIndex

namespace BufferedReader

variable {bytes : List UInt8} {reader next : BufferedReader}

/-- The bytes are those of the input in their order, and the index was given those that have been
handed on. -/
structure Tracks (bytes : List UInt8) (reader : BufferedReader) : Prop where
  bytes_eq : reader.passed ++ reader.coming = bytes
  index_eq : reader.index = LineIndex.empty.record reader.passed

theorem tracks_start (bytes : List UInt8) : Tracks bytes (start bytes) :=
  ⟨rfl, rfl⟩

theorem Tracks.advance (h : Tracks bytes reader) (amount held : Nat) :
    Tracks bytes
      (reader.advance amount held (reader.index.record (reader.coming.take amount))) where
  bytes_eq := by
    rw [BufferedReader.advance, List.append_assoc, List.take_append_drop, h.bytes_eq]
  index_eq := by
    rw [BufferedReader.advance, h.index_eq, LineIndex.record_record]

theorem Tracks.step (h : Tracks bytes reader) (hstep : Step reader next) : Tracks bytes next := by
  cases hstep with
  | fill => exact ⟨h.bytes_eq, h.index_eq⟩
  | @consume amount held hamount hmore hheld =>
      have hle : amount ≤ (reader.coming.take held).length := by
        rw [List.length_take_of_le hheld]
        exact Nat.le_trans hamount hmore
      have htaken : (reader.coming.take held).take amount = reader.coming.take amount := by
        rw [List.take_take, Nat.min_eq_left (Nat.le_trans hamount hmore)]
      rw [LineIndex.consume_eq_record _ hle, htaken]
      exact h.advance amount held
  | read => exact h.advance _ _

theorem tracks_of_reaches (h : Reaches (start bytes) reader) : Tracks bytes reader := by
  induction h with
  | refl => exact tracks_start bytes
  | tail _ hstep ih => exact ih.step hstep

end BufferedReader

open BufferedReader in
/-- However an input is read, the index holds the line feeds of exactly the bytes handed on, in
ascending order. A place up to the last of these bytes is told by the line feeds before it, and is
where a fault is found that is reported there when the whole input has been read. -/
theorem LineIndex.location_of_reaches {bytes : List UInt8} {reader : BufferedReader}
    (h : Reaches (start bytes) reader) :
    reader.passed <+: bytes ∧
      reader.index.consumed = reader.passed.length ∧
      reader.index.newlines.toList.Pairwise (· < ·) ∧
      (∀ position, position ∈ reader.index.newlines ↔
        reader.passed[position]? = some (byteOf '\n')) ∧
      ∀ offset ≤ reader.index.consumed,
        (∃ start, IsLineStart reader.passed offset start ∧
          reader.index.location offset =
            ⟨1 + (reader.passed.take offset).count (byteOf '\n'), offset - start⟩) ∧
        reader.index.location offset = (LineIndex.empty.record bytes).location offset := by
  obtain ⟨hbytes, hindex⟩ := tracks_of_reaches h
  have hconsumed : reader.index.consumed = reader.passed.length := by
    rw [hindex]
    exact Nat.zero_add _
  refine ⟨⟨_, hbytes⟩, hconsumed, ?_, fun position => ?_, fun offset hoffset => ?_⟩
  · rw [hindex, newlines_record]
    exact pairwise_newlinesFrom 0 _
  · have hmem := @mem_newlinesFrom_iff reader.passed 0 position
    rw [Nat.zero_add] at hmem
    rw [← hmem, ← newlines_record, ← hindex, Array.mem_toList_iff]
  · rw [hconsumed] at hoffset
    rw [hindex]
    refine ⟨location_record_eq hoffset, ?_⟩
    rw [← hbytes, location_record_append hoffset]

open BufferedReader in
/-- Three bytes are put into the buffer, two are taken out of it, and then four are read at once. -/
theorem LineIndex.location_of_reaches_parts :
    ∃ reader, Reaches (start (encode "a\n\nbc\nd")) reader ∧
      reader.passed = encode "a\n\nbc\n" ∧ reader.held = 1 ∧
      reader.index.newlines = #[1, 2, 5] ∧
      reader.index.location 5 = ⟨3, 2⟩ ∧ reader.index.location 6 = ⟨4, 0⟩ := by
  have hfill : Reaches (start (encode "a\n\nbc\nd")) _ :=
    .single (.fill (show 0 ≤ 3 by decide) (by decide))
  have hconsume := hfill.tail (.consume (show 2 ≤ 3 by decide) (Nat.le_refl 3) (by decide))
  have hread := hconsume.tail (.read (show 4 ≤ 5 by decide) (by decide) (by decide))
  obtain ⟨-, -, -, -, hplaces⟩ := location_of_reaches hread
  refine ⟨_, hread, by decide, rfl, by decide, ?_, ?_⟩
  · rw [(hplaces 5 (by decide)).2]
    decide +kernel
  · rw [(hplaces 6 (by decide)).2]
    decide +kernel

end Metainfo
