import Mathlib.Tactic.SplitIfs
import Metainfo.Data.Json.Printer
import Metainfo.Proofs.Json.Grammar

/-!
What is printed for a value writes that value by the grammar, at any level.
-/

namespace Metainfo.Json

open Metainfo.Digits

theorem number?_hexDigits : ∀ number < 32,
    number? 16 ['0', '0', hexDigit (number / 16), hexDigit (number % 16)] = some number := by
  decide

theorem writesChar_writeChar (char : Char) : WritesChar char (writeChar char) := by
  rw [writeChar]
  split_ifs with hquote hbackslash hback hform hline hreturn htab hcontrol
  · subst hquote
    exact .escape rfl
  · subst hbackslash
    exact .escape rfl
  · subst hback
    exact .escape rfl
  · subst hform
    exact .escape rfl
  · subst hline
    exact .escape rfl
  · subst hreturn
    exact .escape rfl
  · subst htab
    exact .escape rfl
  · refine .number (number?_hexDigits char.toNat hcontrol) ?_
    have hvalid : char.toNat.isValidChar := char.valid
    rw [char?, if_pos hvalid, Char.ofNat_toNat]
  · exact .plain (Nat.le_of_not_lt hcontrol) hquote hbackslash

theorem writesChars_flatMap (chars : List Char) : WritesChars chars (chars.flatMap writeChar) := by
  induction chars with
  | nil => exact .nil
  | cons char chars ih => exact .cons (writesChar_writeChar char) ih

theorem writesScalar_writeText (value : String) : WritesScalar (.text value) (writeText value) := by
  rw [writeText, ← String.ofList_toList (s := value), String.toList_ofList]
  exact .text (writesChars_flatMap value.toList)

/-! Items and members one a line. -/

theorem isBlank_nil : IsBlank [] :=
  List.forall_mem_nil _

theorem isBlank_newline (level : Nat) : IsBlank (newline level) := by
  refine List.forall_mem_cons.mpr ⟨by decide, fun char hchar => ?_⟩
  rw [List.eq_of_mem_replicate hchar]
  decide

def writeMember (level : Nat) (member : String × Datum) : List Char :=
  writeText member.1 ++ [':', ' '] ++ write level member.2

theorem writeItems_eq_flatMap (level : Nat) (items : List Datum) :
    writeItems level items =
      items.flatMap fun item => ',' :: newline level ++ write level item := by
  induction items with
  | nil => rw [writeItems, List.flatMap_nil]
  | cons item items ih => rw [writeItems, ih, List.flatMap_cons]

theorem writeMembers_eq_flatMap (level : Nat) (members : List (String × Datum)) :
    writeMembers level members =
      members.flatMap fun member => ',' :: newline level ++ writeMember level member := by
  induction members with
  | nil => rw [writeMembers, List.flatMap_nil]
  | cons member members ih =>
      simp only [writeMembers, ih, List.flatMap_cons, writeMember, List.append_assoc]

/-- The lines of a list or table, the bracket that ends it on a line of its own. -/
theorem writesSeries_lines {α : Type} {Writes : α → List Char → Prop} {print : α → List Char}
    (level below : Nat) {element : α} {elements : List α}
    (h : ∀ element' ∈ element :: elements, Writes element' (print element')) :
    WritesSeries Writes (element :: elements)
      (newline level ++ print element ++
        elements.flatMap (fun element => ',' :: newline level ++ print element) ++
        newline below) := by
  induction elements generalizing element with
  | nil =>
      rw [List.flatMap_nil, List.append_nil]
      exact .last (isBlank_newline level) (h element List.mem_cons_self) (isBlank_newline below)
  | cons next elements ih =>
      obtain ⟨helement, hothers⟩ := List.forall_mem_cons.mp h
      have hmore := WritesSeries.more (isBlank_newline level) helement isBlank_nil
        (List.cons_ne_nil next elements) (ih hothers)
      simpa only [List.flatMap_cons, List.append_assoc, List.cons_append, List.nil_append]
        using hmore

theorem writesMember_writeMember {level : Nat} {member : String × Datum}
    (h : Writes member.2 (write level member.2)) :
    WritesMember Writes member (writeMember level member) := by
  have hspace : IsBlank [' '] := List.forall_mem_singleton.mpr rfl
  have hmember := WritesMember.intro (writesChars_flatMap member.1.toList) isBlank_nil hspace h
  rw [String.ofList_toList] at hmember
  simpa only [writeMember, writeText, List.append_assoc, List.cons_append, List.nil_append]
    using hmember

/-- The induction is on the value; items and members are one level further in. -/
theorem Fits.writes_write {Admits : Decimal → Prop} {depth : Nat} {datum : Datum}
    (h : Fits Admits depth datum) (level : Nat) : Writes datum (write level datum) := by
  induction h generalizing level with
  | null => exact .scalar .null
  | bool value =>
      cases value
      · exact .scalar .isFalse
      · exact .scalar .isTrue
  | number h _ =>
      have hnumber := WritesScalar.number h
      rw [String.ofList_toList] at hnumber
      exact .scalar hnumber
  | text value => exact .scalar (writesScalar_writeText value)
  | @list _ items _ ih =>
      cases items with
      | nil =>
          rw [write]
          exact .list (.blank isBlank_nil)
      | cons item items =>
          have hlines := writesSeries_lines (level + 1) level fun item hitem =>
            ih item hitem (level + 1)
          rw [write, writeItems_eq_flatMap]
          simpa only [List.append_assoc, List.cons_append] using Writes.list hlines
  | @table _ members _ ih =>
      cases members with
      | nil =>
          rw [write]
          exact .table (.blank isBlank_nil)
      | cons member members =>
          have hlines := writesSeries_lines (level + 1) level fun member hmember =>
            writesMember_writeMember (ih member hmember (level + 1))
          rw [write, writeMembers_eq_flatMap]
          simpa only [writeMember, List.append_assoc, List.cons_append, List.nil_append]
            using Writes.table hlines

end Metainfo.Json
