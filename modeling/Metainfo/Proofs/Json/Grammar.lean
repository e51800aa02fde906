import Mathlib.Data.List.TakeDrop
import Mathlib.Data.Option.Basic
import Metainfo.Data.Json.Parser

/-!
The grammar of JSON: which texts write which values. A text that writes a value writes no other one,
and it cannot be told to end earlier or later as long as no number is cut in two.
-/

namespace Metainfo.Json

open Metainfo.Decimal
open Metainfo.Digits

def IsBlank (text : List Char) : Prop :=
  ∀ char ∈ text, isSpace char = true

/-- The forms of a character between quotes: itself, unless it is a quote, a backslash or a control
character, a letter behind a backslash, or its number in four digits or in two halves. -/
inductive WritesChar : Char → List Char → Prop where
  | plain {char : Char} (hvisible : ' ' ≤ char) (hquote : char ≠ '"') (hbackslash : char ≠ '\\') :
      WritesChar char [char]
  | escape {char letter : Char} (h : simpleEscape? letter = some char) :
      WritesChar char ['\\', letter]
  | number {char a b c d : Char} {number : Nat} (hnumber : number? 16 [a, b, c, d] = some number)
      (hchar : char? number = some char) : WritesChar char ['\\', 'u', a, b, c, d]
  | halves {a b c d a' b' c' d' : Char} {high low : Nat}
      (hhigh : number? 16 [a, b, c, d] = some high) (hlow : number? 16 [a', b', c', d'] = some low)
      (hhalf : isHighHalf high = true) (hhalf' : isLowHalf low = true) :
      WritesChar (joinHalves high low) ['\\', 'u', a, b, c, d, '\\', 'u', a', b', c', d']

inductive WritesChars : List Char → List Char → Prop where
  | nil : WritesChars [] []
  | cons {char : Char} {chars written rest : List Char} (hchar : WritesChar char written)
      (hrest : WritesChars chars rest) : WritesChars (char :: chars) (written ++ rest)

def IsDigits (text : List Char) : Prop :=
  text ≠ [] ∧ ∀ char ∈ text, isDecimalDigit char = true

/-- What stands before the point of a number begins with zero only if it is zero. -/
def IsWhole (text : List Char) : Prop :=
  IsDigits text ∧ (text.head? = some '0' → text = ['0'])

inductive WritesFraction : Option (List Char) → List Char → Prop where
  | absent : WritesFraction none []
  | digits {text : List Char} (h : IsDigits text) : WritesFraction (some text) ('.' :: text)

inductive WritesSign : (negative : Bool) → List Char → Prop where
  | absent : WritesSign false []
  | plus : WritesSign false ['+']
  | minus : WritesSign true ['-']

inductive WritesExponent : Option (Bool × List Char) → List Char → Prop where
  | absent : WritesExponent none []
  | digits {mark : Char} {negative : Bool} {sign text : List Char} (hmark : mark = 'e' ∨ mark = 'E')
      (hsign : WritesSign negative sign) (h : IsDigits text) :
      WritesExponent (some (negative, text)) (mark :: sign ++ text)

inductive WritesDecimal : Decimal → List Char → Prop where
  | intro {whole fraction' exponent' : List Char} {fraction : Option (List Char)}
      {exponent : Option (Bool × List Char)} (hwhole : IsWhole whole)
      (hfraction : WritesFraction fraction fraction')
      (hexponent : WritesExponent exponent exponent') :
      WritesDecimal ⟨whole, fraction, exponent⟩ (whole ++ fraction' ++ exponent')

/-- The sign of a number can only be a minus; the decimal does not tell it. -/
inductive WritesNumber : Decimal → List Char → Prop where
  | plain {decimal : Decimal} {written : List Char} (h : WritesDecimal decimal written) :
      WritesNumber decimal written
  | minus {decimal : Decimal} {written : List Char} (h : WritesDecimal decimal written) :
      WritesNumber decimal ('-' :: written)

inductive WritesScalar : Datum → List Char → Prop where
  | null : WritesScalar .null "null".toList
  | isTrue : WritesScalar (.bool true) "true".toList
  | isFalse : WritesScalar (.bool false) "false".toList
  | number {decimal : Decimal} {literal : List Char} (h : WritesNumber decimal literal) :
      WritesScalar (.number (String.ofList literal)) literal
  | text {chars written : List Char} (h : WritesChars chars written) :
      WritesScalar (.text (String.ofList chars)) ('"' :: written ++ ['"'])

/-- Elements with commas between them and white space on both sides of each. White space alone
writes none. -/
inductive WritesSeries {α : Type} (Writes : α → List Char → Prop) : List α → List Char → Prop where
  | blank {space : List Char} (h : IsBlank space) : WritesSeries Writes [] space
  | last {element : α} {before written after : List Char} (hbefore : IsBlank before)
      (helement : Writes element written) (hafter : IsBlank after) :
      WritesSeries Writes [element] (before ++ written ++ after)
  | more {element : α} {elements : List α} {before written after others : List Char}
      (hbefore : IsBlank before) (helement : Writes element written) (hafter : IsBlank after)
      (hsome : elements ≠ []) (hothers : WritesSeries Writes elements others) :
      WritesSeries Writes (element :: elements) (before ++ written ++ after ++ ',' :: others)

inductive WritesMember (Writes : Datum → List Char → Prop) :
    String × Datum → List Char → Prop where
  | intro {name name' before after written : List Char} {value : Datum}
      (hname : WritesChars name name') (hbefore : IsBlank before) (hafter : IsBlank after)
      (hvalue : Writes value written) :
      WritesMember Writes (String.ofList name, value)
        ('"' :: name' ++ '"' :: before ++ ':' :: after ++ written)

/-- A text that writes a value and nothing else. -/
inductive Writes : Datum → List Char → Prop where
  | scalar {datum : Datum} {written : List Char} (h : WritesScalar datum written) :
      Writes datum written
  | list {items : List Datum} {written : List Char} (h : WritesSeries Writes items written) :
      Writes (.list items) ('[' :: written ++ [']'])
  | table {members : List (String × Datum)} {written : List Char}
      (h : WritesSeries (WritesMember Writes) members written) :
      Writes (.table members) ('{' :: written ++ ['}'])

/-- A whole text writes a value with white space around it. -/
def Denotes (text : List Char) (datum : Datum) : Prop :=
  ∃ before written after, IsBlank before ∧ Writes datum written ∧ IsBlank after ∧
    text = before ++ written ++ after

/-- Lists and tables are nested at most so deep, and all numbers are admitted ones. -/
inductive Fits (Admits : Decimal → Prop) : (depth : Nat) → Datum → Prop where
  | null {depth : Nat} : Fits Admits depth .null
  | bool {depth : Nat} (value : Bool) : Fits Admits depth (.bool value)
  | number {depth : Nat} {decimal : Decimal} {literal : String}
      (h : WritesNumber decimal literal.toList) (hadmits : Admits decimal) :
      Fits Admits depth (.number literal)
  | text {depth : Nat} (value : String) : Fits Admits depth (.text value)
  | list {depth : Nat} {items : List Datum} (h : ∀ item ∈ items, Fits Admits depth item) :
      Fits Admits (depth + 1) (.list items)
  | table {depth : Nat} {members : List (String × Datum)}
      (h : ∀ member ∈ members, Fits Admits depth member.2) :
      Fits Admits (depth + 1) (.table members)

/-- What holds of scalars and goes over from the values in a list or table to the whole holds of all
values. -/
@[elab_as_elim]
theorem Writes.induct {motive : Datum → List Char → Prop}
    (scalar : ∀ {datum written}, WritesScalar datum written → motive datum written)
    (list : ∀ {items written},
      WritesSeries (fun datum written => Writes datum written ∧ motive datum written)
        items written →
      motive (.list items) ('[' :: written ++ [']']))
    (table : ∀ {members written},
      WritesSeries (WritesMember fun datum written => Writes datum written ∧ motive datum written)
        members written →
      motive (.table members) ('{' :: written ++ ['}']))
    {datum : Datum} {written : List Char} (h : Writes datum written) : motive datum written := by
  let Known (datum : Datum) (written : List Char) : Prop :=
    Writes datum written ∧ motive datum written
  refine @Writes.rec (fun datum written _ => motive datum written)
    (fun items written _ => WritesSeries Known items written)
    (fun members written _ => WritesSeries (WritesMember Known) members written)
    (fun member written _ => WritesMember Known member written)
    scalar (fun _ h => list h) (fun _ h => table h) .blank ?_ ?_ .blank ?_ ?_ ?_ _ _ h
  · intro item before written after hbefore hitem hafter hknown
    exact .last hbefore ⟨hitem, hknown⟩ hafter
  · intro item items before written after others hbefore hitem hafter hsome _ hknown hothers
    exact .more hbefore ⟨hitem, hknown⟩ hafter hsome hothers
  · intro member before written after hbefore _ hafter hknown
    exact .last hbefore hknown hafter
  · intro member members before written after others hbefore _ hafter hsome _ hknown hothers
    exact .more hbefore hknown hafter hsome hothers
  · intro name name' before after written value hname hbefore hafter hvalue hknown
    exact .intro hname hbefore hafter ⟨hvalue, hknown⟩

/-! What comes first in a text that writes something, and what may follow it. -/

/-- The marks that stand behind a value. -/
def marks : List Char := [',', ']', '}']

/-- Neither white space nor a mark comes first. -/
def Opens (written : List Char) : Prop :=
  ∃ first rest, written = first :: rest ∧ isSpace first = false ∧ first ∉ marks

/-- The characters of numbers. -/
def isNumeric (char : Char) : Bool :=
  isDecimalDigit char || char = '+' || char = '-' || char = '.' || char = 'e' || char = 'E'

/-- Nothing follows that could go on with a number. -/
def Ends (rest : List Char) : Prop :=
  ∀ char ∈ rest.head?, isNumeric char = false

theorem IsDigits.exists_cons {text : List Char} (h : IsDigits text) :
    ∃ first rest, text = first :: rest ∧ isDecimalDigit first = true := by
  obtain ⟨first, rest, rfl⟩ := List.exists_cons_of_ne_nil h.1
  exact ⟨first, rest, rfl, h.2 first List.mem_cons_self⟩

theorem WritesDecimal.exists_cons {decimal : Decimal} {written : List Char}
    (h : WritesDecimal decimal written) :
    ∃ first rest, written = first :: rest ∧ isDecimalDigit first = true := by
  obtain ⟨hwhole, -, -⟩ := h
  obtain ⟨first, rest, rfl, hfirst⟩ := hwhole.1.exists_cons
  exact ⟨first, _, rfl, hfirst⟩

/-- A number begins with a minus or a digit. -/
theorem WritesNumber.exists_cons {decimal : Decimal} {literal : List Char}
    (h : WritesNumber decimal literal) :
    ∃ first rest, literal = first :: rest ∧ (first = '-' ∨ isDecimalDigit first = true) := by
  cases h with
  | plain h =>
      obtain ⟨first, rest, rfl, hfirst⟩ := h.exists_cons
      exact ⟨first, rest, rfl, .inr hfirst⟩
  | minus h => exact ⟨'-', _, rfl, .inl rfl⟩

theorem IsDigits.isNumeric {text : List Char} (h : IsDigits text) :
    ∀ char ∈ text, isNumeric char = true := by
  intro char hchar
  rw [Json.isNumeric, h.2 char hchar]
  simp

theorem WritesDecimal.isNumeric {decimal : Decimal} {written : List Char}
    (h : WritesDecimal decimal written) : ∀ char ∈ written, isNumeric char = true := by
  obtain ⟨hwhole, hfraction, hexponent⟩ := h
  simp only [List.forall_mem_append]
  refine ⟨⟨hwhole.1.isNumeric, ?_⟩, ?_⟩
  · cases hfraction with
    | absent => simp
    | digits h => exact List.forall_mem_cons.mpr ⟨by decide, h.isNumeric⟩
  · cases hexponent with
    | absent => simp
    | digits hmark hsign h =>
        rw [List.cons_append, List.forall_mem_cons, List.forall_mem_append]
        refine ⟨?_, ?_, h.isNumeric⟩
        · rcases hmark with rfl | rfl <;> decide
        · cases hsign <;> simp [Json.isNumeric]

theorem WritesNumber.isNumeric {decimal : Decimal} {literal : List Char}
    (h : WritesNumber decimal literal) : ∀ char ∈ literal, isNumeric char = true := by
  cases h with
  | plain h => exact h.isNumeric
  | minus h => exact List.forall_mem_cons.mpr ⟨by decide, h.isNumeric⟩

theorem WritesScalar.exists_cons {datum : Datum} {written : List Char}
    (h : WritesScalar datum written) :
    ∃ first rest, written = first :: rest ∧
      (first ∈ ['n', 't', 'f', '"', '-'] ∨ isDecimalDigit first = true) := by
  cases h with
  | null => exact ⟨_, _, rfl, .inl (by decide)⟩
  | isTrue => exact ⟨_, _, rfl, .inl (by decide)⟩
  | isFalse => exact ⟨_, _, rfl, .inl (by decide)⟩
  | text => exact ⟨_, _, rfl, .inl (by decide)⟩
  | number h =>
      obtain ⟨first, rest, rfl, rfl | hfirst⟩ := h.exists_cons
      · exact ⟨_, _, rfl, .inl (by decide)⟩
      · exact ⟨_, _, rfl, .inr hfirst⟩

theorem Writes.opens {datum : Datum} {written : List Char} (h : Writes datum written) :
    Opens written := by
  cases h with
  | list => exact ⟨_, _, rfl, by decide, by decide⟩
  | table => exact ⟨_, _, rfl, by decide, by decide⟩
  | scalar h =>
      obtain ⟨first, rest, rfl, hfirst | hdigit⟩ := h.exists_cons
      · refine ⟨first, rest, rfl, ?_⟩
        simp only [List.mem_cons, List.not_mem_nil, or_false] at hfirst
        obtain rfl | rfl | rfl | rfl | rfl := hfirst <;> decide
      · refine ⟨first, rest, rfl, Bool.eq_false_iff.mpr fun hspace => ?_, fun hmark => ?_⟩
        · simp only [isSpace, Bool.or_eq_true, decide_eq_true_eq] at hspace
          obtain ((rfl | rfl) | rfl) | rfl := hspace <;> contradiction
        · simp only [marks, List.mem_cons, List.not_mem_nil, or_false] at hmark
          obtain rfl | rfl | rfl := hmark <;> contradiction

theorem WritesMember.opens {Writes : Datum → List Char → Prop} {member : String × Datum}
    {written : List Char} (h : WritesMember Writes member written) : Opens written := by
  cases h
  exact ⟨_, _, rfl, by decide, by decide⟩

/-! Texts in quotes are read up to the quote that ends them. -/

/-- The number of a character is no half of one. -/
theorem isHighHalf_of_char? {number : Nat} {char : Char} (h : char? number = some char) :
    isHighHalf number = false := by
  rw [char?] at h
  split at h
  · rename_i hvalid
    rw [Nat.isValidChar] at hvalid
    rw [isHighHalf, Bool.and_eq_false_iff, decide_eq_false_iff_not, decide_eq_false_iff_not]
    omega
  · contradiction

theorem WritesChar.readText_append {char : Char} {written : List Char} (h : WritesChar char written)
    (rest : List Char) :
    readText none (written ++ rest) =
      (readText none rest).map fun (text, rest) => (char :: text, rest) := by
  cases h with
  | plain hvisible hquote hbackslash =>
      rw [List.singleton_append, readText.eq_4 _ _ _ (fun _ _ _ _ _ h => absurd h hbackslash)
        (fun _ _ h => absurd h hbackslash) hquote]
      have hguard : (guard ((none : Option Nat).isNone && ' ' ≤ char) : Option Unit) = some () :=
        (Option.guard_eq_some' ()).mpr (decide_eq_true hvisible)
      rw [hguard]
      cases readText none rest <;> rfl
  | escape h =>
      rename_i letter
      have hletter : ∀ (a b c d : Char) (others : List Char),
          letter = 'u' → rest = a :: b :: c :: d :: others → False := by
        rintro a b c d others rfl
        contradiction
      rw [List.cons_append, List.singleton_append, readText.eq_2 _ _ _ hletter, h]
      cases readText none rest <;> rfl
  | number hnumber hchar =>
      have hwhole := isHighHalf_of_char? hchar
      simp only [List.cons_append, List.nil_append, readText.eq_1, hnumber, Option.bind_eq_bind,
        Option.bind_some, hwhole, Bool.false_eq_true, if_false, hchar]
      cases readText none rest <;> rfl
  | halves hhigh hlow hhalf hhalf' =>
      simp only [List.cons_append, List.nil_append, readText.eq_1, hhigh, hlow,
        Option.bind_eq_bind, Option.bind_some, hhalf, hhalf', if_true]
      cases readText none rest <;> rfl

theorem WritesChars.readText_quote {chars written : List Char} (h : WritesChars chars written)
    (rest : List Char) : readText none (written ++ '"' :: rest) = some (chars, rest) := by
  induction h with
  | nil => rfl
  | cons hchar _ ih => rw [List.append_assoc, hchar.readText_append, ih, Option.map_some]

/-! A text at the front of another one writes one value only. -/

/-- A front of which all characters are of a class ends where the first other character stands. -/
theorem span_front {isMember : Char → Bool} {front rest : List Char}
    (hfront : ∀ char ∈ front, isMember char = true)
    (hrest : ∀ char ∈ rest.head?, isMember char = false) :
    (front ++ rest).span isMember = (front, rest) := by
  rw [List.span_eq_takeWhile_dropWhile, List.takeWhile_append_of_pos hfront,
    List.dropWhile_append_of_pos hfront]
  cases rest with
  | nil => simp
  | cons char rest => simp [hrest char rfl]

theorem front_unique {isMember : Char → Bool} {front rest front' rest' : List Char}
    (hfront : ∀ char ∈ front, isMember char = true)
    (hfront' : ∀ char ∈ front', isMember char = true)
    (hrest : ∀ char ∈ rest.head?, isMember char = false)
    (hrest' : ∀ char ∈ rest'.head?, isMember char = false)
    (h : front ++ rest = front' ++ rest') : front = front' ∧ rest = rest' := by
  have hspan := span_front hfront hrest
  rw [h, span_front hfront' hrest'] at hspan
  obtain ⟨rfl, rfl⟩ := Prod.mk.inj hspan
  exact ⟨rfl, rfl⟩

/-- Where a text begins that writes the value, any text that begins there and writes some value
writes the same one and ends in the same place, unless a number goes on behind one of them. -/
def IsSole {α : Type} (Writes : α → List Char → Prop) (value : α) (written : List Char) : Prop :=
  ∀ ⦃other : α⦄ ⦃written' rest rest' : List Char⦄, Writes other written' → Ends rest →
    Ends rest' → written ++ rest = written' ++ rest' → value = other ∧ written = written'

theorem WritesNumber.append_ne {decimal : Decimal} {literal : List Char}
    (h : WritesNumber decimal literal) {first : Char} (hminus : first ≠ '-')
    (hdigit : isDecimalDigit first = false) (rest others : List Char) :
    literal ++ rest ≠ first :: others := by
  obtain ⟨first', rest', rfl, hfirst⟩ := h.exists_cons
  rintro hsame
  obtain rfl := (List.cons.inj hsame).1
  rcases hfirst with hfirst | hfirst
  · exact hminus hfirst
  · exact Bool.false_ne_true (hdigit.symm.trans hfirst)

theorem WritesChars.unique {chars written rest chars' written' rest' : List Char}
    (h : WritesChars chars written) (h' : WritesChars chars' written')
    (hsame : written ++ '"' :: rest = written' ++ '"' :: rest') :
    chars = chars' ∧ written = written' ∧ rest = rest' := by
  have hread := h.readText_quote rest
  rw [hsame, h'.readText_quote] at hread
  obtain ⟨rfl, rfl⟩ := Prod.mk.inj (Option.some.inj hread)
  exact ⟨rfl, List.append_cancel_right hsame, rfl⟩

theorem WritesScalar.isSole {datum : Datum} {written : List Char} (h : WritesScalar datum written) :
    IsSole WritesScalar datum written := by
  intro other written' rest rest' hother hrest hrest' hsame
  cases h with
  | null =>
      cases hother with
      | null => exact ⟨rfl, rfl⟩
      | number h' => exact absurd hsame.symm (h'.append_ne (by decide) (by decide) _ _)
      | isTrue | isFalse | text => simp at hsame
  | isTrue =>
      cases hother with
      | isTrue => exact ⟨rfl, rfl⟩
      | number h' => exact absurd hsame.symm (h'.append_ne (by decide) (by decide) _ _)
      | null | isFalse | text => simp at hsame
  | isFalse =>
      cases hother with
      | isFalse => exact ⟨rfl, rfl⟩
      | number h' => exact absurd hsame.symm (h'.append_ne (by decide) (by decide) _ _)
      | null | isTrue | text => simp at hsame
  | number h =>
      cases hother with
      | number h' =>
          obtain ⟨rfl, -⟩ := front_unique h.isNumeric h'.isNumeric hrest hrest' hsame
          exact ⟨rfl, rfl⟩
      | null | isTrue | isFalse | text =>
          exact absurd hsame (h.append_ne (by decide) (by decide) _ _)
  | text h =>
      cases hother with
      | text h' =>
          simp only [List.cons_append, List.append_assoc, List.nil_append, List.cons.injEq,
            true_and] at hsame
          obtain ⟨rfl, rfl, -⟩ := h.unique h' hsame
          exact ⟨rfl, rfl⟩
      | number h' => exact absurd hsame.symm (h'.append_ne (by decide) (by decide) _ _)
      | null | isTrue | isFalse => simp at hsame

theorem isNumeric_of_isSpace {char : Char} (h : isSpace char = true) : isNumeric char = false := by
  simp only [isSpace, Bool.or_eq_true, decide_eq_true_eq] at h
  obtain ((rfl | rfl) | rfl) | rfl := h <;> decide

theorem mem_marks_of_close {close : Char} (h : close = ']' ∨ close = '}') :
    close ∈ marks ∧ close ≠ ',' := by
  rcases h with rfl | rfl <;> decide

/-- A mark is neither white space nor part of a number. -/
theorem apart_of_mem_marks {mark : Char} (h : mark ∈ marks) :
    isSpace mark = false ∧ isNumeric mark = false := by
  simp only [marks, List.mem_cons, List.not_mem_nil, or_false] at h
  obtain rfl | rfl | rfl := h <;> decide

theorem ends_append {after tail : List Char} (hafter : IsBlank after)
    (htail : Ends tail) : Ends (after ++ tail) := by
  cases after with
  | nil => exact htail
  | cons char rest =>
      rintro _ ⟨⟩
      exact isNumeric_of_isSpace (hafter char List.mem_cons_self)

theorem ends_of_isBlank {after : List Char} (h : IsBlank after) : Ends after := by
  rw [← List.append_nil after]
  exact ends_append h nofun

theorem ends_mark {mark : Char} (h : mark ∈ marks) (tail : List Char) : Ends (mark :: tail) := by
  rintro _ ⟨⟩
  exact (apart_of_mem_marks h).2

theorem Opens.head?_append {written : List Char} (h : Opens written) (rest : List Char) :
    ∀ char ∈ (written ++ rest).head?, isSpace char = false := by
  obtain ⟨first, others, rfl, hspace, -⟩ := h
  rintro _ ⟨⟩
  exact hspace

theorem head?_mark {mark : Char} (h : mark ∈ marks) (tail : List Char) :
    ∀ char ∈ (mark :: tail).head?, isSpace char = false := by
  rintro _ ⟨⟩
  exact (apart_of_mem_marks h).1

/-- White space, an element, white space and a mark are told apart in one way. -/
theorem IsSole.padded {α : Type} {Writes : α → List Char → Prop} {element element' : α}
    {before written after tail before' written' after' tail' : List Char} {mark mark' : Char}
    (hsole : IsSole Writes element written) (helement' : Writes element' written')
    (hopens : Opens written) (hopens' : Opens written') (hbefore : IsBlank before)
    (hbefore' : IsBlank before') (hafter : IsBlank after) (hafter' : IsBlank after')
    (hmark : mark ∈ marks) (hmark' : mark' ∈ marks)
    (hsame : before ++ written ++ after ++ mark :: tail =
      before' ++ written' ++ after' ++ mark' :: tail') :
    before = before' ∧ element = element' ∧ written = written' ∧ after = after' ∧
      mark = mark' ∧ tail = tail' := by
  simp only [List.append_assoc] at hsame
  obtain ⟨rfl, hinner⟩ := front_unique hbefore hbefore' (hopens.head?_append _)
    (hopens'.head?_append _) hsame
  obtain ⟨rfl, rfl⟩ := hsole helement' (ends_append hafter (ends_mark hmark tail))
    (ends_append hafter' (ends_mark hmark' tail')) hinner
  obtain ⟨rfl, hbehind⟩ := front_unique hafter hafter' (head?_mark hmark tail)
    (head?_mark hmark' tail') (List.append_cancel_left hinner)
  obtain ⟨rfl, rfl⟩ := List.cons.inj hbehind
  exact ⟨rfl, rfl, rfl, rfl, rfl, rfl⟩

/-- White space with a mark behind it holds no element. -/
theorem blank_ne_padded {space before written rest tail : List Char} {mark : Char}
    (hspace : IsBlank space) (hbefore : IsBlank before) (hopens : Opens written)
    (hmark : mark ∈ marks) : space ++ mark :: rest ≠ before ++ (written ++ tail) := by
  intro hsame
  obtain ⟨-, hinner⟩ := front_unique hspace hbefore (head?_mark hmark rest)
    (hopens.head?_append tail) hsame
  obtain ⟨first, others, rfl, -, hfirst⟩ := hopens
  exact hfirst ((List.cons.inj hinner).1 ▸ hmark)

/-- A series is told apart in one way up to the bracket that ends it. -/
theorem WritesSeries.unique {α : Type} {Writes : α → List Char → Prop}
    (hopens : ∀ {element written}, Writes element written → Opens written)
    {elements others : List α} {written written' rest rest' : List Char} {close : Char}
    (hclose : close = ']' ∨ close = '}')
    (h : WritesSeries
      (fun element written => Writes element written ∧ IsSole Writes element written)
      elements written)
    (h' : WritesSeries Writes others written')
    (hsame : written ++ close :: rest = written' ++ close :: rest') :
    elements = others ∧ written = written' := by
  obtain ⟨hmark, hcomma⟩ := mem_marks_of_close hclose
  have hcommaMark : ',' ∈ marks := by decide
  induction h generalizing others written' with
  | blank hspace =>
      cases h' with
      | blank hspace' =>
          exact ⟨rfl, (front_unique hspace hspace' (head?_mark hmark rest) (head?_mark hmark rest')
            hsame).1⟩
      | last hbefore helement hafter =>
          simp only [List.append_assoc] at hsame
          exact absurd hsame (blank_ne_padded hspace hbefore (hopens helement) hmark)
      | more hbefore helement hafter hsome hothers =>
          simp only [List.append_assoc] at hsame
          exact absurd hsame (blank_ne_padded hspace hbefore (hopens helement) hmark)
  | last hbefore helement hafter =>
      cases h' with
      | blank hspace' =>
          simp only [List.append_assoc] at hsame
          exact absurd hsame.symm (blank_ne_padded hspace' hbefore (hopens helement.1) hmark)
      | last hbefore' helement' hafter' =>
          obtain ⟨rfl, rfl, rfl, rfl, -⟩ := helement.2.padded helement' (hopens helement.1)
            (hopens helement') hbefore hbefore' hafter hafter' hmark hmark hsame
          exact ⟨rfl, rfl⟩
      | more hbefore' helement' hafter' hsome hothers =>
          rw [List.append_assoc _ (',' :: _), List.cons_append] at hsame
          obtain ⟨-, -, -, -, rfl, -⟩ := helement.2.padded helement' (hopens helement.1)
            (hopens helement') hbefore hbefore' hafter hafter' hmark hcommaMark hsame
          exact absurd rfl hcomma
  | more hbefore helement hafter hsome hothers ih =>
      cases h' with
      | blank hspace' =>
          simp only [List.append_assoc] at hsame
          exact absurd hsame.symm (blank_ne_padded hspace' hbefore (hopens helement.1) hmark)
      | last hbefore' helement' hafter' =>
          rw [List.append_assoc _ (',' :: _), List.cons_append] at hsame
          obtain ⟨-, -, -, -, hcomma', -⟩ := helement.2.padded helement' (hopens helement.1)
            (hopens helement') hbefore hbefore' hafter hafter' hcommaMark hmark hsame
          exact absurd hcomma'.symm hcomma
      | more hbefore' helement' hafter' hsome' hothers' =>
          rw [List.append_assoc _ (',' :: _), List.cons_append, List.append_assoc _ (',' :: _),
            List.cons_append] at hsame
          obtain ⟨rfl, rfl, rfl, rfl, -, hrest⟩ := helement.2.padded helement' (hopens helement.1)
            (hopens helement') hbefore hbefore' hafter hafter' hcommaMark hcommaMark hsame
          obtain ⟨rfl, rfl⟩ := ih hothers' hrest
          exact ⟨rfl, rfl⟩

theorem WritesMember.isSole {member : String × Datum} {written : List Char}
    (h : WritesMember (fun datum written => Writes datum written ∧ IsSole Writes datum written)
      member written) :
    IsSole (WritesMember Writes) member written := by
  intro other written' rest rest' hother hrest hrest' hsame
  obtain ⟨hname, hbefore, hafter, hvalue, hsole⟩ := h
  obtain ⟨hname', hbefore', hafter', hvalue'⟩ := hother
  simp only [List.cons_append, List.append_assoc, List.cons.injEq, true_and] at hsame
  obtain ⟨rfl, rfl, hbehind⟩ := hname.unique hname' hsame
  have hcolon (rest : List Char) : ∀ char ∈ (':' :: rest).head?, isSpace char = false := by
    rintro _ ⟨⟩
    decide
  obtain ⟨rfl, hinner⟩ := front_unique hbefore hbefore' (hcolon _) (hcolon _) hbehind
  obtain ⟨rfl, hlast⟩ := front_unique hafter hafter' (hvalue.opens.head?_append _)
    (hvalue'.opens.head?_append _) (List.cons.inj hinner).2
  obtain ⟨rfl, rfl⟩ := hsole hvalue' hrest hrest' hlast
  exact ⟨rfl, rfl⟩

theorem WritesSeries.mono {α : Type} {Writes Writes' : α → List Char → Prop} {elements : List α}
    (hmono : ∀ element ∈ elements, ∀ written, Writes element written → Writes' element written)
    {written : List Char} (h : WritesSeries Writes elements written) :
    WritesSeries Writes' elements written := by
  induction h with
  | blank hspace => exact .blank hspace
  | last hbefore helement hafter =>
      exact .last hbefore (hmono _ List.mem_cons_self _ helement) hafter
  | more hbefore helement hafter hsome _ ih =>
      obtain ⟨hfirst, hothers⟩ := List.forall_mem_cons.mp hmono
      exact .more hbefore (hfirst _ helement) hafter hsome (ih hothers)

theorem WritesMember.mono {Writes Writes' : Datum → List Char → Prop} {member : String × Datum}
    (hmono : ∀ written, Writes member.2 written → Writes' member.2 written) {written : List Char}
    (h : WritesMember Writes member written) : WritesMember Writes' member written := by
  obtain ⟨hname, hbefore, hafter, hvalue⟩ := h
  exact .intro hname hbefore hafter (hmono _ hvalue)

theorem WritesScalar.append_ne {datum : Datum} {written : List Char}
    (h : WritesScalar datum written) {bracket : Char} (hbracket : bracket = '[' ∨ bracket = '{') (rest others : List Char) :
    written ++ rest ≠ bracket :: others := by
  obtain ⟨first, rest', rfl, hfirst⟩ := h.exists_cons
  rintro hsame
  obtain rfl := (List.cons.inj hsame).1
  obtain rfl | rfl := hbracket <;> revert hfirst <;> decide

/-- The induction is on the value: what a list or table holds ends where it seems to, and so does
the whole. -/
theorem Writes.isSole {datum : Datum} {written : List Char} (h : Writes datum written) :
    IsSole Writes datum written := by
  refine Writes.induct ?scalar ?list ?table h
  case scalar =>
      intro datum written h other written' rest rest' hother hrest hrest' hsame
      cases hother with
      | scalar h' => exact h.isSole h' hrest hrest' hsame
      | list => exact absurd hsame (h.append_ne (.inl rfl) _ _)
      | table => exact absurd hsame (h.append_ne (.inr rfl) _ _)
  case list =>
      intro items written h other written' rest rest' hother hrest hrest' hsame
      cases hother with
      | scalar h' => exact absurd hsame.symm (h'.append_ne (.inl rfl) _ _)
      | list h' =>
          simp only [List.cons_append, List.append_assoc, List.nil_append, List.cons.injEq,
            true_and] at hsame
          obtain ⟨rfl, rfl⟩ := h.unique Writes.opens (.inl rfl) h' hsame
          exact ⟨rfl, rfl⟩
      | table => simp at hsame
  case table =>
      intro members written h other written' rest rest' hother hrest hrest' hsame
      have hmembers := h.mono fun _ _ _ hmember =>
        And.intro (hmember.mono fun _ => And.left) hmember.isSole
      cases hother with
      | scalar h' => exact absurd hsame.symm (h'.append_ne (.inr rfl) _ _)
      | list => simp at hsame
      | table h' =>
          simp only [List.cons_append, List.append_assoc, List.nil_append, List.cons.injEq,
            true_and] at hsame
          obtain ⟨rfl, rfl⟩ := hmembers.unique WritesMember.opens (.inr rfl) h' hsame
          exact ⟨rfl, rfl⟩

/-- A text denotes one value at most. -/
theorem Denotes.unique {text : List Char} {datum other : Datum} (h : Denotes text datum)
    (h' : Denotes text other) : datum = other := by
  obtain ⟨before, written, after, hbefore, hdatum, hafter, rfl⟩ := h
  obtain ⟨before', written', after', hbefore', hother, hafter', hsame⟩ := h'
  simp only [List.append_assoc] at hsame
  obtain ⟨-, hinner⟩ := front_unique hbefore hbefore' (hdatum.opens.head?_append _)
    (hother.opens.head?_append _) hsame
  exact (hdatum.isSole hother (ends_of_isBlank hafter) (ends_of_isBlank hafter') hinner).1

end Metainfo.Json
