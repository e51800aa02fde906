import Mathlib.Data.List.TakeWhile
import Metainfo.Proofs.Json.Grammar
import Metainfo.Proofs.Text.Digits

/-!
The reader of numbers takes what the grammar calls a number, as far as it goes, and refuses it only
if it is out of range.
-/

namespace Metainfo.Json

open Metainfo.Decimal
open Metainfo.Digits

def unsigned : List Char → List Char
  | '-' :: rest => rest
  | text => text

theorem readNumber_eq (text : List Char) :
    readNumber text =
      match Decimal.scan (unsigned text) with
      | (decimal, rest) =>
          if decimal.isTight && decimal.fraction != some [] && isInRange decimal then
            some (.number (String.ofList (text.take (text.length - rest.length))), rest)
          else none :=
  rfl

def scanFraction : List Char → Option (List Char) × List Char
  | '.' :: rest =>
      let (fraction, rest) := rest.span isDecimalDigit
      (some fraction, rest)
  | rest => (none, rest)

theorem scan_eq (text : List Char) :
    Decimal.scan text =
      let (whole, rest) := text.span isDecimalDigit
      let (fraction, rest) := scanFraction rest
      let (exponent, rest) := scanExponent rest
      (⟨whole, fraction, exponent⟩, rest) :=
  rfl

/-! What is scanned has the form of a number. -/

theorem exists_span {isMember : Char → Bool} {text front rest : List Char}
    (h : text.span isMember = (front, rest)) :
    text = front ++ rest ∧ ∀ char ∈ front, isMember char = true := by
  rw [List.span_eq_takeWhile_dropWhile] at h
  obtain ⟨rfl, rfl⟩ := Prod.mk.inj h
  exact ⟨(List.takeWhile_append_dropWhile).symm, fun char => List.mem_takeWhile_imp⟩

theorem writes_of_scanFraction {text rest : List Char} {fraction : Option (List Char)}
    (h : scanFraction text = (fraction, rest)) (hsome : fraction ≠ some []) :
    ∃ written, text = written ++ rest ∧ WritesFraction fraction written := by
  rw [scanFraction.eq_def] at h
  split at h
  · rename_i others
    cases hspan : others.span isDecimalDigit with
    | mk digits left =>
        rw [hspan] at h
        obtain ⟨rfl, rfl⟩ := Prod.mk.inj h
        obtain ⟨rfl, hdigits⟩ := exists_span hspan
        exact ⟨'.' :: digits, rfl, .digits ⟨fun hnone => hsome (congrArg some hnone), hdigits⟩⟩
  · obtain ⟨rfl, rfl⟩ := Prod.mk.inj h
    exact ⟨[], rfl, .absent⟩

theorem writes_splitSign (text : List Char) :
    ∃ sign, text = sign ++ (splitSign text).2 ∧ WritesSign (splitSign text).1 sign := by
  rw [splitSign.eq_def]
  split
  · exact ⟨['-'], rfl, .minus⟩
  · exact ⟨['+'], rfl, .plus⟩
  · exact ⟨[], rfl, .absent⟩

theorem writes_scanExponent (text : List Char) :
    ∃ written, text = written ++ (scanExponent text).2 ∧
      WritesExponent (scanExponent text).1 written := by
  have habsent : ∃ written, text = written ++ text ∧ WritesExponent none written :=
    ⟨[], rfl, .absent⟩
  cases text with
  | nil => exact habsent
  | cons mark rest =>
      rw [scanExponent]
      split
      · rename_i hmark
        rw [Bool.or_eq_true, decide_eq_true_eq, decide_eq_true_eq] at hmark
        obtain ⟨sign, hsigned, hsign⟩ := writes_splitSign rest
        dsimp only
        cases hspan : (splitSign rest).2.span isDecimalDigit with
        | mk digits left =>
            cases digits with
            | nil => exact habsent
            | cons digit digits =>
                obtain ⟨hparts, hdigits⟩ := exists_span hspan
                refine ⟨mark :: sign ++ digit :: digits, ?_,
                  .digits hmark hsign ⟨List.cons_ne_nil _ _, hdigits⟩⟩
                rw [List.cons_append, List.cons_append, List.append_assoc, ← hparts, ← hsigned]
      · exact habsent

theorem isWhole_of_isTight {decimal : Decimal} (htight : decimal.isTight = true)
    (hdigits : ∀ char ∈ decimal.whole, isDecimalDigit char = true) : IsWhole decimal.whole := by
  rw [isTight.eq_def] at htight
  split at htight
  · rename_i hzero
    rw [hzero] at hdigits ⊢
    exact ⟨⟨List.cons_ne_nil _ _, hdigits⟩, fun _ => rfl⟩
  · contradiction
  · contradiction
  · rename_i hnonzero hsome
    refine ⟨⟨hsome, hdigits⟩, fun hhead => ?_⟩
    obtain ⟨rest, hwhole⟩ := List.head?_eq_some_iff.mp hhead
    exact absurd hwhole (hnonzero rest)

theorem writes_of_scan {text rest : List Char} {decimal : Decimal}
    (h : Decimal.scan text = (decimal, rest)) (htight : decimal.isTight = true)
    (hsome : decimal.fraction ≠ some []) :
    ∃ written, text = written ++ rest ∧ WritesDecimal decimal written := by
  rw [scan_eq] at h
  cases hwhole : text.span isDecimalDigit with
  | mk whole behind =>
      cases hfraction : scanFraction behind with
      | mk fraction behind' =>
          simp only [hwhole, hfraction] at h
          obtain ⟨rfl, rfl⟩ := Prod.mk.inj h
          obtain ⟨rfl, hdigits⟩ := exists_span hwhole
          obtain ⟨written, rfl, hwritten⟩ := writes_of_scanFraction hfraction hsome
          obtain ⟨written', hparts, hwritten'⟩ := writes_scanExponent behind'
          refine ⟨whole ++ written ++ written', ?_,
            .intro (isWhole_of_isTight htight hdigits) hwritten hwritten'⟩
          rw [List.append_assoc, List.append_assoc, ← hparts]

theorem writes_of_unsigned {text written rest : List Char} {decimal : Decimal}
    (h : unsigned text = written ++ rest) (hwritten : WritesDecimal decimal written) :
    ∃ literal, text = literal ++ rest ∧ WritesNumber decimal literal := by
  rw [unsigned.eq_def] at h
  split at h
  · exact ⟨'-' :: written, congrArg ('-' :: ·) h, .minus hwritten⟩
  · exact ⟨written, h, .plain hwritten⟩

theorem writes_of_readNumber {text rest : List Char} {datum : Datum}
    (h : readNumber text = some (datum, rest)) :
    ∃ decimal literal, text = literal ++ rest ∧ datum = .number (String.ofList literal) ∧
      WritesNumber decimal literal ∧ isInRange decimal = true := by
  rw [readNumber_eq] at h
  cases hscan : Decimal.scan (unsigned text) with
  | mk decimal behind =>
      rw [hscan] at h
      dsimp only at h
      split at h
      · rename_i hfits
        rw [Bool.and_eq_true, Bool.and_eq_true, bne_iff_ne] at hfits
        obtain ⟨⟨htight, hsome⟩, hrange⟩ := hfits
        obtain ⟨written, hparts, hwritten⟩ := writes_of_scan hscan htight hsome
        obtain ⟨literal, rfl, hliteral⟩ := writes_of_unsigned hparts hwritten
        obtain ⟨rfl, rfl⟩ := Prod.mk.inj (Option.some.inj h)
        refine ⟨decimal, literal, rfl, ?_, hliteral, hrange⟩
        rw [List.length_append, Nat.add_sub_cancel, List.take_left]
      · contradiction

/-! What has the form of a number is scanned to its end. -/

theorem scanFraction_append {fraction : Option (List Char)} {written : List Char}
    (h : WritesFraction fraction written) {rest : List Char}
    (hrest : ∀ char ∈ rest.head?, isDecimalDigit char = false ∧ char ≠ '.') :
    scanFraction (written ++ rest) = (fraction, rest) := by
  cases h with
  | absent =>
      rw [List.nil_append, scanFraction.eq_def]
      split
      · exact absurd rfl (hrest '.' rfl).2
      · rfl
  | digits h =>
      rw [List.cons_append, scanFraction, span_front h.2 fun char hchar => (hrest char hchar).1]

theorem splitSign_append {negative : Bool} {sign : List Char} (h : WritesSign negative sign)
    {text : List Char} (htext : IsDigits text) (rest : List Char) :
    splitSign (sign ++ (text ++ rest)) = (negative, text ++ rest) := by
  cases h with
  | absent =>
      obtain ⟨first, others, rfl, hfirst⟩ := htext.exists_cons
      rw [List.nil_append, List.cons_append, splitSign]
      · rintro _ hsame
        exact absurd ((List.cons.inj hsame).1 ▸ hfirst) (by decide)
      · rintro _ hsame
        exact absurd ((List.cons.inj hsame).1 ▸ hfirst) (by decide)
  | plus => rfl
  | minus => rfl

theorem Ends.head?_apart {rest : List Char} (h : Ends rest) :
    ∀ char ∈ rest.head?, isDecimalDigit char = false ∧ char ≠ '.' := by
  intro char hchar
  have hnumeric := h char hchar
  simp only [isNumeric, Bool.or_eq_false_iff, decide_eq_false_iff_not] at hnumeric
  exact ⟨hnumeric.1.1.1.1.1, hnumeric.1.1.2⟩

theorem scanExponent_append {exponent : Option (Bool × List Char)} {written : List Char}
    (h : WritesExponent exponent written) {rest : List Char} (hrest : Ends rest) :
    scanExponent (written ++ rest) = (exponent, rest) := by
  cases h with
  | absent =>
      cases rest with
      | nil => rfl
      | cons char rest =>
          have hnumeric := hrest char rfl
          simp only [isNumeric, Bool.or_eq_false_iff] at hnumeric
          rw [List.nil_append, scanExponent, if_neg]
          simp [hnumeric]
  | @digits mark negative sign text hmark hsign h =>
      obtain ⟨first, others, rfl, -⟩ := h.exists_cons
      have hletter : (decide (mark = 'e') || decide (mark = 'E')) = true := by simpa using hmark
      rw [List.append_assoc, List.cons_append, scanExponent, if_pos hletter,
        splitSign_append hsign h]
      dsimp only
      rw [span_front h.2 fun char hchar => (hrest.head?_apart char hchar).1]

theorem isTight_of_isWhole {decimal : Decimal} (h : IsWhole decimal.whole) :
    decimal.isTight = true := by
  rw [isTight.eq_def]
  split
  · rfl
  · rename_i rest hmore hzero
    rw [hzero] at h
    exact absurd (List.cons.inj (h.2 rfl)).2 hmore
  · rename_i hnone
    exact absurd hnone h.1.1
  · rfl

theorem WritesExponent.head?_apart {exponent : Option (Bool × List Char)} {written : List Char}
    (h : WritesExponent exponent written) {rest : List Char} (hrest : Ends rest) :
    ∀ char ∈ (written ++ rest).head?, isDecimalDigit char = false ∧ char ≠ '.' := by
  cases h with
  | absent => exact hrest.head?_apart
  | digits hmark _ _ =>
      rintro _ ⟨⟩
      rcases hmark with rfl | rfl <;> decide

theorem scan_append {decimal : Decimal} {written : List Char} (h : WritesDecimal decimal written)
    {rest : List Char} (hrest : Ends rest) :
    Decimal.scan (written ++ rest) = (decimal, rest) := by
  obtain ⟨hwhole, hfraction, hexponent⟩ := h
  have hscan := scanFraction_append hfraction (hexponent.head?_apart hrest)
  rw [scan_eq, List.append_assoc, List.append_assoc, span_front hwhole.1.2 ?_]
  · simp only [hscan, scanExponent_append hexponent hrest]
  · cases hfraction with
    | absent => exact fun char hchar => (hexponent.head?_apart hrest char hchar).1
    | digits _ =>
        rintro _ ⟨⟩
        decide

theorem unsigned_append {decimal : Decimal} {literal : List Char} (h : WritesNumber decimal literal)
    (rest : List Char) :
    ∃ written, unsigned (literal ++ rest) = written ++ rest ∧ WritesDecimal decimal written := by
  cases h with
  | plain h =>
      refine ⟨literal, ?_, h⟩
      obtain ⟨first, others, rfl, hfirst⟩ := h.exists_cons
      rw [List.cons_append, unsigned]
      rintro _ hsame
      exact absurd ((List.cons.inj hsame).1 ▸ hfirst) (by decide)
  | minus h => exact ⟨_, rfl, h⟩

theorem WritesDecimal.isTight {decimal : Decimal} {written : List Char}
    (h : WritesDecimal decimal written) : decimal.isTight = true ∧ decimal.fraction ≠ some [] := by
  obtain ⟨hwhole, hfraction, -⟩ := h
  refine ⟨isTight_of_isWhole hwhole, ?_⟩
  cases hfraction with
  | absent => nofun
  | digits h => exact fun hnone => h.1 (Option.some.inj hnone)

theorem readNumber_append {decimal : Decimal} {literal : List Char}
    (h : WritesNumber decimal literal) (hrange : isInRange decimal = true) {rest : List Char}
    (hrest : Ends rest) :
    readNumber (literal ++ rest) = some (.number (String.ofList literal), rest) := by
  obtain ⟨written, hunsigned, hwritten⟩ := unsigned_append h rest
  obtain ⟨htight, hsome⟩ := hwritten.isTight
  rw [readNumber_eq, hunsigned, scan_append hwritten hrest]
  simp only [htight, hrange, bne_iff_ne.mpr hsome, Bool.and_self, if_true, List.length_append,
    Nat.add_sub_cancel, List.take_left]

/-! Whole numbers. -/

theorem writesNumber_toDigits (number : Nat) :
    WritesNumber ⟨Nat.toDigits 10 number, none, none⟩ (Nat.toDigits 10 number) := by
  have hdigits : IsDigits (Nat.toDigits 10 number) := by
    refine ⟨Nat.toDigits_ne_nil, fun char hchar => ?_⟩
    rw [isDecimalDigit, isDigit, value?_of_isDigit (isDigit_of_mem_toDigits hchar),
      Option.isSome_some]
  have hwhole : IsWhole (Nat.toDigits 10 number) := by
    refine ⟨hdigits, fun hzero => ?_⟩
    rw [eq_zero_of_head?_toDigits hzero, Nat.toDigits_zero]
  have hdecimal := WritesDecimal.intro hwhole .absent .absent
  rw [List.append_nil, List.append_nil] at hdecimal
  exact .plain hdecimal

theorem le_ofDigitChars (digits : List Char) (number : Nat) :
    number ≤ Nat.ofDigitChars 10 digits number := by
  rw [Nat.ofDigitChars_eq_ofDigitChars_zero]
  exact (Nat.le_mul_of_pos_left number (Nat.pow_pos (by decide))).trans (Nat.le_add_right _ _)

/-- Digits of which none is too many are all gathered. -/
theorem gather_of_lt {digits : List Char} (hdigits : ∀ char ∈ digits, char.isDigit = true)
    {number : Nat} (h : Nat.ofDigitChars 10 digits number < Nat.pow 2 64) :
    gather number digits = (Nat.ofDigitChars 10 digits number, []) := by
  induction digits generalizing number with
  | nil => rfl
  | cons char rest ih =>
      obtain ⟨hchar, hrest⟩ := List.forall_mem_cons.mp hdigits
      rw [Nat.ofDigitChars_cons] at h ⊢
      have hlonger := Nat.lt_of_le_of_lt (le_ofDigitChars rest _) h
      rw [gather, value?_of_isDigit hchar, Option.getD_some, Nat.mul_comm number]
      exact (if_pos hlonger).trans (ih hrest h)

theorem roundBinary_of_lt {number : Nat} (h : number < Nat.pow 2 53) :
    roundBinary number = number := by
  have hunit : number.log2 - 52 = 0 := by
    by_cases hzero : number = 0
    · rw [hzero, Nat.log2_zero]
    · have hlog := (Nat.log2_lt hzero).mpr h
      omega
  rw [roundBinary, hunit]
  simp [Nat.mod_one]

theorem isInRange_toDigits {number : Nat} (h : number < Nat.pow 2 53) :
    isInRange ⟨Nat.toDigits 10 number, none, none⟩ = true := by
  have hdigits : ∀ char ∈ Nat.toDigits 10 number, char.isDigit = true :=
    fun _ => isDigit_of_mem_toDigits
  have hvalue : Nat.ofDigitChars 10 (Nat.toDigits 10 number) 0 = number :=
    Nat.ofDigitChars_ten_toDigits
  have hgather := gather_of_lt hdigits (hvalue.trans_lt (h.trans (by decide)))
  have hleading : Leading.ofDecimal ⟨Nat.toDigits 10 number, none, none⟩ = ⟨number, 0⟩ := by
    rw [Leading.ofDecimal, hgather, hvalue]
    rfl
  have hone : roundBinary (Nat.pow 10 (0 : Int).toNat) = 1 := by decide
  have hbound : Nat.pow 2 53 < Decimal.bound := by decide +kernel
  rw [isInRange, hleading]
  simp only [Leading.isInRange, roundBinary_of_lt h, hone, Nat.mul_one,
    decide_eq_true (h.trans hbound), Bool.and_true]
  simp

end Metainfo.Json
