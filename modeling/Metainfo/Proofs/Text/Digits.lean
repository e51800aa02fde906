import Metainfo.Data.Decimal

/-!
A number in decimal is read back as the same number.
-/

namespace Metainfo.Digits

theorem value?_of_isDigit {char : Char} (h : char.isDigit = true) :
    value? 10 char = some (char.toNat - '0'.toNat) := by
  obtain ⟨hlow, hhigh⟩ : '0' ≤ char ∧ char ≤ '9' := by
    simpa [Char.isDigit, Char.le_def] using h
  have hnat : char.toNat ≤ '9'.toNat := hhigh
  have hvalue : char.toNat - '0'.toNat < 10 := by
    simp only [Char.reduceToNat] at hnat ⊢
    omega
  simp only [value?, hlow, hhigh, decide_true, Bool.and_self, if_true]
  rw [Option.filter_some, if_pos (decide_eq_true hvalue)]

theorem continue?_of_isDigit {digits : List Char} (h : ∀ char ∈ digits, char.isDigit = true)
    (number : Nat) : continue? 10 number digits = some (Nat.ofDigitChars 10 digits number) := by
  induction digits generalizing number with
  | nil => rw [continue?, Nat.ofDigitChars_nil]
  | cons char rest ih =>
      obtain ⟨hchar, hrest⟩ := List.forall_mem_cons.mp h
      rw [continue?, value?_of_isDigit hchar, Nat.ofDigitChars_cons, Nat.mul_comm 10]
      exact ih hrest _

theorem isDigit_of_mem_toDigits {number : Nat} {char : Char} (h : char ∈ Nat.toDigits 10 number) :
    char.isDigit = true :=
  Nat.isDigit_of_mem_toDigits (by decide) (by decide) h

theorem number?_toDigits (number : Nat) : number? 10 (Nat.toDigits 10 number) = some number := by
  rw [number?, List.isEmpty_eq_false_iff.mpr Nat.toDigits_ne_nil, if_neg Bool.false_ne_true,
    continue?_of_isDigit fun _ => isDigit_of_mem_toDigits, Nat.ofDigitChars_ten_toDigits]

/-- Only zero begins with zero. -/
theorem eq_zero_of_head?_toDigits {number : Nat} (h : (Nat.toDigits 10 number).head? = some '0') :
    number = 0 := by
  induction number using Nat.strongRecOn with
  | ind number ih =>
      by_cases hsmall : number < 10
      · rw [Nat.toDigits_of_lt_base hsmall] at h
        exact Nat.digitChar_eq_zero.mp (Option.some.inj h)
      · have hgreat := Nat.le_of_not_lt hsmall
        rw [Nat.toDigits_of_base_le (by decide) hgreat, List.head?_append,
          List.head?_eq_some_head Nat.toDigits_ne_nil, Option.some_or,
          ← List.head?_eq_some_head Nat.toDigits_ne_nil] at h
        have hquotient := ih (number / 10) (by omega) h
        omega

end Metainfo.Digits
