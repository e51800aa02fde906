import Mathlib.Data.List.Basic
import Metainfo.Text.Utf8

/-!
Decoding takes back what encoding does. The bytes of a text are those of its characters, and no
byte of a longer character is taken for a shorter one.
-/

namespace Metainfo.Utf8

theorem encode_ofList (chars : List Char) :
    encode (String.ofList chars) = chars.flatMap String.utf8EncodeChar := by
  simp [encode, List.utf8Encode]

theorem encode_eq_flatMap (text : String) :
    encode text = text.toList.flatMap String.utf8EncodeChar := by
  rw [← encode_ofList, String.ofList_toList]

/-! The first byte of a character, by how many bytes follow it. -/

theorem lead_one : ∀ number < 128,
    Lead.ofByte (UInt8.ofNat number) = .ascii (Char.ofNat number) := by
  decide

theorem lead_two : ∀ first < 32, 2 ≤ first →
    Lead.ofByte (UInt8.ofNat (first + 192)) = .longer ⟨1, 0x80, 0xBF, first⟩ := by
  decide

theorem lead_three : ∀ first < 16,
    Lead.ofByte (UInt8.ofNat (first + 224)) =
      .longer ⟨2, if first = 0 then 0xA0 else 0x80, if first = 13 then 0x9F else 0xBF, first⟩ := by
  decide

theorem lead_four : ∀ first < 5,
    Lead.ofByte (UInt8.ofNat (first + 240)) =
      .longer ⟨3, if first = 0 then 0x90 else 0x80, if first = 4 then 0x8F else 0xBF, first⟩ := by
  decide

/-! The bytes that follow, of which each adds six bits. -/

theorem toNat_tail (number : Nat) :
    (UInt8.ofNat (number % 64 + 128)).toNat = number % 64 + 128 := by
  rw [UInt8.toNat_ofNat']
  omega

theorem admits_tail_iff {begun : Partial} {number : Nat} :
    begun.admits (UInt8.ofNat (number % 64 + 128)) ↔
      begun.low.toNat ≤ number % 64 + 128 ∧ number % 64 + 128 ≤ begun.high.toNat := by
  rw [Partial.admits, Bool.and_eq_true, decide_eq_true_iff, decide_eq_true_iff,
    UInt8.le_iff_toNat_le, UInt8.le_iff_toNat_le, toNat_tail]

theorem admits_tail (owed value number : Nat) :
    Partial.admits ⟨owed, 0x80, 0xBF, value⟩ (UInt8.ofNat (number % 64 + 128)) := by
  rw [admits_tail_iff]
  change 128 ≤ _ ∧ _ ≤ 191
  omega

theorem extend_tail (begun : Partial) (number : Nat) :
    begun.extend (UInt8.ofNat (number % 64 + 128)) =
      ⟨begun.owed - 1, 0x80, 0xBF, begun.value * 64 + number % 64⟩ := by
  rw [Partial.extend, toNat_tail]
  simp

variable {low high : UInt8} {owed value number : Nat}

theorem scalars_tail
    (h : Partial.admits ⟨owed + 2, low, high, value⟩ (UInt8.ofNat (number % 64 + 128)))
    (rest : List UInt8) :
    scalars (some ⟨owed + 2, low, high, value⟩) (UInt8.ofNat (number % 64 + 128) :: rest) =
      scalars (some ⟨owed + 1, 0x80, 0xBF, value * 64 + number % 64⟩) rest := by
  rw [scalars, if_pos h, extend_tail]
  simp

theorem scalars_last
    (h : Partial.admits ⟨1, low, high, value⟩ (UInt8.ofNat (number % 64 + 128)))
    (rest : List UInt8) :
    scalars (some ⟨1, low, high, value⟩) (UInt8.ofNat (number % 64 + 128) :: rest) =
      some (Char.ofNat (value * 64 + number % 64)) :: scalars none rest := by
  rw [scalars, if_pos h, extend_tail]
  simp

/-- The second of three bytes makes neither too short a form nor a surrogate. -/
theorem admits_second_of_three (h : 0x7FF < number) (hvalid : number < 0xD800 ∨ 0xDFFF < number) :
    Partial.admits ⟨2, if number / 4096 = 0 then 0xA0 else 0x80,
      if number / 4096 = 13 then 0x9F else 0xBF, value⟩
        (UInt8.ofNat (number / 64 % 64 + 128)) := by
  rw [admits_tail_iff]
  constructor
  · dsimp only
    split
    · change 0xA0 ≤ _
      omega
    · change 0x80 ≤ _
      omega
  · dsimp only
    split
    · change _ ≤ 0x9F
      omega
    · change _ ≤ 0xBF
      omega

/-- The second of four bytes makes neither too short a form nor too large a number. -/
theorem admits_second_of_four (h : 0xFFFF < number) (hvalid : number < 0x110000) :
    Partial.admits ⟨3, if number / 262144 = 0 then 0x90 else 0x80,
      if number / 262144 = 4 then 0x8F else 0xBF, value⟩
        (UInt8.ofNat (number / 4096 % 64 + 128)) := by
  rw [admits_tail_iff]
  constructor
  · dsimp only
    split
    · change 0x90 ≤ _
      omega
    · change 0x80 ≤ _
      omega
  · dsimp only
    split
    · change _ ≤ 0x8F
      omega
    · change _ ≤ 0xBF
      omega

/-- The bytes of a character are decoded to it, whatever follows. -/
theorem scalars_utf8EncodeChar (char : Char) (rest : List UInt8) :
    scalars none (String.utf8EncodeChar char ++ rest) = some char :: scalars none rest := by
  have hchar : Char.ofNat char.val.toNat = char := Char.ofNat_toNat char
  have hvalid : char.val.toNat < 0xD800 ∨ 0xDFFF < char.val.toNat ∧ char.val.toNat < 0x110000 :=
    char.valid
  rw [String.utf8EncodeChar]
  generalize char.val.toNat = number at hchar hvalid
  split
  · rw [List.singleton_append, scalars, lead_one number (by omega), hchar]
  split
  · have hfirst : number / 64 % 32 = number / 64 := by omega
    have hvalue : number / 64 * 64 + number % 64 = number := by omega
    rw [hfirst, List.cons_append, scalars, lead_two _ (by omega) (by omega),
      List.singleton_append]
    dsimp only
    rw [scalars_last (admits_tail ..), hvalue, hchar]
  split
  · have hfirst : number / 4096 % 16 = number / 4096 := by omega
    have hvalue : (number / 4096 * 64 + number / 64 % 64) * 64 + number % 64 = number := by omega
    rw [hfirst, List.cons_append, scalars, lead_three _ (by omega), List.cons_append,
      List.singleton_append]
    dsimp only
    rw [scalars_tail (admits_second_of_three (by omega) (by omega)),
      scalars_last (admits_tail ..), hvalue, hchar]
  · have hfirst : number / 262144 % 8 = number / 262144 := by omega
    have hvalue : ((number / 262144 * 64 + number / 4096 % 64) * 64 + number / 64 % 64) * 64 +
        number % 64 = number := by omega
    rw [hfirst, List.cons_append, scalars, lead_four _ (by omega), List.cons_append,
      List.cons_append, List.singleton_append]
    dsimp only
    rw [scalars_tail (admits_second_of_four (by omega) (by omega)),
      scalars_tail (admits_tail ..), scalars_last (admits_tail ..), hvalue, hchar]

theorem scalars_encode (text : String) : scalars none (encode text) = text.toList.map some := by
  rw [encode_eq_flatMap]
  induction text.toList with
  | nil => rfl
  | cons char chars ih => rw [List.flatMap_cons, scalars_utf8EncodeChar, ih, List.map_cons]

theorem lossy_encode (text : String) : lossy (encode text) = text := by
  rw [lossy, scalars_encode, List.map_map]
  simp [Function.comp_def]

theorem utf8EncodeChar_ascii {char : Char} (h : char.toNat < 128) :
    String.utf8EncodeChar char = [byteOf char] := by
  have hle : char.val.toNat ≤ 127 := Nat.le_of_lt_succ h
  rw [String.utf8EncodeChar, if_pos hle]
  rfl

/-- The bytes of a longer character are not those of shorter ones. -/
theorem le_of_mem_utf8EncodeChar {char : Char} (h : 128 ≤ char.toNat) {byte : UInt8}
    (hbyte : byte ∈ String.utf8EncodeChar char) : 128 ≤ byte.toNat := by
  have htail (number base : Nat) (hbase : 128 ≤ base) (hle : number + base < 256) :
      128 ≤ (UInt8.ofNat (number + base)).toNat := by
    rw [UInt8.toNat_ofNat', Nat.mod_eq_of_lt hle]
    omega
  have hlong : ¬ char.val.toNat ≤ 127 := Nat.not_le_of_lt h
  rw [String.utf8EncodeChar, if_neg hlong] at hbyte
  split at hbyte
  · simp only [List.mem_cons, List.not_mem_nil, or_false] at hbyte
    rcases hbyte with rfl | rfl <;> exact htail _ _ (by omega) (by omega)
  split at hbyte
  · simp only [List.mem_cons, List.not_mem_nil, or_false] at hbyte
    rcases hbyte with rfl | rfl | rfl <;> exact htail _ _ (by omega) (by omega)
  · simp only [List.mem_cons, List.not_mem_nil, or_false] at hbyte
    rcases hbyte with rfl | rfl | rfl | rfl <;> exact htail _ _ (by omega) (by omega)

theorem toNat_byteOf {char : Char} (h : char.toNat < 128) : (byteOf char).toNat = char.toNat := by
  rw [byteOf, UInt8.toNat_ofNat']
  omega

/-- The byte of a short character occurs in that character only. -/
theorem mem_utf8EncodeChar {char ascii : Char} (h : ascii.toNat < 128) :
    byteOf ascii ∈ String.utf8EncodeChar char ↔ char = ascii := by
  constructor
  · intro hmem
    have hbyte := toNat_byteOf h
    rcases Nat.lt_or_ge char.toNat 128 with hshort | hlong
    · rw [utf8EncodeChar_ascii hshort, List.mem_singleton] at hmem
      refine Char.toNat_inj.mp ?_
      rw [← toNat_byteOf hshort, ← hmem, hbyte]
    · have hle := le_of_mem_utf8EncodeChar hlong hmem
      omega
  · rintro rfl
    rw [utf8EncodeChar_ascii h]
    exact List.mem_singleton_self _

end Metainfo.Utf8
