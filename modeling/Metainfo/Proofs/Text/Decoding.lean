import Metainfo.Proofs.Text.Utf8

/-!
Only the bytes of a text are decoded to it: a lead byte tells how many others follow and their
bounds keep out every form that encoding does not give.
-/

namespace Metainfo.Utf8

/-- The forms of a character, by the number of its bytes. -/
theorem utf8EncodeChar_cases (char : Char) :
    char.toNat < 128 ∧ String.utf8EncodeChar char = [UInt8.ofNat char.toNat] ∨
      (128 ≤ char.toNat ∧ char.toNat < 2048) ∧ String.utf8EncodeChar char =
        [UInt8.ofNat (char.toNat / 64 + 192), UInt8.ofNat (char.toNat % 64 + 128)] ∨
      (2048 ≤ char.toNat ∧ char.toNat < 65536) ∧ String.utf8EncodeChar char =
        [UInt8.ofNat (char.toNat / 4096 + 224), UInt8.ofNat (char.toNat / 64 % 64 + 128),
          UInt8.ofNat (char.toNat % 64 + 128)] ∨
      (65536 ≤ char.toNat ∧ char.toNat < 1114112) ∧ String.utf8EncodeChar char =
        [UInt8.ofNat (char.toNat / 262144 + 240), UInt8.ofNat (char.toNat / 4096 % 64 + 128),
          UInt8.ofNat (char.toNat / 64 % 64 + 128), UInt8.ofNat (char.toNat % 64 + 128)] := by
  have hvalid : char.toNat < 0xD800 ∨ 0xDFFF < char.toNat ∧ char.toNat < 0x110000 := char.valid
  rw [String.utf8EncodeChar, show char.val.toNat = char.toNat from rfl]
  generalize char.toNat = number at hvalid
  rcases Nat.lt_or_ge number 128 with hone | hone
  · exact Or.inl ⟨hone, if_pos (by omega)⟩
  rcases Nat.lt_or_ge number 2048 with htwo | htwo
  · have hlead : number / 64 % 32 = number / 64 := by omega
    rw [if_neg (by omega), if_pos (by omega), hlead]
    exact Or.inr (Or.inl ⟨⟨hone, htwo⟩, rfl⟩)
  rcases Nat.lt_or_ge number 65536 with hthree | hthree
  · have hlead : number / 4096 % 16 = number / 4096 := by omega
    rw [if_neg (by omega), if_neg (by omega), if_pos (by omega), hlead]
    exact Or.inr (Or.inr (Or.inl ⟨⟨htwo, hthree⟩, rfl⟩))
  · have hlead : number / 262144 % 8 = number / 262144 := by omega
    rw [if_neg (by omega), if_neg (by omega), if_neg (by omega), hlead]
    exact Or.inr (Or.inr (Or.inr ⟨⟨hthree, by omega⟩, rfl⟩))

/-! The bytes that lead no character. -/

theorem lead_tail : ∀ number < 66, Lead.ofByte (UInt8.ofNat (number + 128)) = .invalid := by
  decide

theorem lead_large : ∀ number < 11, Lead.ofByte (UInt8.ofNat (number + 245)) = .invalid := by
  decide

variable {byte : UInt8} {begun : Partial} {bytes : List UInt8} {chars : List Char}

/-- What a byte leads: a character of its own, a longer one, or none. -/
theorem lead_cases (byte : UInt8) :
    (∃ number < 128, byte = UInt8.ofNat number ∧
        Lead.ofByte byte = .ascii (Char.ofNat number)) ∨
      (∃ first, 2 ≤ first ∧ first < 32 ∧ byte = UInt8.ofNat (first + 192) ∧
        Lead.ofByte byte = .longer ⟨1, 0x80, 0xBF, first⟩) ∨
      (∃ first < 16, byte = UInt8.ofNat (first + 224) ∧ Lead.ofByte byte = .longer
        ⟨2, if first = 0 then 0xA0 else 0x80, if first = 13 then 0x9F else 0xBF, first⟩) ∨
      (∃ first < 5, byte = UInt8.ofNat (first + 240) ∧ Lead.ofByte byte = .longer
        ⟨3, if first = 0 then 0x90 else 0x80, if first = 4 then 0x8F else 0xBF, first⟩) ∨
      Lead.ofByte byte = .invalid := by
  obtain ⟨number, hlt, rfl⟩ : ∃ number < 256, byte = UInt8.ofNat number :=
    ⟨byte.toNat, byte.toNat_lt, UInt8.ofNat_toNat.symm⟩
  rcases Nat.lt_or_ge number 128 with hone | hone
  · exact Or.inl ⟨number, hone, rfl, lead_one number hone⟩
  rcases Nat.lt_or_ge number 194 with hnone | htwo
  · obtain ⟨tail, rfl⟩ := Nat.exists_eq_add_of_le' hone
    exact Or.inr (Or.inr (Or.inr (Or.inr (lead_tail tail (by omega)))))
  rcases Nat.lt_or_ge number 224 with hsmall | hthree
  · obtain ⟨first, rfl⟩ := Nat.exists_eq_add_of_le' (show 192 ≤ number by omega)
    exact Or.inr (Or.inl ⟨first, by omega, by omega, rfl, lead_two first (by omega) (by omega)⟩)
  rcases Nat.lt_or_ge number 240 with hsmall | hfour
  · obtain ⟨first, rfl⟩ := Nat.exists_eq_add_of_le' hthree
    exact Or.inr (Or.inr (Or.inl ⟨first, by omega, rfl, lead_three first (by omega)⟩))
  rcases Nat.lt_or_ge number 245 with hsmall | hlarge
  · obtain ⟨first, rfl⟩ := Nat.exists_eq_add_of_le' hfour
    exact Or.inr (Or.inr (Or.inr (Or.inl ⟨first, by omega, rfl, lead_four first (by omega)⟩)))
  · obtain ⟨more, rfl⟩ := Nat.exists_eq_add_of_le' hlarge
    exact Or.inr (Or.inr (Or.inr (Or.inr (lead_large more (by omega)))))

/-- A character that is begun and decoded goes on with a byte within the bounds. -/
theorem scalars_begun {low high : UInt8} {owed value : Nat} (hlow : 0x80 ≤ low)
    (hhigh : high ≤ 0xBF) (h : scalars (some ⟨owed + 1, low, high, value⟩) bytes = chars.map some) :
    ∃ tail rest, tail < 64 ∧ low.toNat ≤ tail + 128 ∧ tail + 128 ≤ high.toNat ∧
      bytes = UInt8.ofNat (tail + 128) :: rest ∧
      chars.map some =
        if owed = 0 then some (Char.ofNat (value * 64 + tail)) :: scalars none rest
        else scalars (some ⟨owed, 0x80, 0xBF, value * 64 + tail⟩) rest := by
  cases bytes with
  | nil =>
      cases chars <;> simp [scalars] at h
  | cons byte rest =>
      rw [scalars] at h
      split at h
      · rename_i hadmits
        have hbounds := Bool.and_eq_true_iff.mp hadmits
        have hleast : low.toNat ≤ byte.toNat :=
          UInt8.le_iff_toNat_le.mp (of_decide_eq_true hbounds.1)
        have hmost : byte.toNat ≤ high.toNat :=
          UInt8.le_iff_toNat_le.mp (of_decide_eq_true hbounds.2)
        have hlower : 128 ≤ low.toNat := UInt8.le_iff_toNat_le.mp hlow
        have hupper : high.toNat ≤ 191 := UInt8.le_iff_toNat_le.mp hhigh
        obtain ⟨tail, htail⟩ := Nat.exists_eq_add_of_le' (Nat.le_trans hlower hleast)
        have hbyte : byte = UInt8.ofNat (tail + 128) := by rw [← htail, UInt8.ofNat_toNat]
        refine ⟨tail, rest, by omega, by omega, by omega, by rw [hbyte], ?_⟩
        rw [← h, Partial.extend, htail]
        simp
      · cases chars with
        | nil => split at h <;> simp at h
        | cons char chars => split at h <;> simp at h

/-- Every number but those of surrogates and those too large is that of a character. -/
theorem toNat_charOfNat (number : Nat)
    (h : number < 0xD800 ∨ 0xDFFF < number ∧ number < 0x110000) :
    (Char.ofNat number).toNat = number := by
  rw [Char.ofNat, dif_pos h]
  rfl

theorem utf8EncodeChar_one {number : Nat} (h : number < 128) :
    String.utf8EncodeChar (Char.ofNat number) = [UInt8.ofNat number] := by
  have hnumber := toNat_charOfNat number (by omega)
  rcases utf8EncodeChar_cases (Char.ofNat number) with ⟨hsize, hbytes⟩ | ⟨hsize, hbytes⟩ |
      ⟨hsize, hbytes⟩ | ⟨hsize, hbytes⟩ <;>
    rw [hnumber] at hsize hbytes
  · exact hbytes
  all_goals omega

theorem utf8EncodeChar_two {first tail : Nat} (hleast : 2 ≤ first) (hmost : first < 32)
    (htail : tail < 64) : String.utf8EncodeChar (Char.ofNat (first * 64 + tail)) =
      [UInt8.ofNat (first + 192), UInt8.ofNat (tail + 128)] := by
  have hnumber := toNat_charOfNat (first * 64 + tail) (by omega)
  rcases utf8EncodeChar_cases (Char.ofNat (first * 64 + tail)) with ⟨hsize, hbytes⟩ |
      ⟨hsize, hbytes⟩ | ⟨hsize, hbytes⟩ | ⟨hsize, hbytes⟩ <;>
    rw [hnumber] at hsize hbytes
  case inr.inl =>
    have hlead : (first * 64 + tail) / 64 = first := by omega
    have hlast : (first * 64 + tail) % 64 = tail := by omega
    rwa [hlead, hlast] at hbytes
  all_goals omega

theorem utf8EncodeChar_three {first second last : Nat} (hmost : first < 16) (hsecond : second < 64)
    (hlast : last < 64) (hleast : first = 0 → 32 ≤ second) (hscalar : first = 13 → second < 32) :
    String.utf8EncodeChar (Char.ofNat ((first * 64 + second) * 64 + last)) =
      [UInt8.ofNat (first + 224), UInt8.ofNat (second + 128), UInt8.ofNat (last + 128)] := by
  have hnumber := toNat_charOfNat ((first * 64 + second) * 64 + last) (by omega)
  rcases utf8EncodeChar_cases (Char.ofNat ((first * 64 + second) * 64 + last)) with
      ⟨hsize, hbytes⟩ | ⟨hsize, hbytes⟩ | ⟨hsize, hbytes⟩ | ⟨hsize, hbytes⟩ <;>
    rw [hnumber] at hsize hbytes
  case inr.inr.inl =>
    have hlead : ((first * 64 + second) * 64 + last) / 4096 = first := by omega
    have hmiddle : ((first * 64 + second) * 64 + last) / 64 % 64 = second := by omega
    have hend : ((first * 64 + second) * 64 + last) % 64 = last := by omega
    rwa [hlead, hmiddle, hend] at hbytes
  all_goals omega

theorem utf8EncodeChar_four {first second third last : Nat} (hmost : first < 5)
    (hsecond : second < 64) (hthird : third < 64) (hlast : last < 64)
    (hleast : first = 0 → 16 ≤ second) (hscalar : first = 4 → second < 16) :
    String.utf8EncodeChar (Char.ofNat (((first * 64 + second) * 64 + third) * 64 + last)) =
      [UInt8.ofNat (first + 240), UInt8.ofNat (second + 128), UInt8.ofNat (third + 128),
        UInt8.ofNat (last + 128)] := by
  have hnumber := toNat_charOfNat (((first * 64 + second) * 64 + third) * 64 + last) (by omega)
  rcases utf8EncodeChar_cases (Char.ofNat (((first * 64 + second) * 64 + third) * 64 + last)) with
      ⟨hsize, hbytes⟩ | ⟨hsize, hbytes⟩ | ⟨hsize, hbytes⟩ | ⟨hsize, hbytes⟩ <;>
    rw [hnumber] at hsize hbytes
  case inr.inr.inr =>
    have hlead : (((first * 64 + second) * 64 + third) * 64 + last) / 262144 = first := by omega
    have hmiddle : (((first * 64 + second) * 64 + third) * 64 + last) / 4096 % 64 = second := by
      omega
    have hnext : (((first * 64 + second) * 64 + third) * 64 + last) / 64 % 64 = third := by omega
    have hend : (((first * 64 + second) * 64 + third) * 64 + last) % 64 = last := by omega
    rwa [hlead, hmiddle, hnext, hend] at hbytes
  all_goals omega

/-- The bytes of decoded characters are those that encoding gives. -/
theorem eq_of_scalars (h : scalars none bytes = chars.map some) :
    bytes = chars.flatMap String.utf8EncodeChar := by
  induction hlength : bytes.length using Nat.strongRecOn generalizing bytes chars with
  | _ length ih =>
  subst hlength
  -- What follows the first character is shorter.
  have hfirst (lead : UInt8) (tail rest : List UInt8) {char : Char}
      (hbytes : bytes = lead :: (tail ++ rest)) (hchar : String.utf8EncodeChar char = lead :: tail)
      (hchars : chars.map some = some char :: scalars none rest) :
      bytes = chars.flatMap String.utf8EncodeChar := by
    obtain ⟨first, others, rfl, hfirst, hothers⟩ := List.map_eq_cons_iff.mp hchars
    obtain rfl := Option.some.inj hfirst
    have hshorter : rest.length < bytes.length := by
      rw [hbytes, List.length_cons, List.length_append]
      omega
    rw [List.flatMap_cons, ← ih _ hshorter hothers.symm rfl, hchar, hbytes, List.cons_append]
  cases bytes with
  | nil =>
      rw [scalars] at h
      rw [List.map_eq_nil_iff.mp h.symm]
      rfl
  | cons byte rest =>
      rcases lead_cases byte with ⟨number, hsize, hbyte, hlead⟩ |
          ⟨first, hleast, hmost, hbyte, hlead⟩ | ⟨first, hmost, hbyte, hlead⟩ |
          ⟨first, hmost, hbyte, hlead⟩ | hlead <;>
        rw [scalars, hlead] at h <;> dsimp only at h
      · exact hfirst byte [] rest rfl (hbyte ▸ utf8EncodeChar_one hsize) h.symm
      · obtain ⟨tail, rest, htail, -, -, rfl, hchars⟩ := scalars_begun (by decide) (by decide) h
        exact hfirst byte [_] rest rfl (hbyte ▸ utf8EncodeChar_two hleast hmost htail) hchars
      · obtain ⟨second, rest, hsecond, hlow, hhigh, rfl, hnext⟩ :=
          scalars_begun (by split <;> decide) (by split <;> decide) h
        obtain ⟨last, rest, hlast, -, -, rfl, hchars⟩ :=
          scalars_begun (by decide) (by decide) hnext.symm
        refine hfirst byte [_, _] rest rfl (hbyte ▸ utf8EncodeChar_three hmost hsecond hlast ?_ ?_)
          hchars
        · rintro rfl
          exact Nat.le_of_add_le_add_right (b := 128) hlow
        · rintro rfl
          exact Nat.lt_of_add_lt_add_right (n := 128) (Nat.lt_succ_of_le hhigh)
      · obtain ⟨second, rest, hsecond, hlow, hhigh, rfl, hnext⟩ :=
          scalars_begun (by split <;> decide) (by split <;> decide) h
        obtain ⟨third, rest, hthird, -, -, rfl, hthen⟩ :=
          scalars_begun (by decide) (by decide) hnext.symm
        obtain ⟨last, rest, hlast, -, -, rfl, hchars⟩ :=
          scalars_begun (by decide) (by decide) hthen.symm
        refine hfirst byte [_, _, _] rest rfl
          (hbyte ▸ utf8EncodeChar_four hmost hsecond hthird hlast ?_ ?_) hchars
        · rintro rfl
          exact Nat.le_of_add_le_add_right (b := 128) hlow
        · rintro rfl
          exact Nat.lt_of_add_lt_add_right (n := 128) (Nat.lt_succ_of_le hhigh)
      · cases chars <;> simp at h

theorem mapM_id_eq_some_iff {found : List (Option Char)} :
    found.mapM id = some chars ↔ found = chars.map some := by
  induction found generalizing chars with
  | nil => cases chars <;> simp
  | cons first rest ih =>
      cases first with
      | none => cases chars <;> simp
      | some char =>
          rw [List.mapM_cons]
          change ((rest.mapM id).bind fun others => some (char :: others)) = some chars ↔ _
          rw [Option.bind_eq_some_iff]
          constructor
          · rintro ⟨others, hothers, hchars⟩
            rw [ih.mp hothers, ← Option.some.inj hchars, List.map_cons]
          · intro h
            obtain ⟨head, others, rfl, hhead, hothers⟩ := List.map_eq_cons_iff.mp h.symm
            exact ⟨others, ih.mpr hothers.symm, by rw [Option.some.inj hhead]⟩

/-- A text is decoded from its own bytes and from no others. -/
theorem strict_eq_some_iff {text : String} : strict bytes = some text ↔ bytes = encode text := by
  rw [strict, Option.map_eq_some_iff]
  constructor
  · rintro ⟨chars, hchars, rfl⟩
    rw [encode_ofList]
    exact eq_of_scalars (mapM_id_eq_some_iff.mp hchars)
  · rintro rfl
    exact ⟨text.toList, mapM_id_eq_some_iff.mpr (scalars_encode text), String.ofList_toList⟩

end Metainfo.Utf8
