import Metainfo.Proofs.Text.Decoding

/-!
The order of texts is that of their bytes: where two texts part, the greater character has the
greater bytes, and the bytes of none begin those of another one.
-/

namespace Metainfo.Utf8

theorem ofNat_cons_lt {number larger : Nat} (h : number < larger) (hbyte : larger < 256)
    (rest more : List UInt8) : UInt8.ofNat number :: rest < UInt8.ofNat larger :: more := by
  refine List.cons_lt_cons_iff.mpr (Or.inl (UInt8.lt_iff_toNat_lt.mpr ?_))
  rw [UInt8.toNat_ofNat', UInt8.toNat_ofNat']
  omega

theorem ofNat_cons_lt_of_le {number larger : Nat} {rest more : List UInt8} (hle : number ≤ larger)
    (hbyte : larger < 256) (h : number = larger → rest < more) :
    UInt8.ofNat number :: rest < UInt8.ofNat larger :: more := by
  rcases Nat.lt_or_eq_of_le hle with hlt | heq
  · exact ofNat_cons_lt hlt hbyte rest more
  · rw [heq]
    exact List.cons_lt_cons_iff.mpr (Or.inr ⟨rfl, h heq⟩)

/-- The bytes of a smaller character are smaller, whatever follows. -/
theorem utf8EncodeChar_lt {char other : Char} (h : char < other) (rest more : List UInt8) :
    String.utf8EncodeChar char ++ rest < String.utf8EncodeChar other ++ more := by
  have hlt : char.toNat < other.toNat := h
  rcases utf8EncodeChar_cases char with ⟨hsize, hbytes⟩ | ⟨hsize, hbytes⟩ | ⟨hsize, hbytes⟩ |
      ⟨hsize, hbytes⟩ <;>
    rcases utf8EncodeChar_cases other with ⟨hsize', hbytes'⟩ | ⟨hsize', hbytes'⟩ |
        ⟨hsize', hbytes'⟩ | ⟨hsize', hbytes'⟩ <;>
    rw [hbytes, hbytes']
  -- The first bytes settle it where they can; the six-bit groups behind them are compared in turn.
  case inr.inl.inr.inl =>
    refine ofNat_cons_lt_of_le (by omega) (by omega) fun _ => ?_
    exact ofNat_cons_lt (by omega) (by omega) _ _
  case inr.inr.inl.inr.inr.inl =>
    refine ofNat_cons_lt_of_le (by omega) (by omega) fun _ => ?_
    refine ofNat_cons_lt_of_le (by omega) (by omega) fun _ => ?_
    exact ofNat_cons_lt (by omega) (by omega) _ _
  case inr.inr.inr.inr.inr.inr =>
    refine ofNat_cons_lt_of_le (by omega) (by omega) fun _ => ?_
    refine ofNat_cons_lt_of_le (by omega) (by omega) fun _ => ?_
    refine ofNat_cons_lt_of_le (by omega) (by omega) fun _ => ?_
    exact ofNat_cons_lt (by omega) (by omega) _ _
  all_goals exact ofNat_cons_lt (by omega) (by omega) _ _

theorem utf8EncodeChar_ne_nil (char : Char) : String.utf8EncodeChar char ≠ [] := by
  rcases utf8EncodeChar_cases char with ⟨-, hbytes⟩ | ⟨-, hbytes⟩ | ⟨-, hbytes⟩ | ⟨-, hbytes⟩ <;>
    rw [hbytes] <;> exact List.cons_ne_nil _ _

theorem encode_lt_of_lt {text other : String} (h : text < other) : encode text < encode other := by
  have hchars : text.toList < other.toList := h
  rw [encode_eq_flatMap, encode_eq_flatMap]
  generalize text.toList = chars at hchars
  generalize other.toList = others at hchars
  induction chars generalizing others with
  | nil =>
      cases others with
      | nil => exact absurd hchars (List.lt_irrefl [])
      | cons char others =>
          rw [List.flatMap_nil, List.flatMap_cons]
          obtain ⟨byte, bytes, hbytes⟩ := List.exists_cons_of_ne_nil (utf8EncodeChar_ne_nil char)
          rw [hbytes]
          exact List.nil_lt_cons byte _
  | cons char chars ih =>
      cases others with
      | nil => exact absurd hchars (List.not_lt_nil _)
      | cons other others =>
          rw [List.flatMap_cons, List.flatMap_cons]
          rcases List.cons_lt_cons_iff.mp hchars with hlt | ⟨rfl, hlt⟩
          · exact utf8EncodeChar_lt hlt _ _
          · exact List.append_left_lt (ih others hlt)

/-- Texts are in order if their bytes are. -/
theorem encode_le_iff {text other : String} : encode text ≤ encode other ↔ text ≤ other := by
  constructor
  · intro h
    refine String.not_lt.mp fun hlt => ?_
    exact h (encode_lt_of_lt hlt)
  · intro h hlt
    have hne : text ≠ other := by
      rintro rfl
      exact List.lt_irrefl _ hlt
    have hsmaller : text < other :=
      String.not_le.mp fun hge => hne (String.le_antisymm h hge)
    exact List.lt_asymm (encode_lt_of_lt hsmaller) hlt

end Metainfo.Utf8
