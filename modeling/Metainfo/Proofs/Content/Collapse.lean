import Metainfo.Content.Collapse
import Metainfo.Proofs.Text.Spacing
import Metainfo.Proofs.Text.Utf8

/-!
Collapsing white space in place. What is written never reaches what is still to be read, so the
content becomes the collapsed one; for the bytes of a text these are the bytes of the collapsed
text.
-/

namespace Metainfo

open Metainfo.Utf8

namespace Blank

/-- The blanks of running text, as bytes. -/
def spacing : Spacing UInt8 where
  isBlank := isBlank
  line := byteOf '\n'
  space := byteOf ' '
  line_isBlank := rfl
  space_isBlank := rfl

/-- The blanks of running text, as characters. -/
def charSpacing : Spacing Char where
  isBlank char := char = ' ' || char = '\t' || char = '\n'
  line := '\n'
  space := ' '
  line_isBlank := rfl
  space_isBlank := rfl

theorem isBlank_of_le {byte : UInt8} (h : 128 ≤ byte.toNat) : spacing.isBlank byte = false := by
  have hne (char : Char) (hchar : (byteOf char).toNat < 128) : byte ≠ byteOf char := by
    rintro rfl
    omega
  change isBlank byte = false
  simp [isBlank, hne ' ' (by decide), hne '\t' (by decide), hne '\n' (by decide)]

theorem byteOf_isBlank (char : Char) (h : char.toNat < 128) :
    spacing.isBlank (byteOf char) = charSpacing.isBlank char := by
  have hiff (blank : Char) (hblank : blank.toNat < 128) :
      byteOf char = byteOf blank ↔ char = blank := by
    rw [← mem_utf8EncodeChar hblank, utf8EncodeChar_ascii h, List.mem_singleton, eq_comm]
  change isBlank (byteOf char) = (char = ' ' || char = '\t' || char = '\n' : Bool)
  simp only [isBlank, hiff ' ' (by decide), hiff '\t' (by decide), hiff '\n' (by decide)]

theorem toNat_of_isBlank {char : Char} (h : charSpacing.isBlank char = true) :
    char.toNat < 128 := by
  have hblank : (char = ' ' ∨ char = '\t') ∨ char = '\n' := by simpa [charSpacing] using h
  rcases hblank with (rfl | rfl) | rfl <;> decide

/-- The bytes of a text have the blanks of the text. -/
theorem encodes_spacing : charSpacing.Encodes spacing String.utf8EncodeChar where
  word char h := by
    rcases Nat.lt_or_ge char.toNat 128 with hshort | hlong
    · rw [utf8EncodeChar_ascii hshort]
      refine ⟨List.cons_ne_nil _ _, ?_⟩
      simpa [byteOf_isBlank char hshort] using h
    · refine ⟨?_, fun byte hbyte => isBlank_of_le (le_of_mem_utf8EncodeChar hlong hbyte)⟩
      rw [String.utf8EncodeChar]
      repeat' split
      all_goals exact List.cons_ne_nil _ _
  gap char h := by
    rw [utf8EncodeChar_ascii (toNat_of_isBlank h)]
    refine ⟨List.cons_ne_nil _ _, ?_⟩
    simpa [byteOf_isBlank char (toNat_of_isBlank h)] using h
  line := rfl
  space := rfl
  line_mem char := mem_utf8EncodeChar (by decide)

end Blank

namespace ContentBuffer

open Metainfo.Blank

/-- The gap that these blanks make. -/
def Gap.spanning (blanks : List UInt8) : Gap :=
  if blanks.isEmpty then .closed
  else if byteOf '\n' ∈ blanks then .line
  else .space

theorem Gap.spanning_eq_line_iff (blanks : List UInt8) :
    Gap.spanning blanks = .line ↔ byteOf '\n' ∈ blanks := by
  rw [Gap.spanning]
  cases blanks with
  | nil => simp
  | cons first rest =>
      rw [List.isEmpty_cons, if_neg Bool.false_ne_true]
      split <;> simp_all

theorem Gap.widen_spanning (blanks : List UInt8) (blank : UInt8) :
    (Gap.spanning blanks).widen blank = Gap.spanning (blanks ++ [blank]) := by
  have hspan : Gap.spanning (blanks ++ [blank]) =
      if byteOf '\n' ∈ blanks ++ [blank] then .line else .space := by
    rw [Gap.spanning, if_neg (by simp)]
  rw [hspan, Gap.widen]
  refine if_congr ?_ rfl rfl
  rw [Bool.or_eq_true, decide_eq_true_iff, decide_eq_true_iff, spanning_eq_line_iff,
    List.mem_append, List.mem_singleton, eq_comm, or_comm]

theorem Gap.separator?_spanning (blanks : List UInt8) :
    (Gap.spanning blanks).separator? =
      if blanks.isEmpty then none else some (spacing.separator blanks) := by
  rw [Gap.spanning, Spacing.separator]
  split
  · rfl
  · change _ = some (if byteOf '\n' ∈ blanks then byteOf '\n' else byteOf ' ')
    split <;> rfl

/-- What is still to be read of the first `stop` bytes. -/
def unread (stop : Nat) (bytes : Array UInt8) (read : Nat) : List UInt8 :=
  (bytes.toList.take stop).drop read

variable {stop read index : Nat} {bytes : Array UInt8}

theorem unread_of_lt (hstop : stop ≤ bytes.size) (hread : read < stop) :
    unread stop bytes read = bytes.getD read 0 :: unread stop bytes (read + 1) := by
  have hsize : read < bytes.size := Nat.lt_of_lt_of_le hread hstop
  have hlength : read < (bytes.toList.take stop).length := by
    rw [List.length_take, Array.length_toList]
    omega
  rw [unread, List.drop_eq_getElem_cons hlength, unread]
  simp [hsize]

theorem unread_of_le (h : stop ≤ read) (bytes : Array UInt8) : unread stop bytes read = [] := by
  refine List.drop_eq_nil_of_le ?_
  rw [List.length_take]
  omega

theorem unread_set (h : index < read) (bytes : Array UInt8) (byte : UInt8) :
    unread stop (bytes.setIfInBounds index byte) read = unread stop bytes read := by
  rw [unread, Array.toList_setIfInBounds, List.take_set, List.drop_set_of_lt h, unread]

theorem take_set (h : index < bytes.size) (byte : UInt8) :
    (bytes.setIfInBounds index byte).toList.take (index + 1) =
      bytes.toList.take index ++ [byte] := by
  rw [Array.toList_setIfInBounds, List.take_add_one, List.take_set_of_le (Nat.le_refl index)]
  simp [h]

/-- The bytes written so far stay, and what is kept of the unread ones follows. -/
theorem toList_collapseFrom (stop : Nat) (bytes : Array UInt8) (read write : Nat) (gap : Gap)
    (blanks : List UInt8) (hstop : stop ≤ bytes.size) (hgap : gap = .spanning blanks)
    (hwrite : write + blanks.length ≤ read) :
    (collapseFrom stop bytes read write gap).toList =
      bytes.toList.take write ++
        spacing.keptFrom (0 < write) blanks (unread stop bytes read) := by
  fun_induction collapseFrom stop bytes read write gap generalizing blanks with
  | case1 bytes read write gap hread byte hblank ih =>
      have hkept : spacing.isBlank byte = true := hblank
      rw [ih (blanks ++ [byte]) hstop (by rw [hgap, Gap.widen_spanning]) (by simp; omega),
        unread_of_lt hstop hread, Spacing.keptFrom, if_pos hkept]
  | case2 bytes read gap hread byte hblank separator before hgap' ih =>
      have hword : spacing.isBlank byte = false := Bool.eq_false_iff.mpr hblank
      have hunread : unread stop bytes read = byte :: unread stop bytes (read + 1) :=
        unread_of_lt hstop hread
      obtain ⟨hopen, hseparator⟩ :
          blanks.isEmpty = false ∧ spacing.separator blanks = separator := by
        rw [hgap, Gap.separator?_spanning] at hgap'
        cases hempty : blanks.isEmpty <;> simp_all
      have hpos := List.length_pos_of_ne_nil (List.isEmpty_eq_false_iff.mp hopen)
      have hsize : before + 2 < (bytes.setIfInBounds (before + 1) separator).size := by
        rw [Array.size_setIfInBounds]
        omega
      rw [ih [] (by simpa using hstop) rfl (by simp; omega), take_set hsize,
        take_set (by omega), unread_set (by omega), unread_set (by omega), hunread,
        Spacing.keptFrom, hword, hopen, hseparator]
      simp
  | case3 bytes read write gap hread byte hblank hnone ih =>
      have hword : spacing.isBlank byte = false := Bool.eq_false_iff.mpr hblank
      have hunread : unread stop bytes read = byte :: unread stop bytes (read + 1) :=
        unread_of_lt hstop hread
      have hfirst : (decide (0 < write) && !blanks.isEmpty) = false := by
        cases write with
        | zero => rfl
        | succ before =>
            cases hempty : blanks.isEmpty with
            | true => simp
            | false =>
                refine absurd rfl (hnone (spacing.separator blanks) before ?_)
                rw [hgap, Gap.separator?_spanning, hempty]
                rfl
      rw [ih [] (by simpa using hstop) rfl (by simp; omega), take_set (by omega),
        unread_set (by omega), hunread, Spacing.keptFrom, hword, hfirst]
      simp
  | case4 bytes read write gap hread =>
      rw [unread_of_le (Nat.le_of_not_lt hread), Spacing.keptFrom, List.append_nil]
      simp

theorem bytes_ofContent (data : List UInt8) : (ofContent data).bytes.toList = data ++ [0] := by
  simp [ofContent, append, empty]

theorem size_ofContent (data : List UInt8) : (ofContent data).size = data.length := by
  rw [size, ← Array.length_toList, bytes_ofContent]
  simp

theorem content_ofContent (data : List UInt8) : (ofContent data).content = data := by
  rw [content, bytes_ofContent, size_ofContent, List.take_left]

theorem text_ofContent (data : List UInt8) : (ofContent data).text = lossy data := by
  rw [text, content_ofContent]

theorem eq_ofContent_iff {buffer : ContentBuffer} {data : List UInt8} :
    buffer = ofContent data ↔ buffer.bytes.toList = data ++ [0] := by
  constructor
  · rintro rfl
    exact bytes_ofContent data
  · intro h
    have hbytes : buffer.bytes = (ofContent data).bytes := by
      rw [← Array.toList_inj, h, bytes_ofContent]
    cases buffer
    exact congrArg mk hbytes

/-- The content is collapsed, and nothing but the terminating zero follows it. -/
theorem collapse_ofContent (data : List UInt8) :
    (ofContent data).collapse = ofContent (spacing.collapsed data) := by
  have hlength : (ofContent data).bytes.size = data.length + 1 := by
    rw [← Array.length_toList, bytes_ofContent]
    simp
  rw [eq_ofContent_iff, collapse, Array.toList_push, size_ofContent,
    toList_collapseFrom _ _ 0 0 .closed [] (by omega) rfl (by simp), unread, bytes_ofContent,
    List.take_left, ← Spacing.keptFrom_eq_collapsed]
  rfl

/-- The content of a text becomes that of the collapsed text. -/
theorem collapse_encode (text : String) :
    (ofContent (encode text)).collapse =
      ofContent (encode (String.ofList (charSpacing.collapsed text.toList))) := by
  rw [collapse_ofContent, encode_eq_flatMap, encodes_spacing.collapsed, encode_ofList]

end ContentBuffer

end Metainfo
