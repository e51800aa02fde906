import Metainfo.Proofs.Markup.Delivery
import Metainfo.Proofs.Text.LineIndex

/-!
Inputs that break off. A piece is cut off the front only when its end has been seen, so what is
cut off an input that breaks off is cut off as well when the input goes on, and a fault that is
found there is found again in the same place.
-/

namespace Metainfo.Markup

open Metainfo.Utf8

variable {ending : Ending} {bytes more : List UInt8}

/-! Ends that have been seen. -/

theorem before?_begins {pattern content : List UInt8} (h : before? pattern bytes = some content) :
    content ++ pattern <+: bytes := by
  induction bytes generalizing content with
  | nil =>
      rw [before?] at h
      split at h
      · rename_i hempty
        rw [← Option.some.inj h, List.isEmpty_iff.mp hempty]
        exact List.prefix_refl _
      · contradiction
  | cons byte rest ih =>
      rw [before?] at h
      split at h
      · rename_i hfound
        rw [← Option.some.inj h]
        exact List.isPrefixOf_iff_prefix.mp hfound
      · obtain ⟨later, hlater, rfl⟩ := Option.map_eq_some_iff.mp h
        exact List.cons_prefix_cons.mpr ⟨rfl, ih hlater⟩

theorem before?_append {pattern content : List UInt8} (h : before? pattern bytes = some content)
    (more : List UInt8) : before? pattern (bytes ++ more) = some content := by
  induction bytes generalizing content with
  | nil =>
      rw [before?] at h
      split at h
      · rename_i hempty
        rw [List.nil_append]
        cases more with
        | nil => rw [before?, if_pos hempty, h]
        | cons byte rest =>
            rw [before?, if_pos (by simp [List.isEmpty_iff.mp hempty]), h]
      · contradiction
  | cons byte rest ih =>
      rw [List.cons_append, before?]
      rw [before?] at h
      split at h
      · rename_i hfound
        have hprefix := List.isPrefixOf_iff_prefix.mp hfound
        have hlonger : pattern <+: byte :: (rest ++ more) :=
          hprefix.trans (List.prefix_append (byte :: rest) more)
        rw [if_pos (List.isPrefixOf_iff_prefix.mpr hlonger), h]
      · rename_i hnot
        obtain ⟨later, hlater, rfl⟩ := Option.map_eq_some_iff.mp h
        -- The pattern that is found later fits into what is there, so it does not begin here.
        have hfits : pattern.length ≤ (byte :: rest).length := by
          have hlength := (before?_begins hlater).length_le
          rw [List.length_append] at hlength
          rw [List.length_cons]
          omega
        have hnone : ¬ pattern.isPrefixOf (byte :: (rest ++ more)) = true := by
          intro hfound
          refine hnot (List.isPrefixOf_iff_prefix.mpr ?_)
          exact List.prefix_of_prefix_length_le (List.isPrefixOf_iff_prefix.mp hfound)
            (List.prefix_append (byte :: rest) more) hfits
        rw [if_neg hnone, ih hlater, Option.map_some]

theorem mem_of_before? {pattern content : List UInt8} {byte : UInt8}
    (h : before? pattern bytes = some content) (hbyte : byte ∈ pattern) : byte ∈ bytes :=
  (before?_begins h).subset (List.mem_append_right _ hbyte)

/-- Bytes among which one is not in a pattern are more than the pattern or do not begin it. -/
theorem isPrefixOf_append_of_mem {pattern : List UInt8} {byte : UInt8} (h : byte ∈ bytes)
    (hbyte : byte ∉ pattern) (more : List UInt8) :
    pattern.isPrefixOf (bytes ++ more) = pattern.isPrefixOf bytes := by
  rw [Bool.eq_iff_iff, List.isPrefixOf_iff_prefix, List.isPrefixOf_iff_prefix]
  constructor
  · intro hlonger
    rcases List.prefix_or_prefix_of_prefix hlonger (List.prefix_append bytes more) with
      hfound | hinside
    · exact hfound
    · exact absurd (hinside.subset h) hbyte
  · exact fun hfound => hfound.trans (List.prefix_append bytes more)

namespace Tag

theorem content_append {quote : Option Quote} {content : List UInt8}
    (h : Tag.content quote bytes = .ok content) (more : List UInt8) :
    Tag.content quote (bytes ++ more) = .ok content := by
  induction bytes generalizing quote content with
  | nil => cases quote <;> contradiction
  | cons byte rest ih =>
      have hmap {inner : Option Quote}
          (hinner : (Tag.content inner rest).map (byte :: ·) = .ok content) :
          (Tag.content inner (rest ++ more)).map (byte :: ·) = .ok content := by
        cases hfound : Tag.content inner rest with
        | error open? =>
            rw [hfound] at hinner
            contradiction
        | ok found =>
            rw [hfound] at hinner
            rw [ih hfound]
            exact hinner
      cases quote with
      | none =>
          rw [List.cons_append, Tag.content]
          rw [Tag.content] at h
          split at h
          · rename_i hbracket
            rw [if_pos hbracket, h]
          · rename_i hother
            rw [if_neg hother]
            exact hmap h
      | some quote =>
          rw [List.cons_append, Tag.content]
          rw [Tag.content] at h
          exact hmap h

theorem length_content {quote : Option Quote} {content : List UInt8}
    (h : Tag.content quote bytes = .ok content) : content.length < bytes.length := by
  induction bytes generalizing quote content with
  | nil => cases quote <;> contradiction
  | cons byte rest ih =>
      have hmap {inner : Option Quote}
          (hinner : (Tag.content inner rest).map (byte :: ·) = .ok content) :
          content.length < (byte :: rest).length := by
        cases hfound : Tag.content inner rest with
        | error open? =>
            rw [hfound] at hinner
            contradiction
        | ok found =>
            rw [hfound] at hinner
            rw [← Except.ok.inj hinner]
            exact Nat.succ_lt_succ (ih hfound)
      cases quote with
      | none =>
          rw [Tag.content] at h
          split at h
          · rw [← Except.ok.inj h]
            exact Nat.succ_pos _
          · exact hmap h
      | some quote =>
          rw [Tag.content] at h
          exact hmap h

end Tag

namespace Doctype

theorem opening_append (h : byteOf '>' ∈ bytes) (more : List UInt8) :
    opening (bytes ++ more) = opening bytes := by
  have hpattern (text : String) (hbyte : byteOf '>' ∉ encode text) :
      (encode text).isPrefixOf (bytes ++ more) = (encode text).isPrefixOf bytes :=
    isPrefixOf_append_of_mem h hbyte more
  have hdeclaration :
      (quotedDeclarations.any fun name => (encode name).isPrefixOf (bytes ++ more)) =
        quotedDeclarations.any fun name => (encode name).isPrefixOf bytes := by
    simp only [quotedDeclarations, List.any_cons, List.any_nil]
    rw [hpattern "!ENTITY" (by decide), hpattern "!ATTLIST" (by decide),
      hpattern "!NOTATION" (by decide)]
  rw [opening, opening, hpattern "?" (by decide), hpattern "!--" (by decide), hdeclaration]

/-- What follows a byte matters only where a declaration opens. -/
theorem Position.next_congr (position : Position) (byte : UInt8) {rest other : List UInt8}
    (h : opening rest = opening other) : position.next byte rest = position.next byte other := by
  cases position <;> simp only [Position.next, h]

theorem Position.next_eq_none {position : Position} {byte : UInt8} {rest : List UInt8}
    (h : position.next byte rest = none) :
    byte = byteOf '>' ∧ ∀ other, position.next byte other = none := by
  cases position with
  | head quote =>
      simp only [Position.next] at h ⊢
      split at h
      · rename_i hends
        simp only [Bool.and_eq_true, decide_eq_true_eq] at hends
        simp [hends]
      · split at h <;> contradiction
  | tail =>
      simp only [Position.next] at h ⊢
      split at h
      · rename_i hends
        simp [hends]
      · contradiction
  | unquoted => contradiction
  | quoted quote | instruction mark =>
      simp only [Position.next] at h
      split at h <;> contradiction
  | subset | comment dashes =>
      simp only [Position.next] at h
      split at h
      · contradiction
      · split at h <;> contradiction

/-- The byte that ends a declaration is a bracket. -/
theorem getElem?_lengthFrom {position : Position} {skip length : Nat}
    (h : lengthFrom position skip bytes = some length) : bytes[length]? = some (byteOf '>') := by
  induction bytes generalizing position skip length with
  | nil => contradiction
  | cons byte rest ih =>
      cases skip with
      | succ skip =>
          obtain ⟨later, hlater, rfl⟩ := Option.map_eq_some_iff.mp h
          exact ih hlater
      | zero =>
          rw [lengthFrom] at h
          split at h
          · rename_i hends
            rw [← Option.some.inj h, (Position.next_eq_none hends).1]
            rfl
          · obtain ⟨later, hlater, rfl⟩ := Option.map_eq_some_iff.mp h
            exact ih hlater

theorem lengthFrom_append {position : Position} {skip length : Nat}
    (h : lengthFrom position skip bytes = some length) (more : List UInt8) :
    lengthFrom position skip (bytes ++ more) = some length := by
  induction bytes generalizing position skip length with
  | nil => contradiction
  | cons byte rest ih =>
      rw [List.cons_append]
      cases skip with
      | succ skip =>
          obtain ⟨later, hlater, rfl⟩ := Option.map_eq_some_iff.mp h
          rw [lengthFrom, ih hlater, Option.map_some]
      | zero =>
          rw [lengthFrom] at h ⊢
          cases hnext : position.next byte rest with
          | none =>
              rw [hnext] at h
              rw [(Position.next_eq_none hnext).2]
              exact h
          | some next =>
              rw [hnext] at h
              obtain ⟨later, hlater, rfl⟩ := Option.map_eq_some_iff.mp h
              have hbracket : byteOf '>' ∈ rest :=
                List.mem_of_getElem? (getElem?_lengthFrom hlater)
              rw [position.next_congr byte (opening_append hbracket more), hnext]
              simp only [ih hlater, Option.map_some]

end Doctype

namespace Lexeme

/-- What is cut off an input that breaks off after so many bytes, beside what is cut off it when it
goes on: nothing, or the same. -/
inductive Cut.Stands (size : Nat) : Cut → Cut → Prop where
  | unreadable (late : Cut) : Stands size (.error .unreadable) late
  | fault (cause : Fault) (offset examined : Nat) (h : offset ≤ size) :
      Stands size (.error (.fault cause offset examined)) (.error (.fault cause offset examined))
  | piece (lexeme : Lexeme) (length : Nat) (h : length ≤ size) :
      Stands size (.ok (lexeme, length)) (.ok (lexeme, length))

open Cut.Stands

theorem stands_cutText (bytes more : List UInt8) :
    Cut.Stands bytes.length (cutText .failed bytes) (cutText ending (bytes ++ more)) := by
  have hle : (bytes.takeWhile fun byte => !isDelimiter byte).length ≤ bytes.length :=
    (List.takeWhile_prefix _).length_le
  rw [cutText, cutText, List.takeWhile_append]
  by_cases hwhole : (bytes.takeWhile fun byte => !isDelimiter byte).length = bytes.length
  · simp only [hwhole, decide_true, Bool.and_true, if_true]
    exact unreadable _
  · have hlonger : ¬ (bytes.takeWhile fun byte => !isDelimiter byte).length =
        (bytes ++ more).length := by
      rw [List.length_append]
      omega
    simp only [hwhole, hlonger, decide_false, Bool.false_and, Bool.false_eq_true, if_false]
    exact piece _ _ hle

theorem stands_cutReference (rest more : List UInt8) :
    Cut.Stands (rest.length + 1) (cutReference .failed rest)
      (cutReference ending (rest ++ more)) := by
  have hle : (rest.takeWhile fun byte => !isDelimiter byte && byte != byteOf ';').length ≤
      rest.length := (List.takeWhile_prefix _).length_le
  rw [cutReference, cutReference, List.takeWhile_append]
  by_cases hwhole :
      (rest.takeWhile fun byte => !isDelimiter byte && byte != byteOf ';').length = rest.length
  · simp only [hwhole, List.drop_length]
    exact unreadable _
  · simp only [hwhole, if_false]
    rw [List.drop_append_of_le_length hle]
    cases hdrop : rest.drop
        (rest.takeWhile fun byte => !isDelimiter byte && byte != byteOf ';').length with
    | nil =>
        rw [List.drop_eq_nil_iff] at hdrop
        omega
    | cons byte later =>
        simp only [List.cons_append]
        split
        · exact piece _ _ (by omega)
        · exact fault _ _ _ (Nat.zero_le _)

theorem stands_cutTag (opening : Nat) (lexeme : List UInt8 → Lexeme) (rest more : List UInt8) :
    Cut.Stands (opening + rest.length) (cutTag .failed opening lexeme rest)
      (cutTag ending opening lexeme (rest ++ more)) := by
  rw [cutTag, cutTag]
  cases hcontent : Tag.content none rest with
  | error quote => cases quote <;> exact unreadable _
  | ok content =>
      rw [Tag.content_append hcontent]
      have hlength := Tag.length_content hcontent
      exact piece _ _ (by omega)

theorem stands_cutComment (bytes more : List UInt8) :
    Cut.Stands bytes.length (cutComment .failed bytes) (cutComment ending (bytes ++ more)) := by
  rw [cutComment, cutComment]
  cases hcontent : before? (encode "-->") (bytes.drop 4) with
  | none => exact unreadable _
  | some content =>
      have hlength := (before?_begins hcontent).length_le
      have hpattern : (encode "-->").length = 3 := by decide
      rw [List.length_append, List.length_drop, hpattern] at hlength
      have hbracket : byteOf '>' ∈ bytes :=
        List.mem_of_mem_drop (mem_of_before? hcontent (by decide))
      rw [List.drop_append, before?_append hcontent,
        isPrefixOf_append_of_mem hbracket (by decide)]
      simp only
      split
      · exact piece _ _ (by omega)
      · exact fault _ _ _ (Nat.zero_le _)

theorem stands_cutCharacterData (bytes more : List UInt8) :
    Cut.Stands bytes.length (cutCharacterData .failed bytes)
      (cutCharacterData ending (bytes ++ more)) := by
  rw [cutCharacterData, cutCharacterData]
  cases hcontent : before? (encode "]]>") bytes with
  | none => exact unreadable _
  | some content =>
      have hlength := (before?_begins hcontent).length_le
      have hpattern : (encode "]]>").length = 3 := by decide
      rw [List.length_append, hpattern] at hlength
      have hbracket : byteOf '>' ∈ bytes := mem_of_before? hcontent (by decide)
      rw [before?_append hcontent, isPrefixOf_append_of_mem hbracket (by decide)]
      simp only
      split
      · exact piece _ _ hlength
      · exact fault _ _ _ (Nat.zero_le _)

theorem stands_cutDoctype (bytes more : List UInt8) :
    Cut.Stands bytes.length (cutDoctype .failed bytes) (cutDoctype ending (bytes ++ more)) := by
  rw [cutDoctype, cutDoctype, Doctype.length?, Doctype.length?]
  cases hlength : Doctype.lengthFrom (.head none) 0 (bytes.drop 2) with
  | none => exact unreadable _
  | some length =>
      obtain ⟨hbound, -⟩ := List.getElem?_eq_some_iff.mp (Doctype.getElem?_lengthFrom hlength)
      rw [List.drop_append, Doctype.lengthFrom_append hlength]
      simp only [List.take_append_of_le_length (Nat.le_of_lt hbound)]
      rw [List.length_drop] at hbound
      split
      · split
        · exact fault _ _ _ (by omega)
        · exact piece _ _ (by omega)
      · exact fault _ _ _ (Nat.zero_le _)

theorem stands_cutInstruction (rest more : List UInt8) :
    Cut.Stands (rest.length + 1) (cutInstruction .failed rest)
      (cutInstruction ending (rest ++ more)) := by
  rw [cutInstruction, cutInstruction]
  cases hcontent : before? (encode "?>") rest with
  | none => exact unreadable _
  | some content =>
      have hlength := (before?_begins hcontent).length_le
      have hpattern : (encode "?>").length = 2 := by decide
      rw [List.length_append, hpattern] at hlength
      rw [before?_append hcontent]
      cases content with
      | nil => exact fault _ _ _ (Nat.zero_le _)
      | cons byte content => exact piece _ _ (by omega)

theorem stands_cutDeclaration (bytes more : List UInt8) :
    Cut.Stands bytes.length (cutDeclaration .failed bytes)
      (cutDeclaration ending (bytes ++ more)) := by
  rw [cutDeclaration, cutDeclaration, List.drop_append]
  cases hrest : bytes.drop 2 with
  | nil => exact unreadable _
  | cons byte rest =>
      simp only [List.cons_append]
      split
      · exact stands_cutCharacterData bytes more
      split
      · exact stands_cutComment bytes more
      split
      · exact stands_cutDoctype bytes more
      · exact fault _ _ _ (Nat.zero_le _)

theorem stands_cutMarkup (bytes more : List UInt8) :
    Cut.Stands bytes.length (cutMarkup .failed bytes) (cutMarkup ending (bytes ++ more)) := by
  rw [cutMarkup, cutMarkup, List.drop_append]
  cases hrest : bytes.drop 1 with
  | nil => exact unreadable _
  | cons byte rest =>
      have hdropped := congrArg List.length hrest
      rw [List.length_drop] at hdropped
      have hinside : bytes.length = (byte :: rest).length + 1 := by
        rw [List.length_cons] at hdropped ⊢
        omega
      have hlength : bytes.length = 2 + rest.length := by
        rw [hinside, List.length_cons]
        omega
      have hmore : more.drop (1 - bytes.length) = more := by
        rw [hlength, Nat.sub_eq_zero_of_le (by omega), List.drop_zero]
      rw [hmore]
      simp only [List.cons_append]
      split
      · rw [hlength]
        exact stands_cutTag 2 .endTag rest more
      split
      · exact stands_cutDeclaration bytes more
      split
      · rw [hinside]
        exact stands_cutInstruction (byte :: rest) more
      · rw [hinside, Nat.add_comm]
        exact stands_cutTag 1 .startTag (byte :: rest) more

/-- A piece or a fault at the front of an input that breaks off is there whatever follows. -/
theorem stands_cut (bytes more : List UInt8) :
    Cut.Stands bytes.length (cut .failed bytes) (cut ending (bytes ++ more)) := by
  cases bytes with
  | nil => exact unreadable _
  | cons byte rest =>
      rw [List.cons_append, cut, cut]
      split
      · exact stands_cutMarkup (byte :: rest) more
      split
      · exact stands_cutReference rest more
      · exact stands_cutText (byte :: rest) more

end Lexeme

namespace Progress

/-- A fault that a piece makes lies no farther than the piece reaches. -/
theorem offset_le_of_take {progress : Progress} {start stop : Nat} {lexeme : Lexeme}
    (hle : start ≤ stop) {cause : Fault} {offset examined : Nat}
    (h : (progress.take start stop lexeme).result = .error (.fault cause offset examined)) :
    offset ≤ stop := by
  have hhalt {fault : Fault} {place looked : Nat} (hplace : place ≤ stop)
      (herror : (Except.error (Halt.fault fault place looked) : Except Halt Progress) =
        .error (.fault cause offset examined)) : offset ≤ stop := by
    obtain ⟨-, rfl, -⟩ := Halt.fault.inj (Except.error.inj herror)
    exact hplace
  have htext {raw : List UInt8} {stop' examined' : Nat} (hstop : stop' ≤ stop)
      (herror : (progress.takeText raw stop' examined').result =
        .error (.fault cause offset examined)) : offset ≤ stop := by
    rw [takeText] at herror
    split at herror
    · exact hhalt hstop herror
    · split at herror
      · exact hhalt hstop herror
      · contradiction
  cases lexeme with
  | text raw => exact htext (Nat.le_refl _) h
  | characterData raw => exact htext (Nat.le_refl _) h
  | aside => contradiction
  | reference raw =>
      rw [take] at h
      rcases progress.takeReference_cases raw stop with ⟨char, hstep⟩ | ⟨fault, hstep⟩
      · rw [hstep] at h
        contradiction
      · rw [hstep] at h
        exact hhalt (Nat.le_refl _) h
  | startTag content =>
      rw [take, takeStart] at h
      split at h
      · exact hhalt (Nat.le_refl _) h
      · dsimp only at h
        split at h
        · exact hhalt (Nat.le_refl _) h
        · split at h <;> contradiction
  | endTag content =>
      rw [take, takeEnd] at h
      split at h
      · exact hhalt hle h
      · split at h
        · contradiction
        · exact hhalt hle h

end Progress

/-- What is read of an input that breaks off, beside what is read of it when it goes on: a part of
the events, or all of them and a fault that lies in what both have. -/
inductive Stands (limit : Nat) : List Event × Option Halt → List Event × Option Halt → Prop where
  | unreadable (events : List Event) (late : List Event × Option Halt) (h : events <+: late.1) :
      Stands limit (events, some .unreadable) late
  | fault (events : List Event) (cause : Fault) (offset examined : Nat) (h : offset ≤ limit) :
      Stands limit (events, some (.fault cause offset examined))
        (events, some (.fault cause offset examined))

namespace Stands

variable {limit : Nat} {early late : List Event × Option Halt}

theorem mono {further : Nat} (h : Stands limit early late) (hle : limit ≤ further) :
    Stands further early late := by
  cases h with
  | unreadable events late h => exact .unreadable events late h
  | fault events cause offset examined h => exact .fault _ _ _ _ (h.trans hle)

theorem prepend (h : Stands limit early late) (events : List Event) :
    Stands limit (events ++ early.1, early.2) (events ++ late.1, late.2) := by
  cases h with
  | unreadable found late h =>
      exact .unreadable _ _ ((List.prefix_append_right_inj events).mpr h)
  | fault found cause offset examined h => exact .fault _ _ _ _ h

end Stands

theorem stands_readFrom {broken : Ending} (hbroken : broken = .failed) (ending : Ending)
    (progress : Progress) (offset : Nat) (bytes more : List UInt8) :
    Stands (offset + bytes.length) (readFrom broken progress offset bytes)
      (readFrom ending progress offset (bytes ++ more)) := by
  have hfront (byte : UInt8) (bytes : List UInt8) :
      Lexeme.Cut.Stands (byte :: bytes).length (Lexeme.cut broken (byte :: bytes))
        (Lexeme.cut ending (byte :: (bytes ++ more))) := by
    rw [hbroken, ← List.cons_append]
    exact Lexeme.stands_cut (byte :: bytes) more
  fun_induction readFrom broken progress offset bytes with
  | case1 progress offset hfailed => exact .unreadable _ _ List.nil_prefix
  | case2 progress offset hcomplete =>
      rw [hbroken] at hcomplete
      contradiction
  | case3 progress offset byte bytes halt hcut =>
      have hstands := hfront byte bytes
      rw [hcut] at hstands
      rw [List.cons_append, readFrom]
      generalize Lexeme.cut ending (byte :: (bytes ++ more)) = late at hstands ⊢
      cases hstands with
      | unreadable late => exact .unreadable _ _ List.nil_prefix
      | fault cause place examined hplace =>
          exact .fault _ _ _ _ (Nat.add_le_add_left hplace offset)
  | case4 progress offset byte bytes lexeme length hcut events halt htake =>
      have hstands := hfront byte bytes
      rw [hcut] at hstands
      rw [List.cons_append, readFrom]
      generalize Lexeme.cut ending (byte :: (bytes ++ more)) = late at hstands ⊢
      cases hstands with
      | piece lexeme length hlength =>
          simp only [htake]
          obtain ⟨cause, place, examined, rfl⟩ :=
            progress.faulty_take offset (offset + length) lexeme halt (by rw [htake])
          have hplace := Progress.offset_le_of_take (Nat.le_add_right offset length)
            (by rw [htake])
          exact .fault _ _ _ _ (hplace.trans (Nat.add_le_add_left hlength offset))
  | case5 progress offset byte bytes lexeme length hcut events next htake later halt hread ih =>
      have hstands := hfront byte bytes
      rw [hcut] at hstands
      rw [List.cons_append, readFrom]
      generalize Lexeme.cut ending (byte :: (bytes ++ more)) = late at hstands ⊢
      cases hstands with
      | piece lexeme length hlength =>
          simp only [htake]
          rw [List.length_cons] at hlength
          have hlimit : offset + length + (bytes.drop (length - 1)).length ≤
              offset + (byte :: bytes).length := by
            rw [List.length_drop, List.length_cons]
            omega
          rw [hread] at ih
          rw [List.drop_append_of_le_length (by omega)]
          exact (ih.mono hlimit).prepend events

theorem markLength_le (bytes : List UInt8) : markLength bytes ≤ bytes.length := by
  rw [markLength]
  split
  · rename_i hmark
    exact (List.isPrefixOf_iff_prefix.mp hmark).length_le
  · exact Nat.zero_le _

/-- Only the first bytes of a mark leave it open whether it is one. -/
theorem markLength_append (bytes more : List UInt8) :
    markLength (bytes ++ more) = markLength bytes ∨
      bytes = [] ∨ bytes = [0xEF] ∨ bytes = [0xEF, 0xBB] := by
  by_cases hmark : byteOrderMark <+: bytes
  · left
    have hlonger := hmark.trans (List.prefix_append bytes more)
    rw [markLength, markLength, if_pos (List.isPrefixOf_iff_prefix.mpr hmark),
      if_pos (List.isPrefixOf_iff_prefix.mpr hlonger)]
  by_cases hlonger : byteOrderMark <+: bytes ++ more
  · right
    have hpart : bytes <+: byteOrderMark :=
      (List.prefix_or_prefix_of_prefix hlonger (List.prefix_append bytes more)).resolve_left hmark
    simp only [byteOrderMark, List.prefix_cons_iff, List.prefix_nil] at hpart
    obtain rfl | ⟨_, rfl, rfl | ⟨_, rfl, rfl | ⟨_, rfl, rfl⟩⟩⟩ := hpart
    · exact Or.inl rfl
    · exact Or.inr (Or.inl rfl)
    · exact Or.inr (Or.inr rfl)
    · exact absurd (List.prefix_refl _) hmark
  · left
    rw [markLength, markLength, if_neg (mt List.isPrefixOf_iff_prefix.mp hmark),
      if_neg (mt List.isPrefixOf_iff_prefix.mp hlonger)]

theorem stands_events (bytes more : List UInt8) (ending : Ending) :
    Stands bytes.length (events ⟨bytes, .failed⟩) (events ⟨bytes ++ more, ending⟩) := by
  rcases markLength_append bytes more with hmark | rfl | rfl | rfl
  · have hstands := stands_readFrom rfl ending .initial 0 (bytes.drop (markLength bytes)) more
    rw [events, events, hmark, List.drop_append_of_le_length (markLength_le bytes)]
    refine hstands.mono ?_
    rw [Nat.zero_add, List.length_drop]
    exact Nat.sub_le _ _
  · have hnone : events ⟨[], .failed⟩ = ([], some .unreadable) := by cbv
    rw [hnone]
    exact .unreadable _ _ List.nil_prefix
  · have hnone : events ⟨[0xEF], .failed⟩ = ([], some .unreadable) := by cbv
    rw [hnone]
    exact .unreadable _ _ List.nil_prefix
  · have hnone : events ⟨[0xEF, 0xBB], .failed⟩ = ([], some .unreadable) := by cbv
    rw [hnone]
    exact .unreadable _ _ List.nil_prefix

/-- What is read of an input that breaks off is the beginning of what is read of it when it goes on,
and a fault found there is the fault of both. -/
theorem read_append (bytes more : List UInt8) (ending : Ending) :
    let early := read ⟨bytes, .failed⟩
    let late := read ⟨bytes ++ more, ending⟩
    early.events <+: late.events ∧
      (early.failure = some .unreadable ∨
        early = late ∧ ∃ fault location, early.failure = some (.malformed fault location)) := by
  intro early late
  have hstands := stands_events bytes more ending
  have hearly : early = ⟨(events ⟨bytes, .failed⟩).1,
      (events ⟨bytes, .failed⟩).2.map (·.toFailure bytes)⟩ := rfl
  have hlate : late = ⟨(events ⟨bytes ++ more, ending⟩).1,
      (events ⟨bytes ++ more, ending⟩).2.map (·.toFailure (bytes ++ more))⟩ := rfl
  rw [hearly, hlate]
  generalize events ⟨bytes, .failed⟩ = found at hstands
  generalize events ⟨bytes ++ more, ending⟩ = further at hstands
  cases hstands with
  | unreadable events late h => exact ⟨h, Or.inl rfl⟩
  | fault events cause offset examined h =>
      refine ⟨List.prefix_refl _, Or.inr ⟨?_, _, _, rfl⟩⟩
      simp only [Option.map_some, Halt.toFailure, LineIndex.location_record_append h]

end Metainfo.Markup
