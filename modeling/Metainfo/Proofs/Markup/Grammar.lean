import Mathlib.Data.List.TakeWhile
import Metainfo.Proofs.Markup.Truncation

/-!
The forms of the pieces of a document. A piece is cut off the front exactly where one of these
forms stands there, and but for text the end of a form is told from the form itself.
-/

namespace Metainfo.Markup

open Metainfo.Utf8
open Metainfo.Blank

variable {bytes more : List UInt8}

/-! What ends a piece ends it wherever the input goes on or stops. -/

theorem before?_eq_some_iff {pattern content : List UInt8} :
    before? pattern bytes = some content ↔
      before? pattern (content ++ pattern) = some content ∧ content ++ pattern <+: bytes := by
  constructor
  · intro h
    refine ⟨?_, before?_begins h⟩
    induction bytes generalizing content with
    | nil =>
        rw [before?] at h
        split at h
        · rename_i hempty
          rw [← Option.some.inj h, List.isEmpty_iff.mp hempty]
          rfl
        · contradiction
    | cons byte rest ih =>
        rw [before?] at h
        split at h
        · rw [← Option.some.inj h, List.nil_append]
          cases pattern with
          | nil => rfl
          | cons first others =>
              rw [before?, if_pos (List.isPrefixOf_iff_prefix.mpr (List.prefix_refl _))]
        · rename_i hnot
          obtain ⟨later, hlater, rfl⟩ := Option.map_eq_some_iff.mp h
          have hnone : ¬ pattern.isPrefixOf (byte :: (later ++ pattern)) = true := fun hfound =>
            hnot (List.isPrefixOf_iff_prefix.mpr ((List.isPrefixOf_iff_prefix.mp hfound).trans
              (List.cons_prefix_cons.mpr ⟨rfl, before?_begins hlater⟩)))
          rw [List.cons_append, before?, if_neg hnone, ih hlater, Option.map_some]
  · rintro ⟨h, rest, rfl⟩
    exact before?_append h rest

theorem Tag.content_eq_ok_iff {quote : Option Quote} {content : List UInt8} :
    Tag.content quote bytes = .ok content ↔
      Tag.content quote (content ++ [byteOf '>']) = .ok content ∧
        content ++ [byteOf '>'] <+: bytes := by
  constructor
  · intro h
    induction bytes generalizing quote content with
    | nil => cases quote <;> contradiction
    | cons byte rest ih =>
        have hmap {inner : Option Quote}
            (hinner : (Tag.content inner rest).map (byte :: ·) = .ok content) :
            ∃ found, content = byte :: found ∧
              Tag.content inner (found ++ [byteOf '>']) = .ok found ∧
                found ++ [byteOf '>'] <+: rest := by
          cases hfound : Tag.content inner rest with
          | error open? =>
              rw [hfound] at hinner
              contradiction
          | ok found =>
              rw [hfound] at hinner
              exact ⟨found, (Except.ok.inj hinner).symm, ih hfound⟩
        cases quote with
        | none =>
            rw [Tag.content] at h
            split at h
            · rename_i hbracket
              rw [← Except.ok.inj h, hbracket]
              exact ⟨rfl, List.cons_prefix_cons.mpr ⟨rfl, List.nil_prefix⟩⟩
            · rename_i hother
              obtain ⟨found, rfl, hfound, hprefix⟩ := hmap h
              refine ⟨?_, List.cons_prefix_cons.mpr ⟨rfl, hprefix⟩⟩
              rw [List.cons_append, Tag.content, if_neg hother, hfound]
              rfl
        | some quote =>
            rw [Tag.content] at h
            obtain ⟨found, rfl, hfound, hprefix⟩ := hmap h
            refine ⟨?_, List.cons_prefix_cons.mpr ⟨rfl, hprefix⟩⟩
            rw [List.cons_append, Tag.content, hfound]
            rfl
  · rintro ⟨h, rest, rfl⟩
    exact Tag.content_append h rest

theorem Doctype.lengthFrom_eq_some_iff {position : Position} {skip length : Nat} :
    lengthFrom position skip bytes = some length ↔
      lengthFrom position skip (bytes.take (length + 1)) = some length := by
  constructor
  · intro h
    induction bytes generalizing position skip length with
    | nil => contradiction
    | cons byte rest ih =>
        cases skip with
        | succ skip =>
            obtain ⟨later, hlater, rfl⟩ := Option.map_eq_some_iff.mp h
            rw [List.take_succ_cons, lengthFrom, ih hlater, Option.map_some]
        | zero =>
            rw [lengthFrom] at h
            cases hnext : position.next byte rest with
            | none =>
                rw [hnext] at h
                obtain rfl := Option.some.inj h
                rw [List.take_succ_cons, lengthFrom, (Position.next_eq_none hnext).2]
            | some next =>
                rw [hnext] at h
                obtain ⟨later, hlater, rfl⟩ := Option.map_eq_some_iff.mp h
                have hbracket : byteOf '>' ∈ rest.take (later + 1) :=
                  List.mem_of_getElem? (getElem?_lengthFrom (ih hlater))
                have hopening : opening (rest.take (later + 1)) = opening rest := by
                  rw [← opening_append hbracket (rest.drop (later + 1)), List.take_append_drop]
                rw [List.take_succ_cons, lengthFrom, position.next_congr byte hopening, hnext]
                simp only [ih hlater, Option.map_some]
  · intro h
    have happend := lengthFrom_append h (bytes.drop (length + 1))
    rwa [List.take_append_drop] at happend

namespace Lexeme

/-- The forms of pieces. What a form contains does not hold what ends it. -/
inductive Writes : Lexeme → List UInt8 → Prop
  | text (raw : List UInt8) (hne : raw ≠ [])
      (hraw : raw.all (fun byte => !isDelimiter byte) = true) : Writes (.text raw) raw
  | reference (raw : List UInt8)
      (hraw : raw.all (fun byte => !isDelimiter byte && byte != byteOf ';') = true) :
      Writes (.reference raw) (encode "&" ++ raw ++ encode ";")
  | startTag (content : List UInt8)
      (hcontent : Tag.content none (content ++ encode ">") = .ok content)
      (hfirst : ∀ byte ∈ content.head?, byte ∉ encode "/!?") :
      Writes (.startTag content) (encode "<" ++ content ++ encode ">")
  | endTag (content : List UInt8)
      (hcontent : Tag.content none (content ++ encode ">") = .ok content) :
      Writes (.endTag content) (encode "</" ++ content ++ encode ">")
  | characterData (raw : List UInt8)
      (hraw : before? (encode "]]>") (raw ++ encode "]]>") = some raw) :
      Writes (.characterData raw) (encode "<![CDATA[" ++ raw ++ encode "]]>")
  | comment (content : List UInt8)
      (hcontent : before? (encode "-->") (content ++ encode "-->") = some content) :
      Writes .aside (encode "<!--" ++ content ++ encode "-->")
  | instruction (content : List UInt8)
      (hcontent : before? (encode "?>") (encode "?" ++ content ++ encode "?>") =
        some (encode "?" ++ content)) :
      Writes .aside (encode "<?" ++ content ++ encode "?>")
  | doctype (content : List UInt8)
      (hcontent : Doctype.length? (content ++ encode ">") = some content.length)
      (hkeyword : isCapitalized "DOCTYPE" (content.take 7) = true)
      (hname : (content.drop 7).all isSpace = false) :
      Writes .aside (encode "<!" ++ content ++ encode ">")

def isText : Lexeme → Bool
  | .text _ => true
  | _ => false

/-- Text goes on to the next delimiter, and all else ends with itself. -/
def EndsBefore (lexeme : Lexeme) (rest : List UInt8) : Prop :=
  lexeme.isText = true → ∀ byte ∈ rest.head?, isDelimiter byte = true

/-- Bytes begin with a piece of so many bytes. -/
def Begins (lexeme : Lexeme) (length : Nat) (bytes : List UInt8) : Prop :=
  ∃ written rest, bytes = written ++ rest ∧ length = written.length ∧
    lexeme.Writes written ∧ lexeme.EndsBefore rest

theorem length_delimited (opening content closing : List UInt8) :
    (opening ++ content ++ closing).length =
      content.length + (opening.length + closing.length) := by
  rw [List.length_append, List.length_append]
  omega

/-! What is cut off is one of the forms. -/

theorem begins_cutText {byte : UInt8} {rest : List UInt8} (hbyte : isDelimiter byte = false)
    {lexeme : Lexeme} {length : Nat} (h : cutText .complete (byte :: rest) = .ok (lexeme, length)) :
    lexeme.Begins length (byte :: rest) := by
  rw [cutText, if_neg (by simp)] at h
  obtain ⟨rfl, rfl⟩ := Prod.mk.inj (Except.ok.inj h)
  refine ⟨_, _, (List.takeWhile_append_dropWhile (p := fun byte => !isDelimiter byte)).symm, rfl,
    .text _ ?_ List.all_takeWhile, ?_⟩
  · rw [List.takeWhile_cons_of_pos (by simp [hbyte])]
    exact List.cons_ne_nil _ _
  · intro _ other hother
    have hnot := List.head?_dropWhile_not (fun byte => !isDelimiter byte) (byte :: rest)
    rw [hother] at hnot
    simpa using hnot

theorem begins_cutReference {rest : List UInt8} {lexeme : Lexeme} {length : Nat}
    (h : cutReference .complete rest = .ok (lexeme, length)) :
    lexeme.Begins length (byteOf '&' :: rest) := by
  rw [cutReference] at h
  generalize hraw : rest.takeWhile (fun byte => !isDelimiter byte && byte != byteOf ';') = raw at h
  have hrest : raw <+: rest := hraw ▸ List.takeWhile_prefix _
  obtain ⟨after, rfl⟩ := hrest
  rw [List.drop_left] at h
  cases after with
  | nil => contradiction
  | cons byte more =>
      dsimp only at h
      split at h
      · rename_i hend
        obtain ⟨rfl, rfl⟩ := Prod.mk.inj (Except.ok.inj h)
        refine ⟨_, more, ?_, ?_, .reference raw ?_, fun htext => by contradiction⟩
        · rw [hend, List.append_assoc, List.append_assoc]
          rfl
        · rw [length_delimited]
          rfl
        · rw [← hraw]
          exact List.all_takeWhile
      · contradiction

theorem begins_cutTag (opening : List UInt8) {kind : List UInt8 → Lexeme} {rest : List UInt8}
    {lexeme : Lexeme} {length : Nat}
    (hwrites : ∀ content, Tag.content none (content ++ encode ">") = .ok content →
      content ++ encode ">" <+: rest →
        (kind content).Writes (opening ++ content ++ encode ">") ∧ (kind content).isText = false)
    (h : cutTag .complete opening.length kind rest = .ok (lexeme, length)) :
    lexeme.Begins length (opening ++ rest) := by
  rw [cutTag] at h
  split at h
  · rename_i content hcontent
    obtain ⟨rfl, rfl⟩ := Prod.mk.inj (Except.ok.inj h)
    obtain ⟨hends, hprefix⟩ := Tag.content_eq_ok_iff.mp hcontent
    obtain ⟨hform, hkind⟩ := hwrites content hends hprefix
    obtain ⟨more, rfl⟩ := hprefix
    refine ⟨_, more, ?_, ?_, hform, fun htext => by simp [hkind] at htext⟩
    · simp only [List.append_assoc]
      rfl
    · rw [List.length_append, List.length_append]
      rfl
  · contradiction
  · contradiction

theorem begins_cutComment {lexeme : Lexeme} {length : Nat}
    (h : cutComment .complete bytes = .ok (lexeme, length)) : lexeme.Begins length bytes := by
  rw [cutComment] at h
  split at h
  · contradiction
  · rename_i content hcontent
    split at h
    · rename_i hopen
      obtain ⟨rest, rfl⟩ := List.isPrefixOf_iff_prefix.mp hopen
      obtain ⟨rfl, rfl⟩ := Prod.mk.inj (Except.ok.inj h)
      obtain ⟨hends, more, hmore⟩ := before?_eq_some_iff.mp hcontent
      have hrest : rest = content ++ encode "-->" ++ more := hmore.symm
      refine ⟨_, more, ?_, ?_, .comment content hends, fun htext => by contradiction⟩
      · simp only [hrest, List.append_assoc]
      · rw [length_delimited]
        rfl
    · contradiction

/-- A pattern is not found where its first byte is not. -/
theorem before?_append_of_notMem {pattern : List UInt8} {first : UInt8} {front : List UInt8}
    (h : first ∉ front) (rest : List UInt8) :
    before? (first :: pattern) (front ++ rest) =
      (before? (first :: pattern) rest).map (front ++ ·) := by
  induction front with
  | nil => simp
  | cons byte front ih =>
      obtain ⟨hne, hfront⟩ := List.ne_and_not_mem_of_not_mem_cons h
      have hnone : ¬ (first :: pattern).isPrefixOf (byte :: (front ++ rest)) = true := by
        simp [hne]
      rw [List.cons_append, before?, if_neg hnone, ih hfront, Option.map_map]
      rfl

theorem begins_cutCharacterData {lexeme : Lexeme} {length : Nat}
    (h : cutCharacterData .complete bytes = .ok (lexeme, length)) :
    lexeme.Begins length bytes := by
  rw [cutCharacterData] at h
  split at h
  · contradiction
  · rename_i found hfound
    split at h
    · rename_i hopen
      obtain ⟨rest, rfl⟩ := List.isPrefixOf_iff_prefix.mp hopen
      obtain ⟨rfl, rfl⟩ := Prod.mk.inj (Except.ok.inj h)
      have hpass : before? (encode "]]>") (encode "<![CDATA[" ++ rest) =
          (before? (encode "]]>") rest).map (encode "<![CDATA[" ++ ·) :=
        before?_append_of_notMem (by decide) rest
      rw [hpass] at hfound
      obtain ⟨raw, hraw, rfl⟩ := Option.map_eq_some_iff.mp hfound
      obtain ⟨hends, more, rfl⟩ := before?_eq_some_iff.mp hraw
      have hdrop : (encode "<![CDATA[" ++ raw).drop 9 = raw := rfl
      refine ⟨_, more, ?_, ?_, .characterData _ (hdrop ▸ hends), fun htext => by contradiction⟩
      · simp only [hdrop, List.append_assoc]
      · rw [hdrop, List.length_append, List.length_append, List.length_append]
        change 9 + raw.length + 3 = 9 + raw.length + 3
        rfl
    · contradiction

theorem begins_cutDoctype {rest : List UInt8} {lexeme : Lexeme} {length : Nat}
    (h : cutDoctype .complete (encode "<!" ++ rest) = .ok (lexeme, length)) :
    lexeme.Begins length (encode "<!" ++ rest) := by
  have hdrop : (encode "<!" ++ rest).drop 2 = rest := rfl
  rw [cutDoctype, hdrop] at h
  split at h
  · contradiction
  · rename_i size hsize
    dsimp only at h
    split at h
    · rename_i hkeyword
      split at h
      · contradiction
      · rename_i hname
        obtain ⟨rfl, rfl⟩ := Prod.mk.inj (Except.ok.inj h)
        obtain ⟨hbound, hbracket⟩ :=
          List.getElem?_eq_some_iff.mp (Doctype.getElem?_lengthFrom hsize)
        have htake : rest.take (size + 1) = rest.take size ++ encode ">" := by
          rw [List.take_add_one, List.getElem?_eq_getElem hbound, hbracket]
          rfl
        have hlength : (rest.take size).length = size := List.length_take_of_le (Nat.le_of_lt hbound)
        have hends : Doctype.length? (rest.take size ++ encode ">") =
            some (rest.take size).length := by
          rw [← htake, hlength]
          exact Doctype.lengthFrom_eq_some_iff.mp hsize
        refine ⟨_, rest.drop (size + 1), ?_, ?_,
          .doctype _ hends hkeyword (Bool.eq_false_iff.mpr hname), fun htext => by contradiction⟩
        · rw [List.append_assoc, List.append_assoc, ← List.append_assoc _ (encode ">"), ← htake,
            List.take_append_drop]
        · rw [length_delimited, hlength]
          rfl
    · contradiction

theorem begins_cutInstruction {rest : List UInt8} {lexeme : Lexeme} {length : Nat}
    (h : cutInstruction .complete (encode "?" ++ rest) = .ok (lexeme, length)) :
    lexeme.Begins length (encode "<?" ++ rest) := by
  rw [cutInstruction] at h
  split at h
  · contradiction
  · contradiction
  · rename_i found hnone hfound
    obtain ⟨rfl, rfl⟩ := Prod.mk.inj (Except.ok.inj h)
    obtain ⟨hends, more, hmore⟩ := before?_eq_some_iff.mp hfound
    cases found with
    | nil => exact absurd rfl hnone
    | cons mark content =>
        obtain ⟨rfl, hrest⟩ := List.cons.inj hmore
        refine ⟨_, more, ?_, ?_, .instruction content hends, fun htext => by contradiction⟩
        · have hwhole : rest = content ++ encode "?>" ++ more := hrest.symm
          simp only [hwhole, List.append_assoc]
        · rw [length_delimited]
          rfl

theorem begins_cutDeclaration (rest : List UInt8) {lexeme : Lexeme} {length : Nat}
    (h : cutDeclaration .complete (encode "<!" ++ rest) = .ok (lexeme, length)) :
    lexeme.Begins length (encode "<!" ++ rest) := by
  have hdrop : (encode "<!" ++ rest).drop 2 = rest := rfl
  rw [cutDeclaration, hdrop] at h
  cases rest with
  | nil => contradiction
  | cons byte rest =>
      dsimp only at h
      split at h
      · exact begins_cutCharacterData h
      split at h
      · exact begins_cutComment h
      split at h
      · exact begins_cutDoctype h
      · contradiction

theorem begins_cutMarkup {rest : List UInt8} {lexeme : Lexeme} {length : Nat}
    (h : cutMarkup .complete (encode "<" ++ rest) = .ok (lexeme, length)) :
    lexeme.Begins length (encode "<" ++ rest) := by
  have hdrop : (encode "<" ++ rest).drop 1 = rest := rfl
  rw [cutMarkup, hdrop] at h
  cases rest with
  | nil => contradiction
  | cons byte rest =>
      dsimp only at h
      split at h
      · rename_i hslash
        rw [hslash]
        refine begins_cutTag (encode "</") (fun content hcontent _ => ?_) h
        exact ⟨.endTag content hcontent, rfl⟩
      rename_i hslash
      split at h
      · rename_i hdeclaration
        rw [hdeclaration] at h ⊢
        exact begins_cutDeclaration rest h
      rename_i hdeclaration
      split at h
      · rename_i hinstruction
        rw [hinstruction] at h ⊢
        exact begins_cutInstruction h
      · rename_i hinstruction
        refine begins_cutTag (encode "<") (fun content hcontent hprefix => ?_) h
        refine ⟨.startTag content hcontent fun first hfirst => ?_, rfl⟩
        obtain ⟨others, rfl⟩ := List.head?_eq_some_iff.mp hfirst
        obtain rfl := (List.cons_prefix_cons.mp hprefix).1
        change first ∉ [byteOf '/', byteOf '!', byteOf '?']
        simp [hslash, hdeclaration, hinstruction]

theorem begins_cut {lexeme : Lexeme} {length : Nat}
    (h : cut .complete bytes = .ok (lexeme, length)) : lexeme.Begins length bytes := by
  cases bytes with
  | nil => contradiction
  | cons byte rest =>
      rw [cut] at h
      split at h
      · rename_i hopen
        rw [hopen] at h ⊢
        exact begins_cutMarkup h
      · rename_i hopen
        split at h
        · rename_i hreference
          rw [hreference]
          exact begins_cutReference h
        · rename_i hreference
          exact begins_cutText (by simp [isDelimiter, hopen, hreference]) h

/-! Each of the forms is cut off, whatever follows it. -/

theorem cut_text {raw rest : List UInt8} (hne : raw ≠ [])
    (hraw : raw.all (fun byte => !isDelimiter byte) = true) (hrest : (text raw).EndsBefore rest) :
    cut .complete (raw ++ rest) = .ok (.text raw, raw.length) := by
  have htake : (raw ++ rest).takeWhile (fun byte => !isDelimiter byte) = raw := by
    have hnone : rest.takeWhile (fun byte => !isDelimiter byte) = [] := by
      cases rest with
      | nil => rfl
      | cons byte rest => exact List.takeWhile_cons_of_neg (by simp [hrest rfl byte rfl])
    rw [List.takeWhile_append_of_pos (List.all_eq_true.mp hraw), hnone, List.append_nil]
  cases raw with
  | nil => contradiction
  | cons byte raw =>
      have hbyte := List.all_eq_true.mp hraw byte List.mem_cons_self
      rw [Bool.not_eq_true', isDelimiter, Bool.or_eq_false_iff, decide_eq_false_iff_not,
        decide_eq_false_iff_not] at hbyte
      rw [List.cons_append, cut, if_neg hbyte.1, if_neg hbyte.2, cutText, ← List.cons_append,
        htake, if_neg (by simp)]

theorem cut_reference {raw : List UInt8}
    (hraw : raw.all (fun byte => !isDelimiter byte && byte != byteOf ';') = true)
    (rest : List UInt8) :
    cut .complete (encode "&" ++ raw ++ encode ";" ++ rest) =
      .ok (.reference raw, (encode "&" ++ raw ++ encode ";").length) := by
  have htake : (raw ++ encode ";" ++ rest).takeWhile
      (fun byte => !isDelimiter byte && byte != byteOf ';') = raw := by
    rw [List.append_assoc, List.takeWhile_append_of_pos (List.all_eq_true.mp hraw)]
    exact List.append_nil raw
  have hlength : (encode "&" ++ raw ++ encode ";").length = raw.length + 2 :=
    length_delimited _ raw _
  have hcut : cutReference .complete (raw ++ encode ";" ++ rest) =
      .ok (.reference raw, raw.length + 2) := by
    rw [cutReference, htake, List.append_assoc, List.drop_left]
    rfl
  rw [hlength, List.append_assoc, List.append_assoc, ← List.append_assoc raw]
  exact hcut

theorem cutTag_content (opening : List UInt8) {content : List UInt8}
    (hcontent : Tag.content none (content ++ encode ">") = .ok content)
    (kind : List UInt8 → Lexeme) (rest : List UInt8) :
    cutTag .complete opening.length kind (content ++ encode ">" ++ rest) =
      .ok (kind content, (opening ++ content ++ encode ">").length) := by
  have hlength : (opening ++ content ++ encode ">").length = opening.length + content.length + 1 := by
    rw [List.length_append, List.length_append]
    rfl
  rw [cutTag, Tag.content_append hcontent, hlength]

theorem cut_declaration (ending : Ending) (rest : List UInt8) :
    cut ending (encode "<!" ++ rest) = cutDeclaration ending (encode "<!" ++ rest) :=
  rfl

theorem cut_startTag {content : List UInt8}
    (hcontent : Tag.content none (content ++ encode ">") = .ok content)
    (hfirst : ∀ byte ∈ content.head?, byte ∉ encode "/!?") (rest : List UInt8) :
    cut .complete (encode "<" ++ content ++ encode ">" ++ rest) =
      .ok (.startTag content, (encode "<" ++ content ++ encode ">").length) := by
  have hcut : cutMarkup .complete (encode "<" ++ (content ++ encode ">" ++ rest)) =
      cutTag .complete 1 .startTag (content ++ encode ">" ++ rest) := by
    cases content with
    | nil => rfl
    | cons byte content =>
        have hbyte : byte ∉ [byteOf '/', byteOf '!', byteOf '?'] := hfirst byte rfl
        simp only [List.mem_cons, List.not_mem_nil, or_false, not_or] at hbyte
        obtain ⟨hslash, hmark, hquestion⟩ := hbyte
        exact (if_neg hslash).trans ((if_neg hmark).trans (if_neg hquestion))
  rw [List.append_assoc, List.append_assoc, ← List.append_assoc content]
  exact hcut.trans (cutTag_content (encode "<") hcontent .startTag rest)

theorem cut_endTag {content : List UInt8}
    (hcontent : Tag.content none (content ++ encode ">") = .ok content) (rest : List UInt8) :
    cut .complete (encode "</" ++ content ++ encode ">" ++ rest) =
      .ok (.endTag content, (encode "</" ++ content ++ encode ">").length) := by
  rw [List.append_assoc, List.append_assoc, ← List.append_assoc content]
  exact cutTag_content (encode "</") hcontent .endTag rest

theorem cut_comment {content : List UInt8}
    (hcontent : before? (encode "-->") (content ++ encode "-->") = some content)
    (rest : List UInt8) :
    cut .complete (encode "<!--" ++ content ++ encode "-->" ++ rest) =
      .ok (.aside, (encode "<!--" ++ content ++ encode "-->").length) := by
  have hlength : (encode "<!--" ++ content ++ encode "-->").length = content.length + 7 :=
    length_delimited _ content _
  have hopen : (encode "<!--").isPrefixOf (encode "<!--" ++ (content ++ encode "-->" ++ rest)) :=
    List.isPrefixOf_iff_prefix.mpr (List.prefix_append _ _)
  have hdrop : (encode "<!--" ++ (content ++ encode "-->" ++ rest)).drop 4 =
      content ++ encode "-->" ++ rest := rfl
  have hcut : cutComment .complete (encode "<!--" ++ (content ++ encode "-->" ++ rest)) =
      .ok (.aside, content.length + 7) := by
    rw [cutComment, hdrop, before?_append hcontent]
    exact if_pos hopen
  rw [hlength, List.append_assoc, List.append_assoc, ← List.append_assoc content]
  exact hcut

theorem cut_instruction {content : List UInt8}
    (hcontent : before? (encode "?>") (encode "?" ++ content ++ encode "?>") =
      some (encode "?" ++ content)) (rest : List UInt8) :
    cut .complete (encode "<?" ++ content ++ encode "?>" ++ rest) =
      .ok (.aside, (encode "<?" ++ content ++ encode "?>").length) := by
  have hlength : (encode "<?" ++ content ++ encode "?>").length = content.length + 4 :=
    length_delimited _ content _
  have hcut : cutInstruction .complete (encode "?" ++ content ++ encode "?>" ++ rest) =
      .ok (.aside, content.length + 4) := by
    rw [cutInstruction, before?_append hcontent]
    rfl
  rw [hlength]
  exact hcut

theorem head?_of_isCapitalized (h : isCapitalized "DOCTYPE" (bytes.take 7) = true) :
    ∃ byte rest, bytes = byte :: rest ∧ (byte = byteOf 'D' ∨ byte = byteOf 'd') := by
  rw [isCapitalized, List.isPrefixOf_iff_prefix] at h
  cases bytes with
  | nil => exact absurd h.length_le (by decide)
  | cons byte rest =>
      refine ⟨byte, rest, rfl, ?_⟩
      have hfirst : byteOf 'D' =
          if byteOf 'a' ≤ byte && byte ≤ byteOf 'z' then byte - 32 else byte :=
        (List.cons_prefix_cons.mp h).1
      split at hfirst
      · right
        rw [← UInt8.sub_add_cancel byte 32, ← hfirst]
        rfl
      · exact Or.inl hfirst.symm

theorem cut_doctype {content : List UInt8}
    (hcontent : Doctype.length? (content ++ encode ">") = some content.length)
    (hkeyword : isCapitalized "DOCTYPE" (content.take 7) = true)
    (hname : (content.drop 7).all isSpace = false) (rest : List UInt8) :
    cut .complete (encode "<!" ++ content ++ encode ">" ++ rest) =
      .ok (.aside, (encode "<!" ++ content ++ encode ">").length) := by
  have hlength : (encode "<!" ++ content ++ encode ">").length = content.length + 3 :=
    length_delimited _ content _
  have hdrop : (encode "<!" ++ (content ++ encode ">" ++ rest)).drop 2 =
      content ++ encode ">" ++ rest := rfl
  have htake : (content ++ encode ">" ++ rest).take content.length = content := by
    rw [List.append_assoc, List.take_left]
  have hcut : cutDoctype .complete (encode "<!" ++ (content ++ encode ">" ++ rest)) =
      .ok (.aside, content.length + 3) := by
    rw [cutDoctype, hdrop, Doctype.length?, Doctype.lengthFrom_append hcontent]
    dsimp only
    rw [htake, if_pos hkeyword, if_neg (by simp [hname])]
  rw [hlength, ← hcut, List.append_assoc, List.append_assoc, ← List.append_assoc content,
    cut_declaration]
  obtain ⟨byte, more, rfl, rfl | rfl⟩ := head?_of_isCapitalized hkeyword <;> rfl

theorem cut_characterData {raw : List UInt8}
    (hraw : before? (encode "]]>") (raw ++ encode "]]>") = some raw) (rest : List UInt8) :
    cut .complete (encode "<![CDATA[" ++ raw ++ encode "]]>" ++ rest) =
      .ok (.characterData raw, (encode "<![CDATA[" ++ raw ++ encode "]]>").length) := by
  have hopen : (encode "<![CDATA[").isPrefixOf
      (encode "<![CDATA[" ++ (raw ++ encode "]]>" ++ rest)) :=
    List.isPrefixOf_iff_prefix.mpr (List.prefix_append _ _)
  have hfound : before? (encode "]]>") (encode "<![CDATA[" ++ (raw ++ encode "]]>" ++ rest)) =
      some (encode "<![CDATA[" ++ raw) :=
    (before?_append_of_notMem (by decide) _).trans
      (congrArg (Option.map (encode "<![CDATA[" ++ ·)) (before?_append hraw rest))
  have hcut : cutCharacterData .complete (encode "<![CDATA[" ++ (raw ++ encode "]]>" ++ rest)) =
      .ok (.characterData raw, (encode "<![CDATA[" ++ raw ++ encode "]]>").length) := by
    rw [cutCharacterData, hfound]
    dsimp only
    rw [if_pos hopen]
    have hlength : (encode "<![CDATA[" ++ raw ++ encode "]]>").length =
        (encode "<![CDATA[" ++ raw).length + 3 := List.length_append
    rw [hlength]
    rfl
  rw [List.append_assoc, List.append_assoc, ← List.append_assoc raw]
  exact hcut

/-- A piece is cut off the front if and only if it stands there in its form. -/
theorem cut_eq_ok_iff {lexeme : Lexeme} {length : Nat} :
    cut .complete bytes = .ok (lexeme, length) ↔ lexeme.Begins length bytes := by
  refine ⟨begins_cut, ?_⟩
  rintro ⟨written, rest, rfl, rfl, hwrites, hrest⟩
  cases hwrites with
  | text raw hne hraw => exact cut_text hne hraw hrest
  | reference raw hraw => exact cut_reference hraw rest
  | startTag content hcontent hfirst => exact cut_startTag hcontent hfirst rest
  | endTag content hcontent => exact cut_endTag hcontent rest
  | characterData raw hraw => exact cut_characterData hraw rest
  | comment content hcontent => exact cut_comment hcontent rest
  | instruction content hcontent => exact cut_instruction hcontent rest
  | doctype content hcontent hkeyword hname => exact cut_doctype hcontent hkeyword hname rest

end Lexeme

end Metainfo.Markup
