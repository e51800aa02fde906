import Metainfo.Proofs.Markup.Pieces
import Metainfo.Proofs.Text.Decoding

/-!
What may stand outside of the root element. Text and character data there are white space, or there
is a fault; a reference only has to stand for a character, whichever this is, and is passed over.
-/

namespace Metainfo.Markup

open Metainfo.Utf8
open Metainfo.Blank

namespace Lexeme

/-- The character data that a piece stands for. -/
def characters? : Lexeme → Option (List UInt8)
  | .text raw | .characterData raw => some raw
  | .reference raw =>
      match (strict raw).map fun name => Reference.resolve name.toList with
      | some (.char char) => some (encode char.toString)
      | _ => none
  | .startTag _ | .endTag _ | .aside => none

/-- A piece that stands for nothing but white space. -/
def isBlank (lexeme : Lexeme) : Bool :=
  lexeme.characters?.all fun data => data.all isAsciiSpace

/-- What is let through outside of the root element. -/
def isLetThrough : Lexeme → Bool
  | .text raw | .characterData raw => raw.all isAsciiSpace
  | .reference raw => (characters? (.reference raw)).isSome
  | .aside => true
  | .startTag _ | .endTag _ => false

/-- How many elements are open behind a piece. -/
def depthAfter (depth : Nat) : Lexeme → Nat
  | .startTag content => if (Progress.splitSlash content).2 then depth else depth + 1
  | .endTag _ => depth - 1
  | .text _ | .characterData _ | .reference _ | .aside => depth

def isOutside (depth : Nat) (lexeme : Lexeme) : Bool :=
  depth = 0 && !lexeme.isTag

end Lexeme

/-- The pieces outside of every element, but for tags. So many elements are open at the front. -/
def outsideFrom : (depth : Nat) → List Lexeme → List Lexeme
  | _, [] => []
  | depth, lexeme :: rest =>
      (if lexeme.isOutside depth then [lexeme] else []) ++
        outsideFrom (lexeme.depthAfter depth) rest

/-- The tags and the pieces between them. -/
def insideFrom : (depth : Nat) → List Lexeme → List Lexeme
  | _, [] => []
  | depth, lexeme :: rest =>
      (if lexeme.isOutside depth then [] else [lexeme]) ++
        insideFrom (lexeme.depthAfter depth) rest

/-- Pieces that are cut off the front one after another, whatever the rest is. -/
inductive Leads : List UInt8 → List Piece → Prop
  | nil (bytes : List UInt8) : Leads bytes []
  | cons {piece : Piece} {rest : List UInt8} {pieces : List Piece}
      (hcut : Lexeme.cut .complete (piece.written ++ rest) =
        .ok (piece.lexeme, piece.written.length))
      (hrest : Leads rest pieces) : Leads (piece.written ++ rest) (piece :: pieces)

theorem Leads.isPrefix {bytes : List UInt8} {pieces all : List Piece} (h : Leads bytes pieces)
    (htiles : Tiles bytes all) : pieces <+: all := by
  induction h generalizing all with
  | nil => exact List.nil_prefix
  | @cons piece rest pieces hcut _ ih =>
      cases all with
      | nil =>
          rw [htiles.bytes_eq] at hcut
          cases hcut
      | cons other others =>
          obtain ⟨hlexeme, hlength⟩ := Prod.mk.inj (Except.ok.inj (hcut.symm.trans htiles.cut))
          obtain ⟨more, hbytes, -, -, hmore⟩ := htiles.uncons
          obtain ⟨hwritten, rfl⟩ := List.append_inj hbytes hlength
          have hpiece : piece = other := by
            cases piece
            cases other
            exact congrArg₂ Piece.mk hlexeme hwritten
          exact List.cons_prefix_cons.mpr ⟨hpiece, ih hmore⟩

theorem outsideFrom_append_subset (depth : Nat) (front back : List Lexeme) :
    outsideFrom depth front ⊆ outsideFrom depth (front ++ back) := by
  induction front generalizing depth with
  | nil => exact List.nil_subset _
  | cons lexeme front ih =>
      rw [List.cons_append, outsideFrom, outsideFrom]
      refine List.append_subset.mpr ⟨List.subset_append_left _ _, ?_⟩
      exact List.Subset.trans (ih _) (List.subset_append_right _ _)

/-- White space is text. -/
theorem exists_text_of_blank {raw : List UInt8} (h : raw.all isAsciiSpace = true) :
    ∃ text, strict raw = some text := by
  have hshort : ∀ byte ∈ raw, String.utf8EncodeChar (Char.ofNat byte.toNat) = [byte] := by
    intro byte hbyte
    have hspace := List.all_eq_true.mp h byte hbyte
    simp only [isAsciiSpace, isSpace, isBlank, Bool.or_eq_true, decide_eq_true_eq] at hspace
    have hlt : byte.toNat < 128 := by
      rcases hspace with (((rfl | rfl) | rfl) | rfl) | rfl <;> decide
    rw [utf8EncodeChar_one hlt, UInt8.ofNat_toNat]
  refine ⟨String.ofList (raw.map fun byte => Char.ofNat byte.toNat), ?_⟩
  rw [strict_eq_some_iff, encode_ofList, List.flatMap_map, List.flatMap_congr hshort]
  simp

namespace Progress

variable {progress next last : Progress} {lexeme : Lexeme} {lexemes : List Lexeme}
  {events : List Event}

theorem openNames_gather (progress : Progress) (text : String) :
    (progress.gather text).openNames = progress.openNames := by
  rw [gather]
  split <;> rfl

theorem Takes.depthAfter (h : progress.Takes lexeme events next) :
    next.openNames.length = lexeme.depthAfter progress.openNames.length := by
  cases h with
  | text | characterData | reference => rw [openNames_gather, Lexeme.depthAfter]
  | opened _ hopen => rw [Lexeme.depthAfter, hopen]; rfl
  | closed _ hclosed => rw [Lexeme.depthAfter, hclosed]; rfl
  | endTag hopen => rw [hopen]; rfl
  | aside => rfl

/-- Outside of the root element a piece is let through without a trace, or it is not taken. -/
theorem takes_outside_iff (houtside : progress.isOutside = true) (htag : lexeme.isTag = false) :
    progress.Takes lexeme events next ↔
      lexeme.isLetThrough = true ∧ events = [] ∧ next = progress := by
  have hgather (text : String) : progress.gather text = progress := if_pos houtside
  constructor
  · intro h
    cases h with
    | text _ hblank | characterData _ hblank => exact ⟨hblank houtside, rfl, hgather _⟩
    | reference hname hchar =>
        refine ⟨?_, rfl, hgather _⟩
        simp [Lexeme.isLetThrough, Lexeme.characters?, hname, hchar]
    | aside => exact ⟨rfl, rfl, rfl⟩
    | opened | closed | endTag => contradiction
  · rintro ⟨hthrough, rfl, hnext⟩
    rw [hnext]
    cases lexeme with
    | text raw =>
        obtain ⟨text, htext⟩ := exists_text_of_blank hthrough
        have htakes : progress.Takes _ _ _ := .text htext fun _ => hthrough
        rwa [hgather] at htakes
    | characterData raw =>
        obtain ⟨text, htext⟩ := exists_text_of_blank hthrough
        have htakes : progress.Takes _ _ _ := .characterData htext fun _ => hthrough
        rwa [hgather] at htakes
    | reference raw =>
        cases hname : strict raw with
        | none => simp [Lexeme.isLetThrough, Lexeme.characters?, hname] at hthrough
        | some name =>
            cases hchar : Reference.resolve name.toList with
            | char char =>
                have htakes : progress.Takes _ _ _ := .reference hname hchar
                rwa [hgather] at htakes
            | invalidNumber | unknownName =>
                simp [Lexeme.isLetThrough, Lexeme.characters?, hname, hchar] at hthrough
    | aside => exact .aside
    | startTag | endTag => contradiction

theorem follows_cons_iff : progress.Follows (lexeme :: lexemes) events last ↔
    ∃ said next later, progress.Takes lexeme said next ∧ next.Follows lexemes later last ∧
      events = said ++ later := by
  constructor
  · rintro (_ | ⟨htakes, hrest⟩)
    exact ⟨_, _, _, htakes, hrest, rfl⟩
  · rintro ⟨said, next, later, htakes, hrest, rfl⟩
    exact .cons htakes hrest

theorem isOutside_iff : progress.isOutside = true ↔ progress.openNames.length = 0 := by
  rw [isOutside, List.isEmpty_iff, List.length_eq_zero_iff]

/-- Pieces are taken if those outside are let through and the others are taken. -/
theorem follows_iff : progress.Follows lexemes events last ↔
    (∀ lexeme ∈ outsideFrom progress.openNames.length lexemes, lexeme.isLetThrough = true) ∧
      progress.Follows (insideFrom progress.openNames.length lexemes) events last := by
  induction lexemes generalizing progress events with
  | nil => simp [outsideFrom, insideFrom]
  | cons lexeme lexemes ih =>
      rw [outsideFrom, insideFrom]
      cases houtside : lexeme.isOutside progress.openNames.length with
      | true =>
          obtain ⟨hdepth, htag⟩ := Bool.and_eq_true_iff.mp houtside
          have hout : progress.isOutside = true := isOutside_iff.mpr (of_decide_eq_true hdepth)
          have hsame : lexeme.depthAfter progress.openNames.length = progress.openNames.length := by
            cases lexeme <;> first | rfl | contradiction
          rw [if_pos rfl, if_pos rfl, hsame, List.nil_append, List.singleton_append,
            List.forall_mem_cons, and_assoc, ← ih, follows_cons_iff]
          constructor
          · rintro ⟨said, next, later, htakes, hrest, rfl⟩
            obtain ⟨hthrough, rfl, rfl⟩ :=
              (takes_outside_iff hout ((Bool.not_eq_true' _).mp htag)).mp htakes
            exact ⟨hthrough, hrest⟩
          · rintro ⟨hthrough, hrest⟩
            have htakes := (takes_outside_iff hout ((Bool.not_eq_true' _).mp htag)).mpr
              ⟨hthrough, rfl, rfl⟩
            exact ⟨[], progress, events, htakes, hrest, rfl⟩
      | false =>
          rw [if_neg Bool.false_ne_true, if_neg Bool.false_ne_true, List.nil_append,
            List.singleton_append, follows_cons_iff, follows_cons_iff]
          constructor
          · rintro ⟨said, next, later, htakes, hrest, rfl⟩
            rw [← htakes.depthAfter]
            obtain ⟨hthrough, hinside⟩ := ih.mp hrest
            exact ⟨hthrough, said, next, later, htakes, hinside, rfl⟩
          · rintro ⟨hthrough, said, next, later, htakes, hinside, rfl⟩
            rw [← htakes.depthAfter] at hthrough hinside
            exact ⟨said, next, later, htakes, ih.mpr ⟨hthrough, hinside⟩, rfl⟩

end Progress

open Progress

variable {bytes : List UInt8} {pieces : List Piece}

theorem read_eq_iff (h : Tiles (afterMark bytes) pieces) (events : List Event) :
    read (.ofBytes bytes) = ⟨events, none⟩ ↔
      ∃ last, initial.Follows (pieces.map Piece.lexeme) events last ∧ last.fault? = none := by
  constructor
  · intro hread
    have hnone : (read (.ofBytes bytes)).failure = none := by rw [hread]
    obtain ⟨others, last, htiles, hfollows, hend⟩ := exists_tiles_of_read hnone
    rw [h.unique htiles, hread] at hfollows
    exact ⟨last, hfollows, hend⟩
  · rintro ⟨last, hfollows, hend⟩
    exact read_of_tiles h hfollows hend

/-- What stands outside of the root element only has to be let through. -/
theorem read_eq_outside_iff (h : Tiles (afterMark bytes) pieces) (events : List Event) :
    read (.ofBytes bytes) = ⟨events, none⟩ ↔
      (∀ lexeme ∈ outsideFrom 0 (pieces.map Piece.lexeme), lexeme.isLetThrough = true) ∧
        ∃ last, initial.Follows (insideFrom 0 (pieces.map Piece.lexeme)) events last ∧
          last.fault? = none := by
  have hfollows (last : Progress) := @follows_iff initial last (pieces.map Piece.lexeme) events
  simp only [read_eq_iff h, hfollows, and_assoc, exists_and_left]
  rfl

theorem isLetThrough_of_read (h : (read (.ofBytes bytes)).failure = none)
    (htiles : Tiles (afterMark bytes) pieces) {lexeme : Lexeme}
    (hlexeme : lexeme ∈ outsideFrom 0 (pieces.map Piece.lexeme)) : lexeme.isLetThrough = true :=
  ((read_eq_outside_iff htiles _).mp (congrArg (Reading.mk _) h)).1 lexeme hlexeme

/-- A document is read without a failure if what stands outside of the root element is let through
and the rest is read so. Text and character data that are let through are white space, so all that
stands outside is white space if and only if every reference there stands for it. What is not let
through makes the document malformed, whatever follows. -/
theorem read_outside_iff (bytes : List UInt8) :
    ((read (.ofBytes bytes)).failure = none → ∃ pieces, Tiles (afterMark bytes) pieces) ∧
      (∀ pieces, Tiles (afterMark bytes) pieces →
        let outside := outsideFrom 0 (pieces.map Piece.lexeme)
        let inside := insideFrom 0 (pieces.map Piece.lexeme)
        (∀ events, read (.ofBytes bytes) = ⟨events, none⟩ ↔
          (∀ lexeme ∈ outside, lexeme.isLetThrough = true) ∧
            ∃ last, initial.Follows inside events last ∧ last.fault? = none) ∧
        ((read (.ofBytes bytes)).failure = none →
          ((∀ lexeme ∈ outside, lexeme.isBlank = true) ↔
            ∀ raw, .reference raw ∈ outside → (Lexeme.reference raw).isBlank = true))) ∧
      ∀ pieces, Leads (afterMark bytes) pieces →
        (∃ lexeme ∈ outsideFrom 0 (pieces.map Piece.lexeme), lexeme.isLetThrough = false) →
          ∃ fault location,
            (read (.ofBytes bytes)).failure = some (.malformed fault location) := by
  refine ⟨fun h => ?_, fun pieces htiles => ⟨read_eq_outside_iff htiles, fun h => ?_⟩, ?_⟩
  · obtain ⟨pieces, -, htiles, -⟩ := exists_tiles_of_read h
    exact ⟨pieces, htiles⟩
  · refine ⟨fun hblank raw => hblank _, fun hreferences lexeme hlexeme => ?_⟩
    have hthrough := isLetThrough_of_read h htiles hlexeme
    cases lexeme with
    | text | characterData => exact hthrough
    | reference raw => exact hreferences raw hlexeme
    | aside => rfl
    | startTag | endTag => contradiction
  · rintro pieces hleads ⟨lexeme, hlexeme, hrefused⟩
    refine malformed_read rfl fun hnone => ?_
    obtain ⟨all, -, htiles, -⟩ := exists_tiles_of_read hnone
    obtain ⟨others, rfl⟩ := hleads.isPrefix htiles
    have hmem := outsideFrom_append_subset 0 (pieces.map Piece.lexeme) (others.map Piece.lexeme)
      hlexeme
    rw [← List.map_append] at hmem
    have hthrough := isLetThrough_of_read hnone htiles hmem
    rw [hrefused] at hthrough
    contradiction

/-- A reference behind the root element is passed over, whatever it stands for; a text is not. -/
theorem read_outside_iff_reference :
    ((read (.ofBytes (encode "<a/>&lt;"))).failure = none ∧
      ∃ pieces, Tiles (afterMark (encode "<a/>&lt;")) pieces ∧
        ¬ ∀ lexeme ∈ outsideFrom 0 (pieces.map Piece.lexeme), lexeme.isBlank = true) ∧
      ∃ fault location,
        (read (.ofBytes (encode "<a/>x<"))).failure = some (.malformed fault location) := by
  have h : (read (.ofBytes (encode "<a/>&lt;"))).failure = none := by decide +kernel
  have htiles : Tiles (afterMark (encode "<a/>&lt;"))
      [⟨.startTag (encode "a/"), encode "<a/>"⟩, ⟨.reference (encode "lt"), encode "&lt;"⟩] := by
    refine ⟨by decide, ?_, by decide⟩
    simp only [List.forall_mem_cons]
    have hfirst : ∀ byte ∈ (encode "a/").head?, byte ∉ encode "/!?" := by
      rintro byte ⟨⟩
      decide
    exact ⟨.startTag _ rfl hfirst, .reference (encode "lt") (by decide), List.forall_mem_nil _⟩
  let text : Piece := ⟨.text (encode "x"), encode "x"⟩
  let root : Piece := ⟨.startTag (encode "a/"), encode "<a/>"⟩
  have hleads : Leads (root.written ++ (text.written ++ encode "<")) [root, text] :=
    .cons (by decide) (.cons (by decide) (.nil _))
  refine ⟨⟨h, _, htiles, fun hblank => ?_⟩,
    (read_outside_iff _).2.2 _ hleads ⟨.text (encode "x"), by decide, by decide⟩⟩
  have hreference := (((read_outside_iff _).2.1 _ htiles).2 h).mp hblank (encode "lt") (by decide)
  revert hreference
  decide +kernel

end Metainfo.Markup
