import Metainfo.Proofs.Markup.LineEndEvents

/-!
Character data and the same text with references. One piece says at once what the pieces of the
other say one after the other, and text that meets text is one piece again.
-/

namespace Metainfo.Markup

open Metainfo.Utf8
open Metainfo.Blank
open Metainfo.Markup.Progress

variable {bytes : List UInt8}

/-- How a byte is written in text: as itself, or as a reference where it would begin markup or end
a section of character data. -/
def escapeByte (byte : UInt8) : List UInt8 :=
  if byte = byteOf '<' then encode "&lt;"
  else if byte = byteOf '>' then encode "&gt;"
  else if byte = byteOf '&' then encode "&amp;"
  else [byte]

def escape (bytes : List UInt8) : List UInt8 :=
  bytes.flatMap escapeByte

/-- A character as a piece of text. -/
def charPiece (char : Char) : Piece :=
  if char = '<' then ⟨.reference (encode "lt"), encode "&lt;"⟩
  else if char = '>' then ⟨.reference (encode "gt"), encode "&gt;"⟩
  else if char = '&' then ⟨.reference (encode "amp"), encode "&amp;"⟩
  else ⟨.text (String.utf8EncodeChar char), String.utf8EncodeChar char⟩

/-- A character that is written as itself, or one that is not. -/
theorem charPiece_cases (char : Char) :
    (∃ name, charPiece char = ⟨.reference (encode name), encode "&" ++ encode name ++ encode ";"⟩ ∧
        Reference.resolve name.toList = .char char ∧
        escape (String.utf8EncodeChar char) = encode "&" ++ encode name ++ encode ";" ∧
        (encode name).all (fun byte => !Lexeme.isDelimiter byte && byte != byteOf ';') = true) ∨
      charPiece char = ⟨.text (String.utf8EncodeChar char), String.utf8EncodeChar char⟩ ∧
        escape (String.utf8EncodeChar char) = String.utf8EncodeChar char ∧
        (String.utf8EncodeChar char).all (fun byte => !Lexeme.isDelimiter byte) = true := by
  by_cases hless : char = '<'
  · subst hless
    exact Or.inl ⟨"lt", rfl, rfl, by decide, by decide⟩
  by_cases hgreater : char = '>'
  · subst hgreater
    exact Or.inl ⟨"gt", rfl, rfl, by decide, by decide⟩
  by_cases hand : char = '&'
  · subst hand
    exact Or.inl ⟨"amp", rfl, rfl, by decide, by decide⟩
  right
  have hplain {ascii : Char} (hascii : ascii.toNat < 128) (hne : char ≠ ascii) :
      ∀ byte ∈ String.utf8EncodeChar char, byte ≠ byteOf ascii := by
    rintro byte hbyte rfl
    exact hne ((mem_utf8EncodeChar hascii).mp hbyte)
  refine ⟨?_, ?_, List.all_eq_true.mpr fun byte hbyte => ?_⟩
  · rw [charPiece, if_neg hless, if_neg hgreater, if_neg hand]
  · rw [escape]
    refine (List.flatMap_congr fun byte hbyte => ?_).trans (List.flatMap_singleton' _)
    rw [escapeByte, if_neg (hplain (by decide) hless byte hbyte),
      if_neg (hplain (by decide) hgreater byte hbyte),
      if_neg (hplain (by decide) hand byte hbyte)]
  · simp [Lexeme.isDelimiter, hplain (by decide) hless byte hbyte,
      hplain (by decide) hand byte hbyte]

theorem escape_flatMap (chars : List Char) :
    escape (chars.flatMap String.utf8EncodeChar) =
      (chars.map charPiece).flatMap Piece.written := by
  rw [escape, List.flatMap_assoc, List.flatMap_map]
  refine List.flatMap_congr fun char _ => ?_
  change escape (String.utf8EncodeChar char) = _
  rcases charPiece_cases char with ⟨name, hpiece, -, hescape, -⟩ | ⟨hpiece, hescape, -⟩ <;>
    rw [hescape, hpiece]

theorem writes_charPiece (char : Char) :
    (charPiece char).lexeme.Writes (charPiece char).written := by
  rcases charPiece_cases char with ⟨name, hpiece, -, -, hname⟩ | ⟨hpiece, -, hplain⟩ <;>
    rw [hpiece]
  · exact .reference _ hname
  · exact .text _ (utf8EncodeChar_ne_nil char) hplain

namespace Progress

variable {progress next last : Progress} {lexemes more : List Lexeme} {events later : List Event}

theorem gather_gather (progress : Progress) (text rest : String) :
    (progress.gather text).gather rest = progress.gather (text ++ rest) := by
  rw [gather, isOutside_gather, gather, gather]
  split
  · rfl
  · rw [String.append_assoc]

theorem Follows.append (h : progress.Follows lexemes events next)
    (hmore : next.Follows more later last) :
    progress.Follows (lexemes ++ more) (events ++ later) last := by
  induction h with
  | nil => exact hmore
  | cons htakes _ ih =>
      rw [List.cons_append, List.append_assoc]
      exact .cons htakes (ih hmore)

theorem Follows.split (h : progress.Follows (lexemes ++ more) events last) :
    ∃ next first rest, events = first ++ rest ∧ progress.Follows lexemes first next ∧
      next.Follows more rest last := by
  induction lexemes generalizing progress events with
  | nil => exact ⟨progress, [], events, rfl, .nil progress, h⟩
  | cons lexeme lexemes ih =>
      cases h with
      | cons htakes hrest =>
          obtain ⟨next, first, rest, rfl, hfirst, hlast⟩ := ih hrest
          exact ⟨next, _, rest, (List.append_assoc _ _ _).symm, .cons htakes hfirst, hlast⟩

theorem takes_charPiece {char : Char} (hchar : char ≠ '\r')
    (hblank : progress.isOutside = true →
      (String.utf8EncodeChar char).all isAsciiSpace = true) :
    progress.Takes (charPiece char).lexeme [] (progress.gather char.toString) := by
  rcases charPiece_cases char with ⟨name, hpiece, hresolve, -⟩ | ⟨hpiece, -⟩ <;> rw [hpiece]
  · exact .reference (strict_eq_some_iff.mpr rfl) hresolve
  · have htext : strict (String.utf8EncodeChar char) = some char.toString := by
      rw [strict_eq_some_iff, encode_eq_flatMap]
      simp
    have hline : normalizeLineEnds char.toString.toList = char.toString.toList :=
      normalizeLineEnds_of_notMem (by simpa using hchar.symm)
    have htakes := Takes.text htext hblank
    rwa [hline, String.ofList_toList] at htakes

/-- The characters of a text are gathered one after the other. -/
theorem follows_charPieces {chars : List Char} (hreturn : '\r' ∉ chars)
    (hblank : progress.isOutside = true →
      (chars.flatMap String.utf8EncodeChar).all isAsciiSpace = true) :
    progress.Follows (chars.map fun char => (charPiece char).lexeme) []
      (progress.gather (String.ofList chars)) := by
  induction chars generalizing progress with
  | nil =>
      rw [String.ofList_nil, gather_empty]
      exact .nil progress
  | cons char chars ih =>
      obtain ⟨hchar, hrest⟩ := List.ne_and_not_mem_of_not_mem_cons hreturn
      rw [List.flatMap_cons, List.all_append] at hblank
      have hfirst := @takes_charPiece progress char hchar.symm fun houtside =>
        (Bool.and_eq_true_iff.mp (hblank houtside)).1
      have hothers := @ih (progress.gather char.toString) hrest fun houtside =>
        (Bool.and_eq_true_iff.mp (hblank (isOutside_gather _ _ ▸ houtside))).2
      have hwhole : char.toString ++ String.ofList chars = String.ofList (char :: chars) := by
        simp
      rw [gather_gather, hwhole] at hothers
      exact .cons hfirst hothers

theorem notMem_of_strict {raw : List UInt8} {text : String} (htext : strict raw = some text)
    (h : byteOf '\r' ∉ raw) : '\r' ∉ text.toList := by
  rw [strict_eq_some_iff, encode_eq_flatMap] at htext
  intro hmem
  exact h (htext ▸ List.mem_flatMap.mpr ⟨_, hmem, by decide⟩)

/-- Character data is gathered as the text that it is. -/
theorem Takes.follows_charPieces {raw : List UInt8}
    (h : progress.Takes (.characterData raw) events next) (hreturn : byteOf '\r' ∉ raw) :
    ∃ chars : List Char, escape raw = (chars.map charPiece).flatMap Piece.written ∧
      progress.Follows (chars.map fun char => (charPiece char).lexeme) events next := by
  cases h with
  | @characterData _ text htext hblank =>
      have hchars := notMem_of_strict htext hreturn
      rw [strict_eq_some_iff, encode_eq_flatMap] at htext
      refine ⟨text.toList, by rw [htext, escape_flatMap], ?_⟩
      rw [normalizeLineEnds_of_notMem hchars]
      exact Progress.follows_charPieces hchars (htext ▸ hblank)

/-- Text that is cut in two is gathered as the whole. -/
theorem Follows.joinText {raw other : List UInt8} (hreturn : byteOf '\r' ∉ raw ++ other)
    (h : progress.Follows (.text raw :: .text other :: lexemes) events last) :
    progress.Follows (.text (raw ++ other) :: lexemes) events last := by
  have hlines {bytes : List UInt8} {text : String} (hbytes : byteOf '\r' ∉ bytes)
      (htext : strict bytes = some text) :
      String.ofList (normalizeLineEnds text.toList) = text := by
    rw [normalizeLineEnds_of_notMem (notMem_of_strict htext hbytes), String.ofList_toList]
  cases h with
  | cons hfirst hrest =>
  cases hrest with
  | cons hsecond hlast =>
  cases hfirst with
  | @text _ text htext hblank =>
  cases hsecond with
  | @text _ more hmore hspace =>
      have hwhole : strict (raw ++ other) = some (text ++ more) := by
        rw [strict_eq_some_iff, encode_eq_flatMap] at htext hmore ⊢
        rw [htext, hmore, String.toList_append, List.flatMap_append]
      rw [List.mem_append, not_or] at hreturn
      rw [hlines hreturn.1 htext, isOutside_gather] at hspace
      rw [hlines hreturn.1 htext, hlines hreturn.2 hmore, gather_gather] at hlast
      have htakes : progress.Takes (.text (raw ++ other)) []
          (progress.gather (String.ofList (normalizeLineEnds (text ++ more).toList))) :=
        .text hwhole fun houtside => by
          rw [List.all_append, hblank houtside, hspace houtside]
          rfl
      rw [hlines (by simp [hreturn]) hwhole] at htakes
      exact .cons htakes hlast

end Progress

/-! Text next to text. -/

theorem Lexeme.Writes.eq_text {lexeme : Lexeme} {written : List UInt8} (h : lexeme.Writes written)
    (htext : lexeme.isText = true) : lexeme = .text written := by
  cases h with
  | text => rfl
  | _ => contradiction

theorem Lexeme.Writes.append_text {first second : Lexeme} {written more : List UInt8}
    (h : first.Writes written) (hmore : second.Writes more) (hfirst : first.isText = true)
    (hsecond : second.isText = true) :
    (Lexeme.text (written ++ more)).Writes (written ++ more) := by
  rw [h.eq_text hfirst] at h
  rw [hmore.eq_text hsecond] at hmore
  cases h with
  | text _ hne hplain =>
  cases hmore with
  | text _ _ hothers =>
      refine .text _ (List.append_ne_nil_of_left_ne_nil hne _) ?_
      rw [List.all_append, hplain, hothers]
      rfl

/-- A piece before others, which is one with the first of them if both are text. -/
def Piece.joined (piece : Piece) : List Piece → List Piece
  | [] => [piece]
  | next :: rest =>
      if piece.lexeme.isText && next.lexeme.isText then
        ⟨.text (piece.written ++ next.written), piece.written ++ next.written⟩ :: rest
      else piece :: next :: rest

def joinTexts (pieces : List Piece) : List Piece :=
  pieces.foldr Piece.joined []

theorem Tiles.joined {rest : List UInt8} {pieces : List Piece} (h : Tiles rest pieces)
    {piece : Piece} (hwrites : piece.lexeme.Writes piece.written) :
    Tiles (piece.written ++ rest) (piece.joined pieces) := by
  cases pieces with
  | nil => exact h.cons piece hwrites (h.endsBefore_iff.mpr (by simp))
  | cons next pieces =>
      rw [Piece.joined]
      split
      · rename_i htexts
        obtain ⟨hpiece, hnext⟩ := Bool.and_eq_true_iff.mp htexts
        obtain ⟨more, rfl, hform, hends, hmore⟩ := h.uncons
        rw [← List.append_assoc]
        exact hmore.cons ⟨_, _⟩ (hwrites.append_text hform hpiece hnext) fun _ => hends hnext
      · rename_i hapart
        refine h.cons piece hwrites (h.endsBefore_iff.mpr fun other hother htexts => hapart ?_)
        obtain rfl := Option.some.inj hother
        rw [htexts.1, htexts.2]
        rfl

theorem tiles_joinTexts {pieces : List Piece}
    (h : ∀ piece ∈ pieces, piece.lexeme.Writes piece.written) :
    Tiles (pieces.flatMap Piece.written) (joinTexts pieces) := by
  induction pieces with
  | nil => exact ⟨rfl, List.forall_mem_nil _, .nil⟩
  | cons piece pieces ih =>
      obtain ⟨hpiece, hpieces⟩ := List.forall_mem_cons.mp h
      exact (ih hpieces).joined hpiece

theorem follows_joined {progress last : Progress} {pieces : List Piece} {piece : Piece}
    {events : List Event} (hreturn : byteOf '\r' ∉ piece.written ++ pieces.flatMap Piece.written)
    (hpiece : piece.lexeme.Writes piece.written)
    (hpieces : ∀ piece ∈ pieces, piece.lexeme.Writes piece.written)
    (h : progress.Follows (piece.lexeme :: pieces.map Piece.lexeme) events last) :
    progress.Follows ((piece.joined pieces).map Piece.lexeme) events last := by
  cases pieces with
  | nil => exact h
  | cons next pieces =>
      rw [Piece.joined]
      split
      · rename_i htexts
        obtain ⟨hfirst, hsecond⟩ := Bool.and_eq_true_iff.mp htexts
        rw [List.map_cons, hpiece.eq_text hfirst,
          (hpieces next List.mem_cons_self).eq_text hsecond] at h
        refine h.joinText fun hmem => hreturn ?_
        rw [List.flatMap_cons, ← List.append_assoc]
        exact List.mem_append_left _ hmem
      · exact h

theorem follows_joinTexts {progress last : Progress} {pieces : List Piece} {events : List Event}
    (hreturn : byteOf '\r' ∉ pieces.flatMap Piece.written)
    (hwrites : ∀ piece ∈ pieces, piece.lexeme.Writes piece.written)
    (h : progress.Follows (pieces.map Piece.lexeme) events last) :
    progress.Follows ((joinTexts pieces).map Piece.lexeme) events last := by
  induction pieces generalizing progress events with
  | nil => exact h
  | cons piece pieces ih =>
      obtain ⟨hpiece, hpieces⟩ := List.forall_mem_cons.mp hwrites
      have htiles := tiles_joinTexts hpieces
      rw [List.flatMap_cons, htiles.bytes_eq] at hreturn
      cases h with
      | cons htakes hrest =>
          have hothers := ih (fun hmem => hreturn (List.mem_append_right _ (htiles.bytes_eq ▸ hmem)))
            hpieces hrest
          exact follows_joined hreturn hpiece htiles.writes (.cons htakes hothers)

/-- Behind the mark at the front there is no other one, and without it there is none at all. -/
theorem Tiles.not_mark {pieces : List Piece} {events : List Event} {last : Progress}
    (h : Tiles bytes pieces)
    (hfollows : initial.Follows (pieces.map Piece.lexeme) events last) :
    ¬ byteOrderMark <+: bytes := by
  intro hmark
  cases pieces with
  | nil =>
      rw [h.bytes_eq] at hmark
      exact absurd hmark.length_le (by decide)
  | cons piece pieces =>
      obtain ⟨rest, rfl, hwrites, -⟩ := h.uncons
      obtain ⟨byte, others, hwritten, hdelimiter⟩ := hwrites.isDelimiter_head
      rw [hwritten] at hmark
      obtain rfl : 0xEF = byte := (List.cons_prefix_cons.mp hmark).1
      have htext : piece.lexeme.isText = true := by
        have hplain : Lexeme.isDelimiter 0xEF = false := by decide
        simpa [hplain] using hdelimiter
      rw [List.map_cons, hwrites.eq_text htext] at hfollows
      cases hfollows with
      | cons htakes _ =>
      cases htakes with
      | text _ hblank =>
          have hspaces := hblank rfl
          rw [hwritten] at hspaces
          exact absurd (List.all_eq_true.mp hspaces _ List.mem_cons_self) (by decide)

theorem afterMark_append {rest : List UInt8} (h : ¬ byteOrderMark <+: rest) :
    afterMark (bytes.take (markLength bytes) ++ rest) = rest := by
  by_cases hmark : byteOrderMark <+: bytes
  · obtain ⟨others, rfl⟩ := hmark
    have hlength (rest : List UInt8) : markLength (byteOrderMark ++ rest) = byteOrderMark.length :=
      if_pos (List.isPrefixOf_iff_prefix.mpr (List.prefix_append _ _))
    rw [hlength, List.take_left, afterMark, hlength, List.drop_left]
  · have hnone {bytes : List UInt8} (hmark : ¬ byteOrderMark <+: bytes) : markLength bytes = 0 :=
      if_neg (mt List.isPrefixOf_iff_prefix.mp hmark)
    rw [hnone hmark, List.take_zero, List.nil_append, afterMark, hnone h, List.drop_zero]

theorem notMem_escape {raw : List UInt8} (h : byteOf '\r' ∉ raw) : byteOf '\r' ∉ escape raw := by
  intro hmem
  obtain ⟨byte, hbyte, hreturn⟩ := List.mem_flatMap.mp hmem
  rw [escapeByte] at hreturn
  split at hreturn
  · exact absurd hreturn (by decide)
  split at hreturn
  · exact absurd hreturn (by decide)
  split at hreturn
  · exact absurd hreturn (by decide)
  · exact h (List.mem_singleton.mp hreturn ▸ hbyte)

/-- In a document without carriage returns, character data may be written as text. -/
theorem read_escape {source : Source} (hreturn : byteOf '\r' ∉ source.bytes)
    {before after : List Piece} {raw written : List UInt8} {events : List Event} {last : Progress}
    (htiles : Tiles (afterMark source.bytes) (before ++ ⟨.characterData raw, written⟩ :: after))
    (hfollows : initial.Follows
      ((before ++ ⟨.characterData raw, written⟩ :: after).map Piece.lexeme) events last)
    (hend : last.fault? = none) :
    read ⟨source.bytes.take (markLength source.bytes) ++
      (before.flatMap Piece.written ++ escape raw ++ after.flatMap Piece.written), .complete⟩ =
        ⟨events, none⟩ := by
  have hbytes : byteOf '\r' ∉ before.flatMap Piece.written ++ (written ++
      after.flatMap Piece.written) := by
    have hwhole := htiles.bytes_eq
    rw [List.flatMap_append, List.flatMap_cons] at hwhole
    exact fun hmem => hreturn (List.mem_of_mem_drop (hwhole.symm ▸ hmem))
  simp only [List.mem_append, not_or] at hbytes
  obtain ⟨hbefore, hwritten, hafter⟩ := hbytes
  obtain ⟨hwritesBefore, hwritesRest⟩ := List.forall_mem_append.mp htiles.writes
  obtain ⟨hwrites, hwritesAfter⟩ := List.forall_mem_cons.mp hwritesRest
  have hraw : byteOf '\r' ∉ raw := by
    have hform : written = encode "<![CDATA[" ++ raw ++ encode "]]>" := by
      cases hwrites
      rfl
    rw [hform, List.mem_append, List.mem_append, not_or, not_or] at hwritten
    exact hwritten.1.2
  rw [List.map_append, List.map_cons] at hfollows
  obtain ⟨next, first, rest, rfl, hfirst, hrest⟩ := hfollows.split
  cases hrest with
  | @cons _ _ _ _ _ said later htakes hlast =>
      obtain ⟨chars, hescape, hchars⟩ := htakes.follows_charPieces hraw
      have hwhole : before.flatMap Piece.written ++ escape raw ++ after.flatMap Piece.written =
          (before ++ chars.map charPiece ++ after).flatMap Piece.written := by
        rw [List.flatMap_append, List.flatMap_append, hescape]
      have hforms : ∀ piece ∈ before ++ chars.map charPiece ++ after,
          piece.lexeme.Writes piece.written := by
        rw [List.forall_mem_append, List.forall_mem_append, List.forall_mem_map]
        exact ⟨⟨hwritesBefore, fun char _ => writes_charPiece char⟩, hwritesAfter⟩
      have hreturns : byteOf '\r' ∉
          (before ++ chars.map charPiece ++ after).flatMap Piece.written := by
        rw [← hwhole]
        simp [hbefore, hafter, notMem_escape hraw]
      have hpieces : initial.Follows ((before ++ chars.map charPiece ++ after).map Piece.lexeme)
          (first ++ (said ++ later)) last := by
        rw [List.map_append, List.map_append, List.map_map, List.append_assoc]
        exact hfirst.append (hchars.append hlast)
      have hjoined := follows_joinTexts hreturns hforms hpieces
      have htiled := tiles_joinTexts hforms
      rw [← hwhole] at htiled
      rw [← afterMark_append (htiled.not_mark hjoined)] at htiled
      exact read_of_tiles htiled hjoined hend

/-- A document that is read without a failure is made of pieces, and between two tags all that they
say is delivered as one text, or nothing if there is none. So it makes no difference how its lines
end, but to the values of attributes, and without carriage returns a section of character data is
as good as its text with references. -/
theorem read_delivers_text (source : Source) (h : (read source).failure = none) :
    ∃ pieces, Tiles (afterMark source.bytes) pieces ∧
      (∀ others, Tiles (afterMark source.bytes) others → others = pieces) ∧
      (read source).events = transcript (pieces.map Piece.lexeme) ∧
      ((read (unified source)).failure = none ∧
        (read (unified source)).events.map Event.bare = (read source).events.map Event.bare) ∧
      (byteOf '\r' ∉ source.bytes → ∀ before raw written after,
        pieces = before ++ ⟨.characterData raw, written⟩ :: after →
          read { source with
            bytes := source.bytes.take (markLength source.bytes) ++
              (before.flatMap Piece.written ++ escape raw ++ after.flatMap Piece.written) } =
            read source) := by
  obtain ⟨pieces, last, htiles, hfollows, hend⟩ := exists_tiles_of_read h
  refine ⟨pieces, htiles, fun others => htiles.unique, ?_, read_unified h, ?_⟩
  · exact hfollows.events_eq settled_initial
  · rintro hreturn before raw written after rfl
    have hread := read_of_tiles htiles hfollows hend
    rw [← ending_of_read h] at hread
    rw [ending_of_read h, read_escape hreturn htiles hfollows hend, ← hread]

theorem read_delivers_text_section :
    (read (.ofBytes (encode "<a>x<![CDATA[<y]]></a>"))).failure = none ∧
      read (.ofBytes (encode "<a>x&lt;y</a>")) =
        read (.ofBytes (encode "<a>x<![CDATA[<y]]></a>")) := by
  have h : (read (.ofBytes (encode "<a>x<![CDATA[<y]]></a>"))).failure = none := by
    decide +kernel
  obtain ⟨pieces, -, hunique, -, -, hescape⟩ := read_delivers_text _ h
  have htiles : Tiles (afterMark (encode "<a>x<![CDATA[<y]]></a>"))
      ([⟨.startTag (encode "a"), encode "<a>"⟩, ⟨.text (encode "x"), encode "x"⟩] ++
        ⟨.characterData (encode "<y"), encode "<![CDATA[<y]]>"⟩ ::
          [⟨.endTag (encode "a"), encode "</a>"⟩]) := by
    refine ⟨by decide, ?_, by decide⟩
    simp only [List.cons_append, List.nil_append, List.forall_mem_cons]
    have hfirst : ∀ byte ∈ (encode "a").head?, byte ∉ encode "/!?" := by
      rintro byte ⟨⟩
      decide
    exact ⟨.startTag _ rfl hfirst, .text _ (by decide) (by decide),
      .characterData _ (by decide), .endTag _ rfl, List.forall_mem_nil _⟩
  exact ⟨h, hescape (by decide) _ _ _ _ (hunique _ htiles).symm⟩

example : (read (.ofBytes (encode "<a>x\r<![CDATA[\ny]]>&#13;</a>"))).events =
    [.start "a" .empty, .text "x\n\ny\r", .stop "a"] := by
  decide +kernel

end Metainfo.Markup
