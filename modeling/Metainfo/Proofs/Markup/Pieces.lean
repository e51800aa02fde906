import Metainfo.Proofs.Markup.Grammar

/-!
What a document without faults is delivered as, told from its pieces. Text comes as a whole between
two tags, whatever pieces it was written in.
-/

namespace Metainfo.Markup

open Metainfo.Utf8
open Metainfo.Blank

/-- A piece with the bytes that stand for it. -/
structure Piece where
  lexeme : Lexeme
  written : List UInt8
  deriving DecidableEq, Repr

namespace Lexeme

variable {lexeme : Lexeme} {written : List UInt8}

theorem Writes.ne_nil (h : lexeme.Writes written) : written ≠ [] := by
  cases h with
  | text raw hne => exact hne
  | _ => exact List.cons_ne_nil _ _

/-- Text begins with no delimiter, and all else begins with one. -/
theorem Writes.isDelimiter_head (h : lexeme.Writes written) :
    ∃ byte rest, written = byte :: rest ∧ isDelimiter byte = !lexeme.isText := by
  cases h with
  | text raw hne hraw =>
      obtain ⟨byte, rest, rfl⟩ := List.exists_cons_of_ne_nil hne
      have hbyte := List.all_eq_true.mp hraw byte List.mem_cons_self
      rw [Bool.not_eq_true'] at hbyte
      exact ⟨byte, rest, rfl, hbyte⟩
  | _ => exact ⟨_, _, rfl, rfl⟩

end Lexeme

/-- Bytes as the pieces that they are made of. Text goes as far as it can. -/
structure Tiles (bytes : List UInt8) (pieces : List Piece) : Prop where
  bytes_eq : bytes = pieces.flatMap Piece.written
  writes : ∀ piece ∈ pieces, piece.lexeme.Writes piece.written
  apart : pieces.IsChain fun first second =>
    ¬ (first.lexeme.isText = true ∧ second.lexeme.isText = true)

namespace Tiles

variable {bytes rest : List UInt8} {piece : Piece} {pieces : List Piece}

theorem endsBefore_iff (h : Tiles rest pieces) {lexeme : Lexeme} :
    lexeme.EndsBefore rest ↔
      ∀ next ∈ pieces.head?, ¬ (lexeme.isText = true ∧ next.lexeme.isText = true) := by
  cases pieces with
  | nil => simp [Lexeme.EndsBefore, h.bytes_eq]
  | cons next others =>
      obtain ⟨byte, more, hwritten, hbyte⟩ := (h.writes next List.mem_cons_self).isDelimiter_head
      have hhead : rest.head? = some byte := by
        rw [h.bytes_eq, List.flatMap_cons, hwritten]
        rfl
      simp [Lexeme.EndsBefore, hhead, hbyte]

theorem cons (piece : Piece) (hwrites : piece.lexeme.Writes piece.written) (h : Tiles rest pieces)
    (hends : piece.lexeme.EndsBefore rest) :
    Tiles (piece.written ++ rest) (piece :: pieces) where
  bytes_eq := by rw [h.bytes_eq, List.flatMap_cons]
  writes := List.forall_mem_cons.mpr ⟨hwrites, h.writes⟩
  apart := by
    refine List.isChain_cons.mpr ⟨?_, h.apart⟩
    exact fun next hnext => h.endsBefore_iff.mp hends next hnext

theorem uncons (h : Tiles bytes (piece :: pieces)) :
    ∃ rest, bytes = piece.written ++ rest ∧ piece.lexeme.Writes piece.written ∧
      piece.lexeme.EndsBefore rest ∧ Tiles rest pieces := by
  obtain ⟨hwrites, hothers⟩ := List.forall_mem_cons.mp h.writes
  obtain ⟨hnext, hchain⟩ := List.isChain_cons.mp h.apart
  have hrest : Tiles (pieces.flatMap Piece.written) pieces := ⟨rfl, hothers, hchain⟩
  exact ⟨_, h.bytes_eq, hwrites, hrest.endsBefore_iff.mpr hnext, hrest⟩

theorem cut (h : Tiles bytes (piece :: pieces)) :
    Lexeme.cut .complete bytes = .ok (piece.lexeme, piece.written.length) := by
  obtain ⟨rest, rfl, hwrites, hends, -⟩ := h.uncons
  exact Lexeme.cut_eq_ok_iff.mpr ⟨_, rest, rfl, rfl, hwrites, hends⟩

/-- Bytes are made of pieces in one way only. -/
theorem unique {others : List Piece} (h : Tiles bytes pieces) (hothers : Tiles bytes others) :
    others = pieces := by
  have hempty {pieces : List Piece} (h : Tiles [] pieces) : pieces = [] := by
    cases pieces with
    | nil => rfl
    | cons piece pieces => cases h.cut
  induction pieces generalizing bytes others with
  | nil =>
      rw [h.bytes_eq] at hothers
      exact hempty hothers
  | cons piece pieces ih =>
      cases others with
      | nil =>
          rw [hothers.bytes_eq] at h
          exact (hempty h).symm
      | cons other others =>
          have hcut := hothers.cut.symm.trans h.cut
          obtain ⟨hlexeme, hlength⟩ := Prod.mk.inj (Except.ok.inj hcut)
          obtain ⟨rest, hbytes, -, -, hrest⟩ := h.uncons
          obtain ⟨more, hwhole, -, -, hmore⟩ := hothers.uncons
          obtain ⟨hwritten, rfl⟩ := List.append_inj (hwhole.symm.trans hbytes) hlength
          have hpiece : other = piece := by
            cases other
            cases piece
            exact congrArg₂ Piece.mk hlexeme hwritten
          rw [hpiece, ih hrest hmore]

end Tiles

namespace Progress

/-- A piece leads from one progress to another: text and references are gathered, and a tag
delivers what is pending and then itself. -/
inductive Takes (progress : Progress) : Lexeme → List Event → Progress → Prop
  | text {raw : List UInt8} {text : String} (htext : strict raw = some text)
      (hblank : progress.isOutside = true → raw.all isAsciiSpace = true) :
      Takes progress (.text raw) []
        (progress.gather (String.ofList (normalizeLineEnds text.toList)))
  | characterData {raw : List UInt8} {text : String} (htext : strict raw = some text)
      (hblank : progress.isOutside = true → raw.all isAsciiSpace = true) :
      Takes progress (.characterData raw) []
        (progress.gather (String.ofList (normalizeLineEnds text.toList)))
  | reference {raw : List UInt8} {name : String} {char : Char} (hname : strict raw = some name)
      (hchar : Reference.resolve name.toList = .char char) :
      Takes progress (.reference raw) [] (progress.gather char.toString)
  | opened {content : List UInt8} {name : String} {attributes : Attributes}
      (hroot : (progress.isOutside && progress.seenRoot) = false)
      (hopen : (splitSlash content).2 = false)
      (hparse : Tag.parse (splitSlash content).1 = .ok (name, attributes)) :
      Takes progress (.startTag content) (progress.flush ++ [.start name attributes])
        ⟨Tag.rawName (splitSlash content).1 :: progress.openNames, true, ""⟩
  | closed {content : List UInt8} {name : String} {attributes : Attributes}
      (hroot : (progress.isOutside && progress.seenRoot) = false)
      (hclosed : (splitSlash content).2 = true)
      (hparse : Tag.parse (splitSlash content).1 = .ok (name, attributes)) :
      Takes progress (.startTag content) (progress.flush ++ [.start name attributes, .stop name])
        ⟨progress.openNames, true, ""⟩
  | endTag {content : List UInt8} {outer : List (List UInt8)}
      (hopen : progress.openNames = Tag.endName content :: outer) :
      Takes progress (.endTag content)
        (progress.flush ++ [.stop ((strict (Tag.endName content)).getD "")])
        ⟨outer, progress.seenRoot, ""⟩
  | aside : Takes progress .aside [] progress

variable {progress next last : Progress} {lexeme : Lexeme} {events later : List Event}

theorem takes_of_takeText {raw : List UInt8} {stop examined : Nat}
    (h : progress.takeText raw stop examined = ⟨events, .ok next⟩) :
    ∃ text, strict raw = some text ∧
      (progress.isOutside = true → raw.all isAsciiSpace = true) ∧ events = [] ∧
        next = progress.gather (String.ofList (normalizeLineEnds text.toList)) := by
  rw [takeText] at h
  split at h
  · cases h
  · rename_i text htext
    split at h
    · cases h
    · rename_i hblank
      cases h
      refine ⟨text, htext, fun houtside => ?_, rfl, rfl⟩
      simpa [houtside] using hblank

/-- Where a piece stands does not matter unless there is a fault in it. -/
theorem takes_iff {start stop : Nat} :
    progress.Takes lexeme events next ↔
      progress.take start stop lexeme = ⟨events, .ok next⟩ := by
  constructor
  · rintro (⟨htext, hblank⟩ | ⟨htext, hblank⟩ | ⟨hname, hchar⟩ | ⟨hroot, hopen, hparse⟩ |
      ⟨hroot, hclosed, hparse⟩ | hopen | _)
    · rw [take, takeText, htext]
      cases houtside : progress.isOutside <;> simp_all
    · rw [take, takeText, htext]
      cases houtside : progress.isOutside <;> simp_all
    · simp [take, takeReference, hname, hchar]
    · simp [take, takeStart, hroot, hopen, hparse]
    · simp [take, takeStart, hroot, hclosed, hparse]
    · simp [take, takeEnd, hopen]
    · rfl
  · intro h
    cases lexeme with
    | text raw =>
        obtain ⟨text, htext, hblank, rfl, rfl⟩ := takes_of_takeText h
        exact .text htext hblank
    | characterData raw =>
        obtain ⟨text, htext, hblank, rfl, rfl⟩ := takes_of_takeText h
        exact .characterData htext hblank
    | aside =>
        cases h
        exact .aside
    | reference raw =>
        rw [take, takeReference] at h
        cases hname : strict raw with
        | none =>
            rw [hname] at h
            cases h
        | some name =>
            rw [hname, Option.map_some] at h
            cases hchar : Reference.resolve name.toList with
            | char char =>
                rw [hchar] at h
                cases h
                exact .reference hname hchar
            | invalidNumber | unknownName =>
                rw [hchar] at h
                cases h
    | startTag content =>
        rw [take, takeStart] at h
        split at h
        · cases h
        rename_i hroot
        dsimp only at h
        split at h
        · cases h
        rename_i name attributes hparse
        split at h
        · rename_i hclosed
          cases h
          exact .closed (Bool.eq_false_iff.mpr hroot) hclosed hparse
        · rename_i hopen
          cases h
          exact .opened (Bool.eq_false_iff.mpr hroot) (Bool.eq_false_iff.mpr hopen) hparse
    | endTag content =>
        rw [take, takeEnd] at h
        split at h
        · cases h
        · rename_i expected outer hopen
          split at h
          · rename_i hfound
            cases h
            rw [← hfound]
            exact .endTag (hfound ▸ hopen)
          · cases h

/-- Pieces in turn lead from one progress to another. -/
inductive Follows : Progress → List Lexeme → List Event → Progress → Prop
  | nil (progress : Progress) : Follows progress [] [] progress
  | cons {progress next last : Progress} {lexeme : Lexeme} {lexemes : List Lexeme}
      {events later : List Event} (htakes : progress.Takes lexeme events next)
      (hrest : Follows next lexemes later last) :
      Follows progress (lexeme :: lexemes) (events ++ later) last

end Progress

open Progress

variable {progress next last : Progress} {events : List Event} {bytes : List UInt8}

theorem readFrom_append {ending : Ending} {lexeme : Lexeme} {written rest : List UInt8}
    {offset : Nat} (hne : written ≠ [])
    (hcut : Lexeme.cut ending (written ++ rest) = .ok (lexeme, written.length))
    (htake : progress.take offset (offset + written.length) lexeme = ⟨events, .ok next⟩) :
    readFrom ending progress offset (written ++ rest) =
      (events ++ (readFrom ending next (offset + written.length) rest).1,
        (readFrom ending next (offset + written.length) rest).2) := by
  obtain ⟨byte, others, rfl⟩ := List.exists_cons_of_ne_nil hne
  have hdrop : (others ++ rest).drop ((byte :: others).length - 1) = rest := List.drop_left
  rw [List.cons_append] at hcut ⊢
  rw [readFrom, hcut]
  simp only [htake, hdrop]

theorem readFrom_of_follows {pieces : List Piece} (htiles : Tiles bytes pieces)
    (h : Follows progress (pieces.map Piece.lexeme) events last) (hend : last.fault? = none)
    (offset : Nat) : readFrom .complete progress offset bytes = (events, none) := by
  induction pieces generalizing bytes progress events offset with
  | nil =>
      cases h
      rw [htiles.bytes_eq]
      simp [readFrom, hend]
  | cons piece pieces ih =>
      have hcut := htiles.cut
      obtain ⟨rest, rfl, hwrites, -, hrest⟩ := htiles.uncons
      cases h with
      | cons htakes hfollows =>
          rw [readFrom_append hwrites.ne_nil hcut (takes_iff.mp htakes), ih hrest hfollows]

theorem exists_tiles_of_readFrom {ending : Ending} (hcomplete : ending = .complete) (offset : Nat)
    (h : readFrom ending progress offset bytes = (events, none)) :
    ∃ pieces last, Tiles bytes pieces ∧
      Follows progress (pieces.map Piece.lexeme) events last ∧ last.fault? = none := by
  fun_induction readFrom ending progress offset bytes generalizing events with
  | case1 => cases h
  | case2 progress offset =>
      obtain ⟨rfl, hend⟩ := Prod.mk.inj h
      exact ⟨[], progress, ⟨rfl, List.forall_mem_nil _, .nil⟩, .nil progress,
        Option.map_eq_none_iff.mp hend⟩
  | case3 => cases h
  | case4 => cases h
  | case5 progress offset byte bytes lexeme length hcut found next htake later halt hread ih =>
      obtain ⟨rfl, rfl⟩ := Prod.mk.inj h
      rw [hcomplete] at hcut
      obtain ⟨written, rest, hbytes, hlength, hwrites, hends⟩ := Lexeme.cut_eq_ok_iff.mp hcut
      have hrest : bytes.drop (length - 1) = rest := by
        obtain ⟨first, others, rfl⟩ := List.exists_cons_of_ne_nil hwrites.ne_nil
        obtain ⟨-, rfl⟩ := List.cons.inj hbytes
        rw [hlength]
        exact List.drop_left
      obtain ⟨pieces, last, htiles, hfollows, hend⟩ := ih hread
      rw [hrest] at htiles
      rw [hbytes]
      exact ⟨⟨lexeme, written⟩ :: pieces, last, Tiles.cons ⟨lexeme, written⟩ hwrites htiles
        hends, .cons (takes_iff.mpr htake) hfollows, hend⟩

/-! The events of a document, told from its pieces. -/

namespace Lexeme

def isTag : Lexeme → Bool
  | .startTag _ | .endTag _ => true
  | .text _ | .characterData _ | .reference _ | .aside => false

/-- What a piece contributes to the text that it is part of: text the lines of which end in line
feeds, and the character of a reference as it is. -/
def spoken : Lexeme → String
  | .text raw | .characterData raw =>
      String.ofList (normalizeLineEnds ((strict raw).getD "").toList)
  | .reference raw =>
      match Reference.resolve ((strict raw).getD "").toList with
      | .char char => char.toString
      | .invalidNumber | .unknownName => ""
  | .startTag _ | .endTag _ | .aside => ""

/-- What a tag is delivered as. -/
def tagEvents : Lexeme → List Event
  | .startTag content =>
      match Tag.parse (splitSlash content).1 with
      | .ok (name, attributes) =>
          .start name attributes :: if (splitSlash content).2 then [.stop name] else []
      | .error _ => []
  | .endTag content => [.stop ((strict (Tag.endName content)).getD "")]
  | .text _ | .characterData _ | .reference _ | .aside => []

end Lexeme

/-- A text as an event, if there is any. -/
def textEvents (content : String) : List Event :=
  if content.isEmpty then [] else [.text content]

/-- The pieces up to the first tag. -/
def untilTag (lexemes : List Lexeme) : List Lexeme :=
  lexemes.takeWhile fun lexeme => !lexeme.isTag

/-- Tags with what all pieces between two of them say together. -/
def transcript : List Lexeme → List Event
  | [] => []
  | lexeme :: rest =>
      lexeme.tagEvents ++
        (if lexeme.isTag && rest.any Lexeme.isTag then
          textEvents (String.join ((untilTag rest).map Lexeme.spoken)) else []) ++
        transcript rest

namespace Progress

variable {progress next last : Progress} {lexeme : Lexeme} {lexemes : List Lexeme}
  {events : List Event}

theorem flush_eq (progress : Progress) : progress.flush = textEvents progress.pending :=
  rfl

/-- Text that is pending is inside the root element, and so is every open element. -/
structure Settled (progress : Progress) : Prop where
  pending : progress.isOutside = true → progress.pending = ""
  seenRoot : progress.isOutside = false → progress.seenRoot = true

theorem settled_initial : initial.Settled :=
  ⟨fun _ => rfl, fun h => by contradiction⟩

theorem isOutside_gather (progress : Progress) (text : String) :
    (progress.gather text).isOutside = progress.isOutside := by
  rw [gather]
  split <;> rfl

theorem gather_empty (progress : Progress) : progress.gather "" = progress := by
  rw [gather, String.append_empty, ite_self]

theorem Takes.gather (h : progress.Takes lexeme events next) (htag : lexeme.isTag = false) :
    events = [] ∧ next = progress.gather lexeme.spoken := by
  cases h with
  | text htext | characterData htext => exact ⟨rfl, by simp [Lexeme.spoken, htext]⟩
  | reference hname hchar => exact ⟨rfl, by simp [Lexeme.spoken, hname, hchar]⟩
  | aside => exact ⟨rfl, (gather_empty progress).symm⟩
  | opened | closed | endTag => contradiction

theorem Takes.tag (h : progress.Takes lexeme events next) (htag : lexeme.isTag = true)
    (hsettled : progress.Settled) :
    (progress.isOutside && progress.seenRoot) = false ∧
      events = progress.flush ++ lexeme.tagEvents ∧ next.pending = "" ∧ next.seenRoot = true := by
  cases h with
  | opened hroot hopen hparse => exact ⟨hroot, by simp [Lexeme.tagEvents, hopen, hparse], rfl, rfl⟩
  | closed hroot hclosed hparse =>
      exact ⟨hroot, by simp [Lexeme.tagEvents, hclosed, hparse], rfl, rfl⟩
  | endTag hopen =>
      have hinside : progress.isOutside = false := by simp [isOutside, hopen]
      exact ⟨by simp [hinside], rfl, rfl, hsettled.seenRoot hinside⟩
  | text | characterData | reference | aside => contradiction

theorem Settled.takes (hsettled : progress.Settled) (h : progress.Takes lexeme events next) :
    next.Settled := by
  cases htag : lexeme.isTag with
  | true =>
      obtain ⟨-, -, hpending, hseen⟩ := h.tag htag hsettled
      exact ⟨fun _ => hpending, fun _ => hseen⟩
  | false =>
      obtain ⟨-, rfl⟩ := h.gather htag
      rw [Progress.gather]
      split
      · exact hsettled
      · rename_i hinside
        exact ⟨fun houtside => absurd houtside hinside, hsettled.seenRoot⟩

/-- Behind the root element there is no tag. -/
theorem Follows.isTag_eq_false (h : Follows progress lexemes events last)
    (hsettled : progress.Settled) (houtside : progress.isOutside = true)
    (hseen : progress.seenRoot = true) : lexemes.any Lexeme.isTag = false := by
  induction h with
  | nil => rfl
  | @cons progress next last lexeme lexemes events later htakes _ ih =>
      cases htag : lexeme.isTag with
      | true =>
          obtain ⟨hroot, -⟩ := htakes.tag htag hsettled
          simp [houtside, hseen] at hroot
      | false =>
          have hnext := hsettled.takes htakes
          obtain ⟨-, rfl⟩ := htakes.gather htag
          rw [List.any_cons, htag, Bool.false_or]
          have hsame : progress.gather lexeme.spoken = progress := if_pos houtside
          rw [hsame] at ih
          exact ih hsettled houtside hseen

/-- Pending text and what follows it up to the next tag come before the tag. -/
theorem Follows.events_eq (h : Follows progress lexemes events last)
    (hsettled : progress.Settled) :
    events =
      (if !progress.isOutside && lexemes.any Lexeme.isTag then
        textEvents (progress.pending ++ String.join ((untilTag lexemes).map Lexeme.spoken))
        else []) ++ transcript lexemes := by
  induction h with
  | nil => simp [transcript]
  | @cons progress next last lexeme lexemes events later htakes hfollows ih =>
      have hnext := hsettled.takes htakes
      rw [ih hnext, transcript]
      cases htag : lexeme.isTag with
      | true =>
          obtain ⟨-, rfl, hpending, hseen⟩ := htakes.tag htag hsettled
          have huntil : untilTag (lexeme :: lexemes) = [] := by simp [untilTag, htag]
          have hflush : (if !progress.isOutside then textEvents progress.pending else []) =
              progress.flush := by
            cases houtside : progress.isOutside with
            | true => rw [flush_eq, hsettled.pending houtside]; rfl
            | false => rfl
          have hinside : (!next.isOutside && lexemes.any Lexeme.isTag) =
              lexemes.any Lexeme.isTag := by
            cases houtside : next.isOutside with
            | true => rw [hfollows.isTag_eq_false hnext houtside hseen]; rfl
            | false => rfl
          rw [hinside, huntil, hpending, List.any_cons, htag, Bool.true_or, Bool.and_true,
            Bool.true_and, List.map_nil, String.join_nil, String.append_empty, String.empty_append,
            hflush]
          simp only [List.append_assoc]
      | false =>
          obtain ⟨rfl, rfl⟩ := htakes.gather htag
          have huntil : untilTag (lexeme :: lexemes) = lexeme :: untilTag lexemes := by
            simp [untilTag, htag]
          have hnone : lexeme.tagEvents = [] := by
            cases lexeme <;> first | rfl | contradiction
          rw [huntil, hnone, List.any_cons, htag]
          cases houtside : progress.isOutside with
          | true => simp [isOutside_gather, houtside]
          | false =>
              have hpending : (progress.gather lexeme.spoken).pending =
                  progress.pending ++ lexeme.spoken := by
                rw [Progress.gather, if_neg (by simp [houtside])]
              rw [isOutside_gather, houtside, hpending, List.map_cons, String.join_cons,
                String.append_assoc]
              rfl

end Progress

/-- The bytes of a document behind the mark at the front. -/
def afterMark (bytes : List UInt8) : List UInt8 :=
  bytes.drop (markLength bytes)

theorem ending_of_read {source : Source} (h : (read source).failure = none) :
    source.ending = .complete := by
  obtain ⟨bytes, ending⟩ := source
  cases ending with
  | complete => rfl
  | failed =>
      rcases (read_append bytes [] .failed).2 with hfailed | ⟨-, _, _, hfailed⟩ <;>
        exact absurd (hfailed.symm.trans h) (by simp)

/-- A document without faults is made of pieces that lead to its end. -/
theorem exists_tiles_of_read {source : Source} (h : (read source).failure = none) :
    ∃ pieces last, Tiles (afterMark source.bytes) pieces ∧
      Follows .initial (pieces.map Piece.lexeme) (read source).events last ∧
        last.fault? = none := by
  refine exists_tiles_of_readFrom (ending_of_read h) 0 ?_
  exact Prod.ext rfl (Option.map_eq_none_iff.mp h)

theorem read_of_tiles {pieces : List Piece} (htiles : Tiles (afterMark bytes) pieces)
    (h : Follows .initial (pieces.map Piece.lexeme) events last) (hend : last.fault? = none) :
    read ⟨bytes, .complete⟩ = ⟨events, none⟩ := by
  have hread : Markup.events ⟨bytes, .complete⟩ = (events, none) :=
    readFrom_of_follows htiles h hend 0
  rw [read, hread]
  rfl

end Metainfo.Markup
