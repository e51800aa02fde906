import Metainfo.Markup.Lexeme

/-!
Events of a document from its pieces.  Text that is interrupted by nothing but comments and the
like is delivered at once, before the next tag; tags must match, and outside the root element
there may be only white space.
-/

namespace Metainfo.Markup

open Metainfo.Utf8
open Metainfo.Blank

/-- What has been read of a document: the names of the open elements, innermost first, whether
there was an element at all, and the text not yet delivered. -/
structure Progress where
  openNames : List (List UInt8)
  seenRoot : Bool
  pending : String
  deriving DecidableEq, Repr

namespace Progress

def initial : Progress := ⟨[], false, ""⟩

def isOutside (progress : Progress) : Bool :=
  progress.openNames.isEmpty

/-- What a piece leads to: events, and then progress or a halt. -/
structure Step where
  events : List Event
  result : Except Halt Progress

def halt (fault : Fault) (offset examined : Nat) : Step :=
  ⟨[], .error (.fault fault offset examined)⟩

def flush (progress : Progress) : List Event :=
  if progress.pending.isEmpty then [] else [.text progress.pending]

def gather (progress : Progress) (text : String) : Progress :=
  if progress.isOutside then progress
  else { progress with pending := progress.pending ++ text }

def normalizeLineEnds : List Char → List Char
  | '\r' :: '\n' :: rest => '\n' :: normalizeLineEnds rest
  | '\r' :: rest => '\n' :: normalizeLineEnds rest
  | char :: rest => char :: normalizeLineEnds rest
  | [] => []

def takeText (progress : Progress) (raw : List UInt8) (stop examined : Nat) : Step :=
  match strict raw with
  | none => halt .invalidToken stop examined
  | some text =>
      if progress.isOutside && !raw.all isAsciiSpace then
        halt (if progress.seenRoot then .junkAfterRoot else .strayText) stop examined
      else ⟨[], .ok (progress.gather (String.ofList (normalizeLineEnds text.toList)))⟩

def takeReference (progress : Progress) (raw : List UInt8) (stop : Nat) : Step :=
  match (strict raw).map fun name => Reference.resolve name.toList with
  | some (.char char) => ⟨[], .ok (progress.gather char.toString)⟩
  | some .unknownName => halt .undefinedEntity stop stop
  | _ => halt .invalidCharacterNumber stop stop

/-- The content of a start tag without the slash that closes the element at once, if there is
one. -/
def splitSlash (content : List UInt8) : List UInt8 × Bool :=
  if content.getLast? = some (byteOf '/') then (content.dropLast, true) else (content, false)

def takeStart (progress : Progress) (content : List UInt8) (stop : Nat) : Step :=
  if progress.isOutside && progress.seenRoot then halt .junkAfterRoot stop stop
  else
    let (content, closed) := splitSlash content
    match Tag.parse content with
    | .error fault => ⟨progress.flush, .error (.fault fault stop stop)⟩
    | .ok (name, attributes) =>
        if closed then
          ⟨progress.flush ++ [.start name attributes, .stop name],
            .ok ⟨progress.openNames, true, ""⟩⟩
        else
          ⟨progress.flush ++ [.start name attributes],
            .ok ⟨Tag.rawName content :: progress.openNames, true, ""⟩⟩

def takeEnd (progress : Progress) (content : List UInt8) (start stop : Nat) : Step :=
  let found := Tag.endName content
  match progress.openNames with
  | [] => halt (.unmatchedEnd ((strict found).getD "")) start stop
  | expected :: outer =>
      if found = expected then
        ⟨progress.flush ++ [.stop ((strict expected).getD "")],
          .ok ⟨outer, progress.seenRoot, ""⟩⟩
      else
        halt (.mismatchedEnd ((strict expected).getD "") ((strict found).getD "")) start stop

/-- Takes a piece that reaches from `start` to `stop`. -/
def take (progress : Progress) (start stop : Nat) (lexeme : Lexeme) : Step :=
  match lexeme with
  | .text raw => progress.takeText raw stop (stop + lexeme.lookahead)
  | .characterData raw => progress.takeText raw stop (stop + lexeme.lookahead)
  | .reference raw => progress.takeReference raw stop
  | .startTag content => progress.takeStart content stop
  | .endTag content => progress.takeEnd content start stop
  | .aside => ⟨[], .ok progress⟩

def fault? (progress : Progress) : Option Fault :=
  if !progress.isOutside then some .unclosedElement
  else if !progress.seenRoot then some .noElement
  else none

end Progress

/-- Reads the rest of a document, which begins at an offset. -/
def readFrom (ending : Ending) (progress : Progress) (offset : Nat) (rest : List UInt8) :
    List Event × Option Halt :=
  match rest with
  | [] =>
      match ending with
      | .failed => ([], some .unreadable)
      | .complete => ([], progress.fault?.map fun fault => .fault fault offset offset)
  | byte :: bytes =>
      match Lexeme.cut ending (byte :: bytes) with
      | .error halt => ([], some (halt.shift offset))
      | .ok (lexeme, length) =>
          match progress.take offset (offset + length) lexeme with
          | ⟨events, .error halt⟩ => (events, some halt)
          | ⟨events, .ok progress⟩ =>
              match readFrom ending progress (offset + length) (bytes.drop (length - 1)) with
              | (later, halt) => (events ++ later, halt)
  termination_by rest.length
  decreasing_by simp only [List.length_drop, List.length_cons]; omega

def byteOrderMark : List UInt8 :=
  [0xEF, 0xBB, 0xBF]

def markLength (bytes : List UInt8) : Nat :=
  if byteOrderMark.isPrefixOf bytes then byteOrderMark.length else 0

def events (source : Source) : List Event × Option Halt :=
  readFrom source.ending .initial 0 (source.bytes.drop (markLength source.bytes))

/-- Offsets do not count a mark at the front, but the lines are found in the bytes as read. -/
def Halt.toFailure (bytes : List UInt8) : Halt → Failure
  | .fault cause offset _ => .malformed cause ((LineIndex.empty.record bytes).location offset)
  | .unreadable => .unreadable

def read (source : Source) : Reading :=
  match events source with
  | (events, halt) => ⟨events, halt.map (·.toFailure source.bytes)⟩

/-- How many bytes of an input have been looked at when the reading of its document ends; all of
them unless there is a fault. -/
def examined (source : Source) : Nat :=
  match (events source).2 with
  | some (.fault _ _ examined) => markLength source.bytes + examined
  | _ => source.bytes.length

end Metainfo.Markup
