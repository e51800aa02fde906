import Metainfo.Markup.Doctype
import Metainfo.Text.Source

/-!
The pieces of a document, cut off its front one after the other: text up to the next `<` or `&`,
references, tags, and what is passed over.
-/

namespace Metainfo.Markup

open Metainfo.Utf8
open Metainfo.Blank

inductive Lexeme where
  | text (raw : List UInt8)
  | reference (raw : List UInt8)
  | startTag (content : List UInt8)
  | endTag (content : List UInt8)
  | characterData (raw : List UInt8)
  /-- A comment, an instruction or a document type declaration. -/
  | aside
  deriving DecidableEq, Repr

/-- Why no piece could be cut off.  The offset of a fault counts from the front, and so do the
bytes that had been looked at when it was found. -/
inductive Halt where
  | fault (fault : Fault) (offset examined : Nat)
  | unreadable
  deriving DecidableEq, Repr

def Halt.shift (amount : Nat) : Halt → Halt
  | .fault cause offset examined => .fault cause (amount + offset) (amount + examined)
  | .unreadable => .unreadable

def before? (pattern : List UInt8) : List UInt8 → Option (List UInt8)
  | [] => if pattern.isEmpty then some [] else none
  | byte :: rest =>
      if pattern.isPrefixOf (byte :: rest) then some []
      else (before? pattern rest).map (byte :: ·)

namespace Lexeme

/-- More input was needed than `length` bytes: a fault at the front if there is none, a failure
if it was cut off. -/
def exhausted (ending : Ending) (length : Nat) (fault : Fault) : Halt :=
  match ending with
  | .complete => .fault fault 0 length
  | .failed => .unreadable

/-- A piece with the number of bytes that it takes, which is never zero. -/
abbrev Cut : Type :=
  Except Halt (Lexeme × Nat)

def isDelimiter (byte : UInt8) : Bool :=
  byte = byteOf '<' || byte = byteOf '&'

/-- The bytes after a piece that are looked at to find its end. -/
def lookahead : Lexeme → Nat
  | .text _ => 1
  | _ => 0

def cutText (ending : Ending) (bytes : List UInt8) : Cut :=
  let raw := bytes.takeWhile fun byte => !isDelimiter byte
  if raw.length = bytes.length && ending = .failed then .error .unreadable
  else .ok (.text raw, raw.length)

def cutReference (ending : Ending) (rest : List UInt8) : Cut :=
  let raw := rest.takeWhile fun byte => !isDelimiter byte && byte != byteOf ';'
  match rest.drop raw.length with
  | [] => .error (exhausted ending (raw.length + 1) .unclosedReference)
  | byte :: _ =>
      if byte = byteOf ';' then .ok (.reference raw, raw.length + 2)
      else .error (.fault .unclosedReference 0 (raw.length + 2))

def cutTag (ending : Ending) (opening : Nat) (lexeme : List UInt8 → Lexeme)
    (rest : List UInt8) : Cut :=
  match Tag.content none rest with
  | .ok content => .ok (lexeme content, opening + content.length + 1)
  | .error none => .error (exhausted ending (opening + rest.length) .unclosedTag)
  | .error (some quote) =>
      .error (exhausted ending (opening + rest.length) (.unclosedValue quote))

/-- A comment, from its opening bracket on: its last bytes may not be among its first four. -/
def cutComment (ending : Ending) (bytes : List UInt8) : Cut :=
  match before? (encode "-->") (bytes.drop 4) with
  | none => .error (exhausted ending bytes.length .unclosedComment)
  | some content =>
      if (encode "<!--").isPrefixOf bytes then .ok (.aside, content.length + 7)
      else .error (.fault .unclosedComment 0 (content.length + 7))

def cutCharacterData (ending : Ending) (bytes : List UInt8) : Cut :=
  match before? (encode "]]>") bytes with
  | none => .error (exhausted ending bytes.length .unclosedCharacterData)
  | some content =>
      if (encode "<![CDATA[").isPrefixOf bytes then
        .ok (.characterData (content.drop 9), content.length + 3)
      else .error (.fault .unclosedCharacterData 0 (content.length + 3))

def isCapitalized (text : String) (bytes : List UInt8) : Bool :=
  (encode text).isPrefixOf
    (bytes.map fun byte =>
      if byteOf 'a' ≤ byte && byte ≤ byteOf 'z' then byte - 32 else byte)

def cutDoctype (ending : Ending) (bytes : List UInt8) : Cut :=
  match Doctype.length? (bytes.drop 2) with
  | none => .error (exhausted ending bytes.length .unclosedDoctype)
  | some length =>
      let content := (bytes.drop 2).take length
      if isCapitalized "DOCTYPE" (content.take 7) then
        if (content.drop 7).all isSpace then
          .error (.fault .namelessDoctype (length + 2) (length + 3))
        else .ok (.aside, length + 3)
      else .error (.fault .unclosedDoctype 0 (length + 3))

/-- An instruction is a declaration if its target is `xml`. -/
def unclosedInstruction (target : List UInt8) : Fault :=
  if (encode "xml").isPrefixOf target then
    match target.drop 3 with
    | [] => .unclosedDeclaration
    | byte :: _ =>
        if isSpace byte || byte = byteOf '?' then .unclosedDeclaration else .unclosedInstruction
  else .unclosedInstruction

def cutInstruction (ending : Ending) (rest : List UInt8) : Cut :=
  match before? (encode "?>") rest with
  | none => .error (exhausted ending (rest.length + 1) (unclosedInstruction (rest.drop 1)))
  | some [] => .error (.fault .unclosedInstruction 0 3)
  | some content => .ok (.aside, content.length + 3)

/-- What begins with `<!`, told apart by the next byte. -/
def cutDeclaration (ending : Ending) (bytes : List UInt8) : Cut :=
  match bytes.drop 2 with
  | [] => .error (exhausted ending bytes.length .unknownMarkup)
  | byte :: _ =>
      if byte = byteOf '[' then cutCharacterData ending bytes
      else if byte = byteOf '-' then cutComment ending bytes
      else if byte = byteOf 'D' || byte = byteOf 'd' then cutDoctype ending bytes
      else .error (.fault .unknownMarkup 0 3)

def cutMarkup (ending : Ending) (bytes : List UInt8) : Cut :=
  match bytes.drop 1 with
  | [] => .error (exhausted ending bytes.length .unclosedTag)
  | byte :: rest =>
      if byte = byteOf '/' then cutTag ending 2 .endTag rest
      else if byte = byteOf '!' then cutDeclaration ending bytes
      else if byte = byteOf '?' then cutInstruction ending (byte :: rest)
      else cutTag ending 1 .startTag (byte :: rest)

def cut (ending : Ending) (bytes : List UInt8) : Cut :=
  match bytes with
  | [] => .error .unreadable
  | byte :: rest =>
      if byte = byteOf '<' then cutMarkup ending (byte :: rest)
      else if byte = byteOf '&' then cutReference ending rest
      else cutText ending (byte :: rest)

end Lexeme

end Metainfo.Markup
