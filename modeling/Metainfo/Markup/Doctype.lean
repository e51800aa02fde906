import Metainfo.Markup.Tag

/-!
The end of a document type declaration, which may hold declarations of its own in brackets.
-/

namespace Metainfo.Markup.Doctype

open Metainfo.Utf8
open Metainfo.Markup.Tag

inductive Position where
  /-- Before the brackets, in or out of quotes. -/
  | head (quote : Option Quote)
  | subset
  /-- Inside a declaration in which quotes hide the closing bracket, in or out of them. -/
  | quoted (quote : Option Quote)
  | unquoted
  /-- Inside a comment, after so many dashes in a row, of which two count. -/
  | comment (dashes : Nat)
  | instruction (mark : Bool)
  | tail
  deriving DecidableEq, Repr

def quotedDeclarations : List String :=
  ["!ENTITY", "!ATTLIST", "!NOTATION"]

def opening (rest : List UInt8) : Position × Nat :=
  if (encode "?").isPrefixOf rest then (.instruction false, 1)
  else if (encode "!--").isPrefixOf rest then (.comment 0, 3)
  else if quotedDeclarations.any fun name => (encode name).isPrefixOf rest then
    (.quoted none, 1)
  else (.unquoted, 0)

def toggle (quote : Option Quote) (byte : UInt8) : Option Quote :=
  match quote with
  | none => quote? byte
  | some quote => if quote? byte = some quote then none else some quote

/-- The position after a byte and how many of the next bytes to pass over; `none` if the byte
ends the declaration. -/
def Position.next (position : Position) (byte : UInt8) (rest : List UInt8) :
    Option (Position × Nat) :=
  match position with
  | .head quote =>
      if quote = none && byte = byteOf '>' then none
      else if quote = none && byte = byteOf '[' then some (.subset, 0)
      else some (.head (toggle quote byte), 0)
  | .subset =>
      if byte = byteOf ']' then some (.tail, 0)
      else if byte = byteOf '<' then some (opening rest)
      else some (.subset, 0)
  | .quoted quote =>
      if quote = none && byte = byteOf '>' then some (.subset, 0)
      else some (.quoted (toggle quote byte), 0)
  | .unquoted => some (if byte = byteOf '>' then .subset else .unquoted, 0)
  | .comment dashes =>
      if byte = byteOf '-' then some (.comment (min 2 (dashes + 1)), 0)
      else if byte = byteOf '>' && dashes = 2 then some (.subset, 0)
      else some (.comment 0, 0)
  | .instruction mark =>
      if byte = byteOf '>' && mark then some (.subset, 0)
      else some (.instruction (byte = byteOf '?'), 0)
  | .tail => if byte = byteOf '>' then none else some (.tail, 0)

/-- How many bytes precede the closing bracket, the first `skip` of them passed over. -/
def lengthFrom (position : Position) : Nat → List UInt8 → Option Nat
  | _, [] => none
  | skip + 1, _ :: rest => (lengthFrom position skip rest).map (· + 1)
  | 0, byte :: rest =>
      match position.next byte rest with
      | none => some 0
      | some (position, skip) => (lengthFrom position skip rest).map (· + 1)

def length? (bytes : List UInt8) : Option Nat :=
  lengthFrom (.head none) 0 bytes

end Metainfo.Markup.Doctype
