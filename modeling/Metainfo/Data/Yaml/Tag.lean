import Metainfo.Data.Yaml.Input
import Metainfo.Text.Digits
import Metainfo.Text.Utf8

/-!
Tags of values: a handle, which stands for the beginning of a name, and the rest of the name.
-/

namespace Metainfo.Yaml

open Metainfo.Digits
open Metainfo.Utf8

/-- A tag as it is written.  The handle is empty where the name is written in full. -/
structure Tag where
  handle : String
  suffix : List UInt8
  deriving DecidableEq, Repr

namespace Tag

def isUriChar (char : Char) : Bool :=
  isNameChar char || ";/?:@&=+$.!~*'()".toList.contains char

def isVerbatimChar (char : Char) : Bool :=
  isUriChar char || char = ',' || char = '[' || char = ']'

def followers? (byte : Nat) : Option Nat :=
  if byte < 0x80 then some 0
  else if byte < 0xC0 then none
  else if byte < 0xE0 then some 1
  else if byte < 0xF0 then some 2
  else if byte < 0xF8 then some 3
  else none

/-- How many bytes of a character are due after a byte of it, of which `owed` were due. -/
def owedAfter? (owed byte : Nat) : Option Nat :=
  match owed with
  | 0 => followers? byte
  | owed + 1 => if 0x80 ≤ byte && byte < 0xC0 then some owed else none

/-- The rest of a name.  `name` is what has been read of it, in reverse, and `owed` the number of
bytes that are due of a character that is written by the numbers of its bytes. -/
def readUri (inName : Char → Bool) (name : List UInt8) (owed : Nat) (position : Position) :
    List Char → Option (List UInt8 × Input)
  | '%' :: a :: b :: rest => do
      let byte ← number? 16 [a, b]
      let owed ← owedAfter? owed byte
      readUri inName (UInt8.ofNat byte :: name) owed (position.along 3) rest
  | char :: rest =>
      if owed != 0 || char = '%' then none
      else if inName char then readUri inName (byteOf char :: name) 0 (position.along 1) rest
      else some (name.reverse, ⟨char :: rest, position⟩)
  | [] => if owed = 0 then some (name.reverse, ⟨[], position⟩) else none

def uri? (inName : Char → Bool) (name : List UInt8) (input : Input) :
    Option (List UInt8 × Input) := do
  let (uri, rest) ← readUri inName name.reverse 0 input.position input.text
  return (uri.takeWhile (· != 0), rest)

def takeHandle (input : Input) : String × Input :=
  let (name, rest) := (input.drop 1).takeName
  match rest.text with
  | '!' :: _ => ("!" ++ name ++ "!", rest.drop 1)
  | _ => ("!" ++ name, rest)

def isHandle (handle : String) : Bool :=
  1 < handle.length && handle.endsWith "!"

def readVerbatim (input : Input) : Option (Tag × Input) := do
  let (suffix, rest) ← uri? isVerbatimChar [] input
  guard (rest.position != input.position)
  match rest.text with
  | '>' :: _ => return (⟨"", suffix⟩, rest.drop 1)
  | _ => none

def readShort (input : Input) : Option (Tag × Input) := do
  let (handle, rest) := takeHandle input
  if isHandle handle then
    let (suffix, after) ← uri? isUriChar [] rest
    guard (after.position != rest.position)
    return (⟨handle, suffix⟩, after)
  else
    let (suffix, after) ← uri? isUriChar (encode (handle.drop 1).toString) rest
    return (if suffix.isEmpty then ⟨"", encode "!"⟩ else ⟨"!", suffix⟩, after)

/-- A tag, from its exclamation mark on.  White space follows it, or a comma between brackets. -/
def read (flow : Bool) (input : Input) : Option (Tag × Input) := do
  let (tag, rest) ←
    match input.text with
    | '!' :: '<' :: _ => readVerbatim (input.drop 2)
    | _ => readShort input
  guard (atGap rest.text || (flow && rest.text.head? = some ','))
  return (tag, rest)

end Tag

end Metainfo.Yaml
