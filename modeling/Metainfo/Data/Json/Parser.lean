import Metainfo.Data.Datum
import Metainfo.Data.Json.Number
import Metainfo.Data.Reader

/-!
Reading JSON texts, strictly by the grammar: nothing may stand after a value, and no comma may
stand after the last item or member.
-/

namespace Metainfo.Json

open Metainfo.Digits

def isSpace (char : Char) : Bool :=
  char = ' ' || char = '\t' || char = '\n' || char = '\r'

def skipSpace (text : List Char) : List Char :=
  text.dropWhile isSpace

def simpleEscape? : Char → Option Char
  | '"' => some '"'
  | '\\' => some '\\'
  | '/' => some '/'
  | 'b' => some '\x08'
  | 'f' => some '\x0C'
  | 'n' => some '\n'
  | 'r' => some '\r'
  | 't' => some '\t'
  | _ => none

/-- The first half of a character that is written as two units. -/
def isHighHalf (unit : Nat) : Bool :=
  0xD800 ≤ unit && unit < 0xDC00

def isLowHalf (unit : Nat) : Bool :=
  0xDC00 ≤ unit && unit < 0xE000

def joinHalves (high low : Nat) : Char :=
  Char.ofNat (0x10000 + (high - 0xD800) * 0x400 + (low - 0xDC00))

/-- The rest of a text in quotes, up to the closing quote, after the first half of a character or
not. -/
def readText (high : Option Nat) : List Char → Option (List Char × List Char)
  | '\\' :: 'u' :: a :: b :: c :: d :: rest => do
      let unit ← number? 16 [a, b, c, d]
      match high with
      | some half =>
          if isLowHalf unit then
            let (text, rest) ← readText none rest
            return (joinHalves half unit :: text, rest)
          else none
      | none =>
          if isHighHalf unit then readText (some unit) rest
          else
            let char ← char? unit
            let (text, rest) ← readText none rest
            return (char :: text, rest)
  | '\\' :: letter :: rest => do
      guard high.isNone
      let char ← simpleEscape? letter
      let (text, rest) ← readText none rest
      return (char :: text, rest)
  | '"' :: rest => if high.isNone then some ([], rest) else none
  | char :: rest => do
      guard (high.isNone && ' ' ≤ char)
      let (text, rest) ← readText none rest
      return (char :: text, rest)
  | [] => none

/-- A number at the front: no sign but a minus, no digit missing around the point, and none but a
lone zero before it that begins with zero. -/
def readNumber (text : List Char) : Option (Datum × List Char) :=
  let unsigned :=
    match text with
    | '-' :: rest => rest
    | text => text
  match Decimal.scan unsigned with
  | (decimal, rest) =>
      if decimal.isTight && decimal.fraction != some [] && isInRange decimal then
        some (.number (String.ofList (text.take (text.length - rest.length))), rest)
      else none

def readWord (word : String) (datum : Datum) (text : List Char) : Option (Datum × List Char) :=
  if word.toList.isPrefixOf text then some (datum, text.drop word.length) else none

/-- Things with commas between them, up to the closing bracket; no more than `limit` are read. -/
def readSeries {α : Type} (read : Reader α) (close : Char) : (limit : Nat) → Reader (List α)
  | 0, _ => none
  | limit + 1, text => do
      let (first, rest) ← read text
      match skipSpace rest with
      | [] => none
      | char :: rest =>
          if char = close then return ([first], rest)
          else if char = ',' then
            let (others, rest) ← readSeries read close limit (skipSpace rest)
            return (first :: others, rest)
          else none

def readBracketed {α : Type} (read : Reader α) (close : Char) : Reader (List α) :=
  fun text =>
    match skipSpace text with
    | [] => none
    | char :: rest =>
        if char = close then some ([], rest)
        else readSeries read close rest.length.succ (char :: rest)

def readMember (read : Reader Datum) : Reader (String × Datum)
  | '"' :: rest => do
      let (name, rest) ← readText none rest
      match skipSpace rest with
      | ':' :: rest =>
          let (value, rest) ← read (skipSpace rest)
          return ((String.ofList name, value), rest)
      | _ => none
  | _ => none

def readScalar (text : List Char) : Option (Datum × List Char) :=
  match text with
  | '"' :: rest => (readText none rest).map fun (text, rest) => (.text (String.ofList text), rest)
  | 'n' :: _ => readWord "null" .null text
  | 't' :: _ => readWord "true" (.bool true) text
  | 'f' :: _ => readWord "false" (.bool false) text
  | _ => readNumber text

/-- A value in which lists and tables are nested at most `depth` deep. -/
def readValue : (depth : Nat) → Reader Datum
  | 0, text => readScalar text
  | depth + 1, text =>
      match text with
      | '[' :: rest =>
          (readBracketed (readValue depth) ']' rest).map fun (items, rest) => (.list items, rest)
      | '{' :: rest =>
          (readBracketed (readMember (readValue depth)) '}' rest).map fun (members, rest) =>
            (.table members, rest)
      | text => readScalar text

def maxDepth : Nat := 127

def parse (text : String) : Option Datum := do
  let (datum, rest) ← readValue maxDepth (skipSpace text.toList)
  if (skipSpace rest).isEmpty then some datum else none

end Metainfo.Json
