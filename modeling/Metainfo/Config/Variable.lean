import Metainfo.Data.Datum
import Metainfo.Data.Decimal
import Metainfo.Data.Reader
import Metainfo.Data.Toml.Text
import Metainfo.Text.Affix
import Metainfo.Text.Blank

/-!
Values of environment variables.  A variable whose text does not follow the grammar of values
stands for its text.
-/

namespace Metainfo.Variable

open Metainfo.Affix

def isSpace (char : Char) : Bool :=
  char = ' ' || char = '\t' || char = '\n' || char = '\r' || char = '\x0C'

def skipSpace (text : List Char) : List Char :=
  text.dropWhile isSpace

/-- Characters that separate values in brackets or braces. -/
def isSeparator (char : Char) : Bool :=
  ",[]\x7B\x7D".toList.contains char

def isNatural (text : List Char) : Bool :=
  (Digits.number? 10 text).any (· < Nat.pow 2 64)

/-- A whole number that 64 bits can hold, or a number with a point. -/
def isNumber (text : List Char) : Bool :=
  let (negative, unsigned) := Decimal.splitSign text
  if text.contains '.' then (Decimal.parse? unsigned).isSome
  else if negative then (Digits.number? 10 unsigned).any (· ≤ Nat.pow 2 63)
  else isNatural unsigned

def readBool (text : List Char) : Option (Datum × List Char) :=
  match withoutBeginning? text "true".toList, withoutBeginning? text "false".toList with
  | some rest, _ => some (.bool true, rest)
  | none, some rest => some (.bool false, rest)
  | none, none => none

def readBare (text : List Char) : Datum × List Char :=
  match text.span fun char => !isSeparator char with
  | (value, rest) =>
      let value := Blank.trim Blank.isWhiteSpace value
      let string := String.ofList value
      (if isNumber value then .number string else .text string, rest)

def readSeries {α : Type} (read : Reader α) (close : Char) : (limit : Nat) → Reader (List α)
  | 0, _ => none
  | limit + 1, text =>
      match text with
      | [] => none
      | char :: rest =>
          if char = close then some ([], rest)
          else do
            let (first, rest) ← read (char :: rest)
            match rest with
            | [] => none
            | char :: rest =>
                if char = ',' then
                  let (others, rest) ← readSeries read close limit rest
                  return (first :: others, rest)
                else if char = close then return ([first], rest)
                else none

def readName : Reader String
  | '"' :: rest =>
      (Toml.readQuoted rest).map fun (text, rest) => (String.ofList text, rest)
  | text =>
      match text.span Toml.isBare with
      | ([], _) => none
      | (name, rest) => some (String.ofList name, rest)

def readMember (read : Reader Datum) : Reader (String × Datum) :=
  fun text => do
    let (name, rest) ← readName (skipSpace text)
    match skipSpace rest with
    | '=' :: rest =>
        let (datum, rest) ← read rest
        return ((name, datum), rest)
    | _ => none

/-- A value in which brackets and braces are nested at most `depth` deep, and the white space
after it. -/
def readValue : (depth : Nat) → Reader Datum
  | 0, _ => none
  | depth + 1, text =>
      let read : Option (Datum × List Char) :=
        match skipSpace text with
        | [] => some (.text "", [])
        | '\x7B' :: rest =>
            (readSeries (readMember (readValue depth)) '\x7D' rest.length.succ rest).map
              fun (members, rest) => (.table members, rest)
        | '[' :: rest =>
            (readSeries (readValue depth) ']' rest.length.succ rest).map fun (items, rest) =>
              (.list items, rest)
        | '"' :: rest =>
            (Toml.readQuoted rest).map fun (text, rest) => (.text (String.ofList text), rest)
        | '\'' :: char :: '\'' :: rest => some (.text (String.ofList [char]), rest)
        | '\'' :: _ => none
        | text => (readBool text).or (some (readBare text))
      read.map fun (datum, rest) => (datum, skipSpace rest)

def value (text : String) : Datum :=
  match readValue text.length.succ text.toList with
  | some (datum, []) => datum
  | _ => .text text

def lower (text : List Char) : List Char :=
  text.map Char.toLower

def beginning : String := "APPDATA_"

/-- A key with points leads through tables. -/
def nest : (keys : List String) → Datum → Option (String × Datum)
  | [], _ => none
  | [key], datum => some (key, datum)
  | key :: keys, datum => (nest keys datum).map fun member => (key, .table [member])

/-- The member that a variable describes, if it is one of the program's.  White space around the
name and around its part after the beginning does not count. -/
def member? (name text : String) : Option (String × Datum) := do
  let name := lower (Blank.trim Blank.isWhiteSpace name.toList)
  let key ← withoutBeginning? name (lower beginning.toList)
  let keys := parts '.' (Blank.trim Blank.isWhiteSpace key)
  guard (keys.all fun key => !key.isEmpty)
  nest (keys.map String.ofList) (value text)

def members (environment : List (String × String)) : List (String × Datum) :=
  environment.filterMap fun (name, text) => member? name text

end Metainfo.Variable
