import Metainfo.Data.Datum
import Metainfo.Data.Decimal
import Metainfo.Text.Affix

/-!
Values that TOML writes without quotes or brackets: truth values, numbers, dates and times.
-/

namespace Metainfo.Toml

open Metainfo.Affix
open Metainfo.Digits

/-- Digits of a base; underscores may stand between two of them. -/
def groupedDigits? (base : Nat) (text : List Char) : Option (List Char) :=
  let groups := parts '_' text
  if groups.all fun group => !group.isEmpty && group.all (isDigit base) then some groups.flatten
  else none

/-- The greatest magnitude of a whole number with the given sign. -/
def maxMagnitude (negative : Bool) : Nat :=
  if negative then Nat.pow 2 63 else Nat.pow 2 63 - 1

def isBasedInteger (base : Nat) (text : List Char) : Bool :=
  ((groupedDigits? base text).bind (number? base)).any (· ≤ maxMagnitude false)

def isTight (digits : List Char) : Bool :=
  digits.length = 1 || digits.head? != some '0'

def isDecimalInteger (negative : Bool) (text : List Char) : Bool :=
  (groupedDigits? 10 text).any fun digits =>
    isTight digits && (number? 10 digits).any (· ≤ maxMagnitude negative)

/-- A number with a fraction, an exponent or both.  Only a positive one can be too great. -/
def isFloat (negative : Bool) (text : List Char) : Bool :=
  let (mantissa, exponent) := text.span fun char => char != 'e' && char != 'E'
  let (whole, fraction) := mantissa.span (· != '.')
  let exponentDigits :=
    match exponent with
    | [] => some none
    | _ :: rest =>
        let (negative, digits) := Decimal.splitSign rest
        (groupedDigits? 10 digits).map fun digits => some (negative, digits)
  let fractionDigits :=
    match fraction with
    | [] => some none
    | _ :: rest => (groupedDigits? 10 rest).map some
  match groupedDigits? 10 whole, fractionDigits, exponentDigits with
  | some whole, some fraction, some exponent =>
      isTight whole && (fraction.isSome || exponent.isSome) &&
        (negative || Decimal.isFinite ⟨whole, fraction, exponent⟩)
  | _, _, _ => false

def isNumber (text : List Char) : Bool :=
  match text with
  | '0' :: 'x' :: digits => isBasedInteger 16 digits
  | '0' :: 'o' :: digits => isBasedInteger 8 digits
  | '0' :: 'b' :: digits => isBasedInteger 2 digits
  | text =>
      let (negative, unsigned) := Decimal.splitSign text
      unsigned = "inf".toList || unsigned = "nan".toList ||
        isDecimalInteger negative unsigned || isFloat negative unsigned

def fixedNumber? (digits low high : Nat) (text : List Char) : Option Nat :=
  if text.length = digits && text.all (isDigit 10) then
    (number? 10 text).filter fun number => low ≤ number && number ≤ high
  else none

def isLeapYear (year : Nat) : Bool :=
  year % 4 = 0 && (year % 100 != 0 || year % 400 = 0)

def daysInMonth (year month : Nat) : Nat :=
  if month = 2 then if isLeapYear year then 29 else 28
  else if month = 4 || month = 6 || month = 9 || month = 11 then 30
  else 31

def isDate (text : List Char) : Bool :=
  match parts '-' text with
  | [year, month, day] =>
      ((fixedNumber? 4 0 9999 year).bind fun year =>
        (fixedNumber? 2 1 12 month).bind fun month =>
          fixedNumber? 2 1 (daysInMonth year month) day).isSome
  | _ => false

def isTime (text : List Char) : Bool :=
  match parts ':' text with
  | [hour, minute, second] =>
      let (second, fraction) := second.span (· != '.')
      (fixedNumber? 2 0 23 hour).isSome && (fixedNumber? 2 0 59 minute).isSome &&
        (fixedNumber? 2 0 60 second).isSome &&
        match fraction with
        | [] => true
        | _ :: digits => !digits.isEmpty && digits.all (isDigit 10)
  | _ => false

def isOffset (text : List Char) : Bool :=
  match text with
  | ['Z'] | ['z'] => true
  | sign :: rest =>
      (sign = '+' || sign = '-') &&
        match parts ':' rest with
        | [hour, minute] =>
            (fixedNumber? 2 0 23 hour).isSome && (fixedNumber? 2 0 59 minute).isSome
        | _ => false
  | [] => false

def isTimeWithOffset (text : List Char) : Bool :=
  let (time, offset) :=
    text.span fun char => char != 'Z' && char != 'z' && char != '+' && char != '-'
  isTime time && (offset.isEmpty || isOffset offset)

def isMoment (text : List Char) : Bool :=
  isTime text || isDate text ||
    (isDate (text.take 10) &&
      match text.drop 10 with
      | separator :: time =>
          (separator = 'T' || separator = 't' || separator = ' ') && isTimeWithOffset time
      | [] => false)

def isScalarChar (char : Char) : Bool :=
  char.isAlphanum || char = '+' || char = '-' || char = '_' || char = '.' || char = ':'

/-- The characters of a value at the front; a space may separate a date from a time. -/
def scanScalar (text : List Char) : List Char × List Char :=
  let (scalar, rest) := text.span isScalarChar
  match rest with
  | ' ' :: digit :: _ =>
      if isDate scalar && digit.isDigit then
        let (time, rest) := (rest.drop 1).span isScalarChar
        (scalar ++ ' ' :: time, rest)
      else (scalar, rest)
  | _ => (scalar, rest)

def scalar? (text : List Char) : Option Datum :=
  if text = "true".toList then some (.bool true)
  else if text = "false".toList then some (.bool false)
  else if isNumber text then some (.number (String.ofList text))
  else if isMoment text then some (.table [("moment", .text (String.ofList text))])
  else none

end Metainfo.Toml
