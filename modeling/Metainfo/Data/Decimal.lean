import Metainfo.Text.Digits

/-!
Decimal number texts and whether a binary number of 64 bits can hold what they write.
-/

namespace Metainfo

open Metainfo.Digits

/-- The parts of a number text without a sign: the digits before the point, those after it if
there is a point, and the exponent with its sign if there is one. -/
structure Decimal where
  whole : List Char
  fraction : Option (List Char)
  exponent : Option (Bool × List Char)
  deriving DecidableEq, Repr

namespace Decimal

def isDecimalDigit (char : Char) : Bool :=
  isDigit 10 char

def splitSign : List Char → Bool × List Char
  | '-' :: rest => (true, rest)
  | '+' :: rest => (false, rest)
  | rest => (false, rest)

def scanExponent (text : List Char) : Option (Bool × List Char) × List Char :=
  match text with
  | mark :: rest =>
      if mark = 'e' || mark = 'E' then
        let (negative, digits) := splitSign rest
        match digits.span isDecimalDigit with
        | ([], _) => (none, text)
        | (digits, rest) => (some (negative, digits), rest)
      else (none, text)
  | [] => (none, text)

def scan (text : List Char) : Decimal × List Char :=
  let (whole, rest) := text.span isDecimalDigit
  let (fraction, rest) : Option (List Char) × List Char :=
    match rest with
    | '.' :: rest =>
        let (fraction, rest) := rest.span isDecimalDigit
        (some fraction, rest)
    | rest => (none, rest)
  let (exponent, rest) := scanExponent rest
  (⟨whole, fraction, exponent⟩, rest)

def hasDigits (decimal : Decimal) : Bool :=
  !decimal.whole.isEmpty || decimal.fraction.any (!·.isEmpty)

/-- No digit but a lone zero begins with zero. -/
def isTight (decimal : Decimal) : Bool :=
  match decimal.whole with
  | ['0'] => true
  | '0' :: _ => false
  | [] => false
  | _ => true

def parse? (text : List Char) : Option Decimal :=
  match scan text with
  | (decimal, []) => if decimal.hasDigits then some decimal else none
  | _ => none

def significant (decimal : Decimal) : List Char :=
  (decimal.whole ++ decimal.fraction.getD []).dropWhile (· = '0')

/-- The power of ten by which the last digit counts. -/
def scale (decimal : Decimal) : Int :=
  let written : Int :=
    match decimal.exponent with
    | none => 0
    | some (negative, digits) =>
        let number : Int := (number? 10 digits).getD 0
        if negative then -number else number
  written - (decimal.fraction.getD []).length

/-- The least number that rounds to no binary number of 64 bits. -/
def bound : Nat := Nat.pow 2 1024 - Nat.pow 2 970

def boundLength : Nat := 309

/-- The number is small enough for a binary number of 64 bits.  As the bound is whole, only the
part before the point need be compared with it. -/
def isFinite (decimal : Decimal) : Bool :=
  let digits := decimal.significant
  let length := digits.length + decimal.scale
  if digits.isEmpty || length < boundLength then true
  else if boundLength < length then false
  else
    let before := digits.take boundLength
    let number := (number? 10 before).getD 0
    number * Nat.pow 10 (boundLength - before.length) < bound

end Decimal

end Metainfo
