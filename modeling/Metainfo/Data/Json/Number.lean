import Metainfo.Data.Decimal

/-!
The numbers that JSON admits.  A number is read as its leading digits, as many as 64 bits hold,
times a power of ten; both are rounded to binary numbers of 64 bits, and their product must be one
too.  So a number that is only just small enough may be refused.
-/

namespace Metainfo.Json

open Metainfo.Digits

/-- Leading digits of a number and the power of ten by which they count. -/
structure Leading where
  digits : Nat
  exponent : Int
  deriving DecidableEq, Repr

def gather (number : Nat) : List Char → Nat × List Char
  | [] => (number, [])
  | char :: rest =>
      let longer := number * 10 + (value? 10 char).getD 0
      if longer < Nat.pow 2 64 then gather longer rest else (number, char :: rest)

/-- The leading digits of a number without its exponent.  Digits before the point that are left
raise the power, and digits after it that are taken lower it. -/
def Leading.ofDecimal (decimal : Decimal) : Leading :=
  let fraction := decimal.fraction.getD []
  let (digits, left) := gather 0 decimal.whole
  let (digits, leftAfter) := gather digits fraction
  ⟨digits, (left.length : Int) - ((fraction.length - leftAfter.length : Nat) : Int)⟩

/-- The nearest number of 53 binary digits; of two the even one. -/
def roundBinary (number : Nat) : Nat :=
  let unit := Nat.pow 2 (number.log2 - 52)
  let below := number / unit
  let half := 2 * (number % unit)
  if unit < half || (half = unit && below % 2 = 1) then (below + 1) * unit else below * unit

def maxPower : Nat := 308

def Leading.isInRange (leading : Leading) : Bool :=
  leading.digits = 0 || leading.exponent < 0 ||
    (leading.exponent ≤ maxPower &&
      roundBinary leading.digits * roundBinary (Nat.pow 10 leading.exponent.toNat) <
        Decimal.bound)

/-- A written exponent may be as great as a number of 31 bits; greater ones make any number but
zero too great, or too small to tell from zero. -/
def isInRange (decimal : Decimal) : Bool :=
  let leading := Leading.ofDecimal decimal
  match decimal.exponent with
  | none => leading.isInRange
  | some (negative, digits) =>
      let number := (number? 10 digits).getD 0
      if number < Nat.pow 2 31 then
        let change : Int := if negative then -number else number
        Leading.isInRange { leading with exponent := leading.exponent + change }
      else negative || leading.digits = 0

end Metainfo.Json
