/-!
Digits of a base of at most sixteen and the numbers that they write.
-/

namespace Metainfo.Digits

/-- The value of a digit; letters of either case follow the nine. -/
def value? (base : Nat) (char : Char) : Option Nat :=
  let value :=
    if '0' ≤ char && char ≤ '9' then some (char.toNat - '0'.toNat)
    else if 'a' ≤ char && char ≤ 'f' then some (char.toNat - 'a'.toNat + 10)
    else if 'A' ≤ char && char ≤ 'F' then some (char.toNat - 'A'.toNat + 10)
    else none
  value.filter (· < base)

def isDigit (base : Nat) (char : Char) : Bool :=
  (value? base char).isSome

/-- The number that non-empty digits write after a number already written. -/
def continue? (base : Nat) : Nat → List Char → Option Nat
  | number, [] => some number
  | number, char :: rest => do
      let digit ← value? base char
      continue? base (number * base + digit) rest

def number? (base : Nat) (digits : List Char) : Option Nat :=
  if digits.isEmpty then none else continue? base 0 digits

def char? (number : Nat) : Option Char :=
  if number.isValidChar then some (Char.ofNat number) else none

end Metainfo.Digits
