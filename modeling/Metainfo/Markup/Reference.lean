import Metainfo.Text.Digits

/-!
References to characters, by number or by one of the five names that every document knows.
-/

namespace Metainfo.Markup.Reference

open Metainfo.Digits

inductive Resolution where
  | char (char : Char)
  | invalidNumber
  | unknownName
  deriving DecidableEq, Repr

def charOfNumber? (number : Nat) : Option Char :=
  (char? number).filter (· != '\x00')

def named? : List Char → Option Char
  | ['l', 't'] => some '<'
  | ['g', 't'] => some '>'
  | ['a', 'm', 'p'] => some '&'
  | ['a', 'p', 'o', 's'] => some '\''
  | ['q', 'u', 'o', 't'] => some '"'
  | _ => none

def resolve : List Char → Resolution
  | '#' :: 'x' :: digits =>
      ((number? 16 digits).bind charOfNumber?).elim .invalidNumber .char
  | '#' :: digits =>
      ((number? 10 digits).bind charOfNumber?).elim .invalidNumber .char
  | name => (named? name).elim .unknownName .char

/-- Replaces the references in a text, of which the name of one may have been read in part and is
held in reverse.  A name that stands for nothing is refused, and so is one that is not ended
before the next ampersand. -/
def expandFrom : Option (List Char) → List Char → Option (List Char)
  | none, [] => some []
  | some _, [] => none
  | none, char :: rest =>
      if char = '&' then expandFrom (some []) rest else (expandFrom none rest).map (char :: ·)
  | some name, char :: rest =>
      if char = '&' then none
      else if char = ';' then
        match resolve name.reverse with
        | .char char => (expandFrom none rest).map (char :: ·)
        | _ => none
      else expandFrom (some (char :: name)) rest

def expand? (text : String) : Option String :=
  (expandFrom none text.toList).map String.ofList

end Metainfo.Markup.Reference
