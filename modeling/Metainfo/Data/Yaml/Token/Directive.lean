import Metainfo.Data.Yaml.Token

/-!
Directives, which stand before a document: its version, and the meanings of the handles of tags.
-/

namespace Metainfo.Yaml.Directive

open Metainfo.Digits

def maxDigits : Nat := 9

def readNumber (input : Input) : Option (Nat × Input) := do
  let digits := input.text.takeWhile Char.isDigit
  guard (digits.length ≤ maxDigits)
  let number ← number? 10 digits
  return (number, input.drop digits.length)

def readVersion (input : Input) : Option (Token × Input) := do
  let (major, rest) ← readNumber (input.dropWhile isBlank)
  match rest.text with
  | '.' :: _ =>
      let (minor, rest) ← readNumber (rest.drop 1)
      return (.version major minor, rest)
  | _ => none

def readHandle (input : Input) : Option (Token × Input) := do
  let input := input.dropWhile isBlank
  guard (input.text.head? = some '!')
  let (handle, rest) := Tag.takeHandle input
  guard (Tag.isHandle handle || handle = "!")
  guard (rest.text.head?.any isBlank)
  let rest := rest.dropWhile isBlank
  let (beginning, after) ← Tag.uri? Tag.isVerbatimChar [] rest
  guard (after.position != rest.position && atGap after.text)
  return (.handle handle beginning, after)

def read (input : Input) : Option (Token × Input) := do
  let (name, rest) := (input.drop 1).takeName
  guard (atGap rest.text)
  let (token, rest) ←
    if name = "YAML" then readVersion rest
    else if name = "TAG" then readHandle rest
    else none
  return (token, ← rest.lineEnd?)

end Metainfo.Yaml.Directive
