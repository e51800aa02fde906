import Metainfo.Data.Yaml.Space
import Metainfo.Text.Digits

/-!
Texts in quotes, which may reach over several lines but not over a document marker.
-/

namespace Metainfo.Yaml

open Metainfo.Digits

def simpleEscape? : Char → Option Char
  | '0' => some '\x00'
  | 'a' => some '\x07'
  | 'b' => some '\x08'
  | 't' => some '\t'
  | '\t' => some '\t'
  | 'n' => some '\n'
  | 'v' => some '\x0B'
  | 'f' => some '\x0C'
  | 'r' => some '\r'
  | 'e' => some '\x1B'
  | ' ' => some ' '
  | '"' => some '"'
  | '/' => some '/'
  | '\\' => some '\\'
  | 'N' => some '\u0085'
  | '_' => some '\u00A0'
  | 'L' => some '\u2028'
  | 'P' => some '\u2029'
  | _ => none

def codedChar? (digits : List Char) : Option Char :=
  (number? 16 digits).bind char?

def finishText (text : List Char) (space : Space) : String :=
  String.ofList (space.onto text).reverse

/-- The rest of a text in double quotes.  `text` is what has been read of it, in reverse, and
`space` the white space after that. -/
def readDouble (text : List Char) (space : Space) (position : Position) :
    List Char → Option (String × Input)
  | [] => none
  | '"' :: rest => some (finishText text space, ⟨rest, position.along 1⟩)
  | '\\' :: 'x' :: a :: b :: rest => do
      let char ← codedChar? [a, b]
      readDouble (char :: space.onto text) .none (position.along 4) rest
  | '\\' :: 'u' :: a :: b :: c :: d :: rest => do
      let char ← codedChar? [a, b, c, d]
      readDouble (char :: space.onto text) .none (position.along 6) rest
  | '\\' :: 'U' :: a :: b :: c :: d :: e :: f :: g :: h :: rest => do
      let char ← codedChar? [a, b, c, d, e, f, g, h]
      readDouble (char :: space.onto text) .none (position.along 10) rest
  | '\\' :: letter :: rest =>
      if isBreak letter then
        readDouble (space.onto text) (.breaks none []) ((position.along 1).after letter) rest
      else do
        let char ← simpleEscape? letter
        readDouble (char :: space.onto text) .none (position.along 2) rest
  | char :: rest =>
      if isSpace char then readDouble text (space.push char) (position.after char) rest
      else if atMarker position (char :: rest) then none
      else readDouble (char :: space.onto text) .none (position.after char) rest

def readSingle (text : List Char) (space : Space) (position : Position) :
    List Char → Option (String × Input)
  | [] => none
  | '\'' :: '\'' :: rest => readSingle ('\'' :: space.onto text) .none (position.along 2) rest
  | '\'' :: rest => some (finishText text space, ⟨rest, position.along 1⟩)
  | char :: rest =>
      if isSpace char then readSingle text (space.push char) (position.after char) rest
      else if atMarker position (char :: rest) then none
      else readSingle (char :: space.onto text) .none (position.after char) rest

def readQuoted (input : Input) : Option (String × Input) :=
  match input.text with
  | '"' :: rest => readDouble [] .none (input.position.along 1) rest
  | '\'' :: rest => readSingle [] .none (input.position.along 1) rest
  | _ => none

end Metainfo.Yaml
