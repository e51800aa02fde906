import Metainfo.Data.Reader
import Metainfo.Text.Digits

/-!
Texts in quotes, keys and the space between them, as TOML writes them.
-/

namespace Metainfo.Toml

open Metainfo.Digits

def isSpace (char : Char) : Bool :=
  char = ' ' || char = '\t'

def skipSpace (text : List Char) : List Char :=
  text.dropWhile isSpace

/-- Characters that may stand as they are in texts and comments. -/
def isPlain (char : Char) : Bool :=
  char = '\t' || (' ' ≤ char && char != '\x7F')

def lineEnd? : List Char → Option (List Char)
  | '\n' :: rest => some rest
  | '\r' :: '\n' :: rest => some rest
  | _ => none

def skipComment (text : List Char) : List Char :=
  match text with
  | '#' :: rest => rest.dropWhile isPlain
  | text => text

def simpleEscape? : Char → Option Char
  | 'b' => some '\x08'
  | 't' => some '\t'
  | 'n' => some '\n'
  | 'f' => some '\x0C'
  | 'r' => some '\r'
  | '"' => some '"'
  | '\\' => some '\\'
  | _ => none

def codedChar? (digits : List Char) : Option Char :=
  (number? 16 digits).bind char?

def push (char : Char) (read : Option (List Char × List Char)) :
    Option (List Char × List Char) :=
  read.map fun (text, rest) => (char :: text, rest)

def readQuoted : List Char → Option (List Char × List Char)
  | '"' :: rest => some ([], rest)
  | '\\' :: 'u' :: a :: b :: c :: d :: rest => do
      push (← codedChar? [a, b, c, d]) (readQuoted rest)
  | '\\' :: 'U' :: a :: b :: c :: d :: e :: f :: g :: h :: rest => do
      push (← codedChar? [a, b, c, d, e, f, g, h]) (readQuoted rest)
  | '\\' :: letter :: rest => do
      push (← simpleEscape? letter) (readQuoted rest)
  | char :: rest => if isPlain char then push char (readQuoted rest) else none
  | [] => none

def readLiteral : List Char → Option (List Char × List Char)
  | '\'' :: rest => some ([], rest)
  | char :: rest => if isPlain char then push char (readLiteral rest) else none
  | [] => none

def isAtLineEnd (text : List Char) : Bool :=
  (lineEnd? (skipSpace text)).isSome

/-- The rest of a text of several lines in double quotes.  A backslash at the end of a line takes
away all white space after it; `trimming` says that this is under way.  Up to two quotes may stand
right before the three that close the text. -/
def readLongQuoted (trimming : Bool) : List Char → Option (List Char × List Char)
  | '\n' :: rest =>
      if trimming then readLongQuoted true rest else push '\n' (readLongQuoted false rest)
  | '\r' :: '\n' :: rest =>
      if trimming then readLongQuoted true rest else push '\n' (readLongQuoted false rest)
  | '"' :: '"' :: '"' :: '"' :: '"' :: rest => some (['"', '"'], rest)
  | '"' :: '"' :: '"' :: '"' :: rest => some (['"'], rest)
  | '"' :: '"' :: '"' :: rest => some ([], rest)
  | '\\' :: 'u' :: a :: b :: c :: d :: rest => do
      push (← codedChar? [a, b, c, d]) (readLongQuoted false rest)
  | '\\' :: 'U' :: a :: b :: c :: d :: e :: f :: g :: h :: rest => do
      push (← codedChar? [a, b, c, d, e, f, g, h]) (readLongQuoted false rest)
  | '\\' :: letter :: rest =>
      if isAtLineEnd (letter :: rest) then readLongQuoted true (letter :: rest)
      else do push (← simpleEscape? letter) (readLongQuoted false rest)
  | char :: rest =>
      if trimming && isSpace char then readLongQuoted true rest
      else if isPlain char then push char (readLongQuoted false rest)
      else none
  | [] => none

def readLongLiteral : List Char → Option (List Char × List Char)
  | '\'' :: '\'' :: '\'' :: '\'' :: '\'' :: rest => some (['\'', '\''], rest)
  | '\'' :: '\'' :: '\'' :: '\'' :: rest => some (['\''], rest)
  | '\'' :: '\'' :: '\'' :: rest => some ([], rest)
  | '\n' :: rest => push '\n' (readLongLiteral rest)
  | '\r' :: '\n' :: rest => push '\n' (readLongLiteral rest)
  | char :: rest => if isPlain char then push char (readLongLiteral rest) else none
  | [] => none

/-- A line feed right after the opening quotes does not count. -/
def skipFirstLineEnd (text : List Char) : List Char :=
  (lineEnd? text).getD text

def readText : Reader String
  | '"' :: '"' :: '"' :: rest =>
      (readLongQuoted false (skipFirstLineEnd rest)).map fun (text, rest) =>
        (String.ofList text, rest)
  | '\'' :: '\'' :: '\'' :: rest =>
      (readLongLiteral (skipFirstLineEnd rest)).map fun (text, rest) =>
        (String.ofList text, rest)
  | '"' :: rest => (readQuoted rest).map fun (text, rest) => (String.ofList text, rest)
  | '\'' :: rest => (readLiteral rest).map fun (text, rest) => (String.ofList text, rest)
  | _ => none

def isBare (char : Char) : Bool :=
  char.isAlphanum || char = '_' || char = '-'

def readSimpleKey : Reader String
  | '"' :: rest => (readQuoted rest).map fun (text, rest) => (String.ofList text, rest)
  | '\'' :: rest => (readLiteral rest).map fun (text, rest) => (String.ofList text, rest)
  | text =>
      match text.span isBare with
      | ([], _) => none
      | (key, rest) => some (String.ofList key, rest)

def readKeys : (limit : Nat) → Reader (List String)
  | 0, _ => none
  | limit + 1, text => do
      let (key, rest) ← readSimpleKey text
      match skipSpace rest with
      | '.' :: rest =>
          let (keys, rest) ← readKeys limit (skipSpace rest)
          return (key :: keys, rest)
      | rest => return ([key], rest)

def maxParts : Nat := 79

/-- A key, which leads through tables if it holds points. -/
def readKey : Reader (List String) :=
  readKeys maxParts

end Metainfo.Toml
