/-!
Texts of YAML as they are read: characters, and the places where they stand.
-/

namespace Metainfo.Yaml

def isBlank (char : Char) : Bool :=
  char = ' ' || char = '\t'

/-- The ends of lines that are kept apart; those of other kinds are read as line feeds. -/
def isBreak (char : Char) : Bool :=
  char = '\n' || char = '\u2028' || char = '\u2029'

def isSpace (char : Char) : Bool :=
  isBlank char || isBreak char

def atGap (text : List Char) : Bool :=
  text.head?.all isSpace

def isNameChar (char : Char) : Bool :=
  char.isAlphanum || char = '_' || char = '-'

def isAllowed (char : Char) : Bool :=
  char = '\t' || char = '\n' || char = '\r' || (' ' ≤ char && char ≤ '~') || char = '\u0085' ||
    ('\u00A0' ≤ char && char != '\uFFFE' && char != '\uFFFF')

/-- A place in a text: lines and columns count from 0, columns in characters and the offset in
bytes. -/
structure Position where
  line : Nat
  column : Nat
  offset : Nat
  deriving DecidableEq, Repr

namespace Position

def start : Position := ⟨0, 0, 0⟩

def after (position : Position) (char : Char) : Position :=
  if isBreak char then ⟨position.line + 1, 0, position.offset + char.utf8Size⟩
  else ⟨position.line, position.column + 1, position.offset + char.utf8Size⟩

def along (position : Position) (amount : Nat) : Position :=
  ⟨position.line, position.column + amount, position.offset + amount⟩

end Position

structure Input where
  text : List Char
  position : Position
  deriving DecidableEq, Repr

namespace Input

def drop (input : Input) (amount : Nat) : Input :=
  ⟨input.text.drop amount, input.position.along amount⟩

def dropWhileFrom (inClass : Char → Bool) : Position → List Char → Input
  | position, [] => ⟨[], position⟩
  | position, char :: rest =>
      if inClass char then dropWhileFrom inClass (position.after char) rest
      else ⟨char :: rest, position⟩

def dropWhile (input : Input) (inClass : Char → Bool) : Input :=
  dropWhileFrom inClass input.position input.text

def takeName (input : Input) : String × Input :=
  (String.ofList (input.text.takeWhile isNameChar), input.dropWhile isNameChar)

/-- What follows white space, a comment and the end of the line, if nothing else stands in what is
left of the line. -/
def lineEnd? (input : Input) : Option Input :=
  let input := input.dropWhile isBlank
  let input :=
    match input.text with
    | '#' :: _ => input.dropWhile fun char => !isBreak char
    | _ => input
  match input.text with
  | [] => some input
  | char :: rest => if isBreak char then some ⟨rest, input.position.after char⟩ else none

end Input

def isMarker (mark : Char) : List Char → Bool
  | a :: b :: c :: rest => a = mark && b = mark && c = mark && atGap rest
  | _ => false

/-- The beginning or the end of a document is marked here, which is done at the beginning of a
line. -/
def atMarker (position : Position) (text : List Char) : Bool :=
  position.column = 0 && (isMarker '-' text || isMarker '.' text)

def normalizeOnto (done : List Char) : List Char → List Char
  | [] => done
  | '\r' :: '\n' :: rest => normalizeOnto ('\n' :: done) rest
  | '\r' :: rest => normalizeOnto ('\n' :: done) rest
  | '\u0085' :: rest => normalizeOnto ('\n' :: done) rest
  | char :: rest => normalizeOnto (char :: done) rest

def Input.ofText? (text : String) : Option Input :=
  let chars := text.toList
  if chars.all isAllowed then some ⟨(normalizeOnto [] chars).reverse, .start⟩ else none

end Metainfo.Yaml
