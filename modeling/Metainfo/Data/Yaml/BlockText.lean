import Metainfo.Data.Yaml.Space

/-!
Texts written as indented lines after a bar, or after an angle bracket that says that their lines
are joined.
-/

namespace Metainfo.Yaml

/-- What becomes of the ends of lines at the end of the text: none, the first one or all of them
stay. -/
inductive Chomp where
  | strip
  | clip
  | keep
  deriving DecidableEq, Repr

/-- How a text is written: whether its lines are joined, what becomes of its end, and how many
columns further in than its surroundings it is, if that is said. -/
structure BlockStyle where
  folded : Bool
  chomp : Chomp
  indentation : Option Nat
  deriving DecidableEq, Repr

namespace BlockStyle

def chomp? : Char → Option Chomp
  | '-' => some .strip
  | '+' => some .keep
  | _ => none

def indentation? (char : Char) : Option Nat :=
  if '1' ≤ char && char ≤ '9' then some (char.toNat - '0'.toNat) else none

/-- The style that the characters after the bar or bracket say, and how many there are: a sign and
a digit other than zero, each at most once and in either order. -/
def read (folded : Bool) (text : List Char) : BlockStyle × Nat :=
  let first := text.head?
  let second := (text.drop 1).head?
  match first.bind chomp?, first.bind indentation? with
  | some chomp, _ =>
      match second.bind indentation? with
      | some amount => (⟨folded, chomp, some amount⟩, 2)
      | none => (⟨folded, chomp, none⟩, 1)
  | none, some amount =>
      match second.bind chomp? with
      | some chomp => (⟨folded, chomp, some amount⟩, 2)
      | none => (⟨folded, .clip, some amount⟩, 1)
  | none, none => (⟨folded, .clip, none⟩, 0)

end BlockStyle

/-- Passes over the empty lines before the text and the indentation of its first line.  The result
is how far in the furthest of these lines is and the ends of the empty ones, in reverse.  Tabs may
not stand there. -/
def readLeading (furthest : Nat) (breaks : List Char) (position : Position) :
    List Char → Option ((Nat × List Char) × Input)
  | [] => some ((max furthest position.column, breaks), ⟨[], position⟩)
  | char :: rest =>
      if char = ' ' then readLeading furthest breaks (position.after char) rest
      else if char = '\t' then none
      else
        let furthest := max furthest position.column
        if isBreak char then readLeading furthest (char :: breaks) (position.after char) rest
        else some ((furthest, breaks), ⟨char :: rest, position⟩)

/-- A text of which some lines have been read, in reverse: the end of its last line and the ends of
the empty lines after it are kept apart, and `inset` says whether that line begins with white
space. -/
structure BlockText where
  text : List Char
  ending : Option Char
  further : List Char
  inset : Bool
  deriving DecidableEq, Repr

namespace BlockText

def afterBreaks (breaks : List Char) : BlockText :=
  ⟨[], none, breaks, false⟩

/-- Begins a line with a character.  Where lines are joined, the line feed between two lines that
do not begin with white space becomes a space, or nothing if there are empty lines between them. -/
def beginLine (folded : Bool) (lines : BlockText) (char : Char) : BlockText :=
  let link :=
    if folded && lines.ending = some '\n' && !lines.inset && !isBlank char then
      if lines.further.isEmpty then [' '] else []
    else lines.ending.toList
  ⟨char :: (lines.further ++ (link ++ lines.text)), none, [], isBlank char⟩

def push (lines : BlockText) (char : Char) : BlockText :=
  { lines with text := char :: lines.text }

def finish (chomp : Chomp) (lines : BlockText) : String :=
  let ending :=
    match chomp with
    | .strip => []
    | .clip => lines.ending.toList
    | .keep => lines.further ++ lines.ending.toList
  String.ofList (ending ++ lines.text).reverse

/-- Reads the lines that are at least `indent` columns in; `inLine` says whether the reader is
inside one of them.  A tab may not stand for indentation. -/
def read (folded : Bool) (indent : Nat) (inLine : Bool) (lines : BlockText)
    (position : Position) : List Char → Option (BlockText × Input)
  | [] => some (lines, ⟨[], position⟩)
  | char :: rest =>
      let next := position.after char
      if inLine then
        if isBreak char then
          read folded indent false { lines with ending := some char } next rest
        else read folded indent true (lines.push char) next rest
      else if position.column < indent && char = ' ' then
        read folded indent false lines next rest
      else if position.column < indent && char = '\t' then none
      else if isBreak char then
        read folded indent false { lines with further := char :: lines.further } next rest
      else if position.column = indent then
        read folded indent true (lines.beginLine folded char) next rest
      else some (lines, ⟨char :: rest, position⟩)

end BlockText

/-- A text from its bar or bracket on, in surroundings with the given margin.  Where its
indentation is not said it is that of the furthest of its first lines up to one that is not
empty. -/
def readBlockText (margin : Nat) (folded : Bool) (input : Input) : Option (String × Input) := do
  let (style, length) := BlockStyle.read folded (input.text.drop 1)
  let input ← (input.drop (1 + length)).lineEnd?
  let (lines, rest) ←
    match style.indentation with
    | some amount =>
        BlockText.read folded (margin - 1 + amount) false (.afterBreaks []) input.position input.text
    | none => do
        let ((furthest, breaks), input) ← readLeading 0 [] input.position input.text
        let indent := max furthest (max margin 1)
        BlockText.read folded indent false (.afterBreaks breaks) input.position input.text
  return (lines.finish style.chomp, rest)

end Metainfo.Yaml
