import Metainfo.Data.Yaml.Input

/-!
White space inside a text, and what stands for it in the value of the text.
-/

namespace Metainfo.Yaml

/-- White space that has been passed over, in reverse: blanks, or the first end of a line and the
further ones.  The first one is missing where it leaves no trace. -/
inductive Space where
  | blanks (reversed : List Char)
  | breaks (first : Option Char) (further : List Char)
  deriving DecidableEq, Repr

namespace Space

def none : Space := blanks []

def isNone : Space → Bool
  | blanks reversed => reversed.isEmpty
  | breaks _ _ => false

def hasBreak : Space → Bool
  | blanks _ => false
  | breaks _ _ => true

/-- One more character.  Blanks around the end of a line do not count. -/
def push (char : Char) : Space → Space
  | blanks reversed => if isBreak char then breaks (some char) [] else blanks (char :: reversed)
  | breaks first further =>
      if isBreak char then breaks first (char :: further) else breaks first further

/-- What stands for the ends of lines: a single line feed is read as a space, and a line feed
before further ends of lines leaves only these. -/
def foldBreaks (first : Option Char) (further : List Char) : List Char :=
  match first with
  | some '\n' => if further.isEmpty then [' '] else further
  | some char => further ++ [char]
  | .none => further

def onto (space : Space) (text : List Char) : List Char :=
  match space with
  | blanks reversed => reversed ++ text
  | breaks first further => foldBreaks first further ++ text

end Space

end Metainfo.Yaml
