import Metainfo.Data.Yaml.Space

/-!
Texts without quotes, which may reach over several lines.
-/

namespace Metainfo.Yaml

def isFlowIndicator (char : Char) : Bool :=
  ",[]\x7B\x7D".toList.contains char

/-- What surrounds a text: brackets or braces, or blocks whose texts must be at least `margin`
columns in. -/
structure Surroundings where
  flow : Bool
  margin : Nat
  deriving DecidableEq, Repr

namespace Surroundings

/-- A text without quotes ends here, after white space. -/
def endsAfterSpace (surroundings : Surroundings) (position : Position) (char : Char) : Bool :=
  char = '#' || (!surroundings.flow && position.column < surroundings.margin)

def ends (surroundings : Surroundings) (char : Char) (rest : List Char) : Bool :=
  (char = ':' && atGap rest) || (surroundings.flow && isFlowIndicator char)

/-- Between brackets, a colon may not stand here in a text without quotes. -/
def isStrayColon (surroundings : Surroundings) (char : Char) (rest : List Char) : Bool :=
  surroundings.flow && char = ':' && rest.head?.any fun next => isFlowIndicator next || next = '?'

/-- White space after the end of a line that may not stand so far out. -/
def isStrayTab (surroundings : Surroundings) (position : Position) (space : Space)
    (char : Char) : Bool :=
  char = '\t' && space.hasBreak && position.column < surroundings.margin

end Surroundings

/-- The rest of a text without quotes, the white space after it, and what follows.  `text` is what
has been read of it, in reverse, and `space` the white space after that. -/
def readPlain (surroundings : Surroundings) (text : List Char) (space : Space)
    (position : Position) : List Char → Option (String × Space × Input)
  | [] => some (String.ofList text.reverse, space, ⟨[], position⟩)
  | char :: rest =>
      if isSpace char then
        if surroundings.isStrayTab position space char then none
        else readPlain surroundings text (space.push char) (position.after char) rest
      else if (!space.isNone && surroundings.endsAfterSpace position char) ||
          atMarker position (char :: rest) then
        some (String.ofList text.reverse, space, ⟨char :: rest, position⟩)
      else if surroundings.isStrayColon char rest then none
      else if surroundings.ends char rest then
        some (String.ofList text.reverse, space, ⟨char :: rest, position⟩)
      else readPlain surroundings (char :: space.onto text) .none (position.after char) rest

end Metainfo.Yaml
