import Metainfo.Data.Yaml.BlockText
import Metainfo.Data.Yaml.Plain
import Metainfo.Data.Yaml.Quoted
import Metainfo.Data.Yaml.Token.Directive
import Std.Data.HashMap

/-!
The tokens of a text.  That something was a key is known only when its colon is reached; the place
where it began is remembered until then, and a token for it is put there.
-/

namespace Metainfo.Yaml

/-- A place where a key may have begun: the number of tokens before it, and whether nothing but a
key may stand there. -/
structure Candidate where
  index : Nat
  position : Position
  required : Bool
  deriving DecidableEq, Repr

def maxKeyLength : Nat := 1024

/-- The colon of a key must follow in the same line, and not too far on. -/
def Candidate.isStale (candidate : Candidate) (position : Position) : Bool :=
  candidate.position.line < position.line ||
    candidate.position.offset + maxKeyLength < position.offset

def maxDepth : Nat := 128

structure Lexer where
  input : Input
  tokens : Array Token
  /-- The columns of the open blocks, innermost first. -/
  blocks : List Nat
  /-- Where a key between the innermost brackets may have begun. -/
  candidate : Option Candidate
  /-- The same for what surrounds each open bracket, innermost first. -/
  outer : List (Option Candidate)
  keyAllowed : Bool
  anchors : Std.HashMap String Nat

namespace Lexer

def start (input : Input) : Lexer :=
  ⟨input, #[], [], none, [], true, ∅⟩

def inFlow (lexer : Lexer) : Bool :=
  !lexer.outer.isEmpty

def margin (lexer : Lexer) : Nat :=
  lexer.blocks.head?.elim 0 (· + 1)

def column (lexer : Lexer) : Nat :=
  lexer.input.position.column

def take (lexer : Lexer) (token : Token) (length : Nat) : Lexer :=
  { lexer with input := lexer.input.drop length, tokens := lexer.tokens.push token }

def takeUpTo (lexer : Lexer) (token : Token) (rest : Input) : Lexer :=
  { lexer with input := rest, tokens := lexer.tokens.push token }

def allowKey (lexer : Lexer) (keyAllowed : Bool) : Lexer :=
  { lexer with keyAllowed }

/-- Passes over white space and comments.  A byte order mark may stand at the beginning of a line,
and tabs only where no key may begin or between brackets; outside brackets a key may begin on a
new line. -/
def skipFrom (flow inComment keyAllowed : Bool) (position : Position) :
    List Char → Bool × Input
  | [] => (keyAllowed, ⟨[], position⟩)
  | char :: rest =>
      let next := position.after char
      if isBreak char then skipFrom flow false (keyAllowed || !flow) next rest
      else if inComment || char = '#' then skipFrom flow true keyAllowed next rest
      else if char = ' ' || (char = '\t' && (flow || !keyAllowed)) ||
          (char = '\uFEFF' && position.column = 0) then
        skipFrom flow false keyAllowed next rest
      else (keyAllowed, ⟨char :: rest, position⟩)

def skipSpace (lexer : Lexer) : Lexer :=
  match skipFrom lexer.inFlow false lexer.keyAllowed lexer.input.position lexer.input.text with
  | (keyAllowed, input) => { lexer with keyAllowed, input }

def refresh (position : Position) (candidate : Option Candidate) : Option (Option Candidate) :=
  match candidate with
  | some candidate =>
      if !candidate.isStale position then some (some candidate)
      else if candidate.required then none
      else some none
  | none => some none

/-- Forgets the keys whose colons can no longer follow. -/
def dropStale (lexer : Lexer) : Option Lexer := do
  let position := lexer.input.position
  let candidate ← refresh position lexer.candidate
  let outer ← lexer.outer.mapM (refresh position)
  return { lexer with candidate, outer }

/-- Forgets the key that may have begun, unless one must have. -/
def dropCandidate (lexer : Lexer) : Option Lexer :=
  if lexer.candidate.any (·.required) then none else some { lexer with candidate := none }

def markCandidate (lexer : Lexer) : Option Lexer :=
  if lexer.keyAllowed then do
    let lexer ← lexer.dropCandidate
    let required := !lexer.inFlow && lexer.blocks.head? = some lexer.column
    return { lexer with
      candidate := some ⟨lexer.tokens.size, lexer.input.position, required⟩ }
  else some lexer

/-- Opens a block at a column unless one is open that is as far in.  Its token is put behind the
first `index` tokens. -/
def openBlock (lexer : Lexer) (token : Token) (column index : Nat) : Lexer :=
  if !lexer.inFlow && lexer.blocks.head?.all (· < column) then
    { lexer with
      blocks := column :: lexer.blocks
      tokens := lexer.tokens.insertIdxIfInBounds index token }
  else lexer

def closeBlocksWhile (lexer : Lexer) (isOver : Nat → Bool) : Lexer :=
  if lexer.inFlow then lexer
  else
    let count := (lexer.blocks.takeWhile isOver).length
    { lexer with
      blocks := lexer.blocks.drop count
      tokens := lexer.tokens ++ Array.replicate count .blockEnd }

def closeBlocks (lexer : Lexer) : Lexer :=
  lexer.closeBlocksWhile (lexer.column < ·)

def closeAll (lexer : Lexer) : Option Lexer := do
  let lexer ← (lexer.closeBlocksWhile fun _ => true).dropCandidate
  return lexer.allowKey false

def readDirective (lexer : Lexer) : Option Lexer := do
  let lexer ← lexer.closeAll
  let (token, rest) ← Directive.read lexer.input
  return lexer.takeUpTo token rest

def readMarker (lexer : Lexer) (token : Token) : Option Lexer := do
  let lexer ← lexer.closeAll
  return lexer.take token 3

def readOpening (lexer : Lexer) (token : Token) : Option Lexer := do
  guard (lexer.outer.length < maxDepth)
  let lexer ← lexer.markCandidate
  let lexer := lexer.take token 1
  return { lexer with
    candidate := none, outer := lexer.candidate :: lexer.outer, keyAllowed := true }

def readClosing (lexer : Lexer) (token : Token) : Option Lexer := do
  let lexer ← lexer.dropCandidate
  let lexer := (lexer.take token 1).allowKey false
  match lexer.outer with
  | [] => return lexer
  | candidate :: outer => return { lexer with candidate, outer }

def readComma (lexer : Lexer) : Option Lexer := do
  let lexer ← lexer.dropCandidate
  return (lexer.take .comma 1).allowKey true

def readBlockMark (lexer : Lexer) (opening token : Token) (keyAllowed : Bool) : Option Lexer := do
  guard (lexer.inFlow || lexer.keyAllowed)
  let lexer ← (lexer.openBlock opening lexer.column lexer.tokens.size).dropCandidate
  return (lexer.take token 1).allowKey keyAllowed

/-- The colon before a value.  If a key may have begun before, it did. -/
def readValue (lexer : Lexer) : Option Lexer :=
  match lexer.candidate with
  | some candidate =>
      let lexer :=
        { lexer with
          tokens := lexer.tokens.insertIdxIfInBounds candidate.index .key, candidate := none }
      let lexer := lexer.openBlock .blockTableStart candidate.position.column candidate.index
      some ((lexer.take .value 1).allowKey false)
  | none => lexer.readBlockMark .blockTableStart .value !lexer.inFlow

def endsName (text : List Char) : Bool :=
  atGap text || text.head?.any fun char => "?:,]\x7D%@\x60".toList.contains char

def readName (lexer : Lexer) : Option (String × Input) := do
  let (name, rest) := (lexer.input.drop 1).takeName
  guard (!name.isEmpty && endsName rest.text)
  return (name, rest)

/-- An anchor.  Its number is that of the names known before it. -/
def readAnchor (lexer : Lexer) : Option Lexer := do
  let lexer ← lexer.markCandidate
  let (name, rest) ← lexer.readName
  let number := lexer.anchors.size
  let lexer := (lexer.takeUpTo (.anchor number) rest).allowKey false
  return { lexer with anchors := lexer.anchors.insert name number }

def readAlias (lexer : Lexer) : Option Lexer := do
  let lexer ← lexer.markCandidate
  let (name, rest) ← lexer.readName
  let number ← lexer.anchors[name]?
  return (lexer.takeUpTo (.alias number) rest).allowKey false

def readTag (lexer : Lexer) : Option Lexer := do
  let lexer ← lexer.markCandidate
  let (tag, rest) ← Tag.read lexer.inFlow lexer.input
  return (lexer.takeUpTo (.tag tag) rest).allowKey false

def readQuotedScalar (lexer : Lexer) : Option Lexer := do
  let lexer ← lexer.markCandidate
  let (text, rest) ← readQuoted lexer.input
  return (lexer.takeUpTo (.scalar text false) rest).allowKey false

def readBlockScalar (lexer : Lexer) (folded : Bool) : Option Lexer := do
  let lexer ← lexer.dropCandidate
  let (text, rest) ← readBlockText lexer.margin folded lexer.input
  return (lexer.takeUpTo (.scalar text false) rest).allowKey true

def readPlainScalar (lexer : Lexer) : Option Lexer := do
  let lexer ← lexer.markCandidate
  let ⟨text, position⟩ := lexer.input
  let (text, space, rest) ← readPlain ⟨lexer.inFlow, lexer.margin⟩ [] .none position text
  return (lexer.takeUpTo (.scalar text true) rest).allowKey space.hasBreak

/-- The token that a character begins which is not the only mark of its line.  `beforeGap` says
whether white space follows the character. -/
def readAt (lexer : Lexer) (char : Char) (beforeGap : Bool) : Option Lexer :=
  match char with
  | '[' => lexer.readOpening .listStart
  | '\x7B' => lexer.readOpening .tableStart
  | ']' => lexer.readClosing .listEnd
  | '\x7D' => lexer.readClosing .tableEnd
  | ',' => lexer.readComma
  | '-' =>
      if beforeGap then lexer.readBlockMark .blockListStart .item true
      else lexer.readPlainScalar
  | '?' =>
      if lexer.inFlow || beforeGap then
        lexer.readBlockMark .blockTableStart .key !lexer.inFlow
      else lexer.readPlainScalar
  | ':' =>
      if lexer.inFlow || beforeGap then lexer.readValue else lexer.readPlainScalar
  | '*' => lexer.readAlias
  | '&' => lexer.readAnchor
  | '!' => lexer.readTag
  | '|' => if lexer.inFlow then none else lexer.readBlockScalar false
  | '>' => if lexer.inFlow then none else lexer.readBlockScalar true
  | '\'' => lexer.readQuotedScalar
  | '"' => lexer.readQuotedScalar
  | '%' => none
  | '@' => none
  | '\x60' => none
  | char => if isBlank char then none else lexer.readPlainScalar

/-- The next token, with those of the blocks that begin or end before it. -/
def readNext (lexer : Lexer) (char : Char) (rest : List Char) : Option Lexer := do
  let lexer := lexer.closeBlocks
  if lexer.column = 0 && char = '%' then lexer.readDirective
  else if lexer.column = 0 && isMarker '-' (char :: rest) then lexer.readMarker .documentStart
  else if lexer.column = 0 && isMarker '.' (char :: rest) then lexer.readMarker .documentEnd
  else lexer.readAt char (atGap rest)

def run : (limit : Nat) → Lexer → Option (Array Token)
  | 0, _ => none
  | limit + 1, lexer => do
      let lexer ← lexer.skipSpace.dropStale
      match lexer.input.text with
      | [] => lexer.closeAll.map (·.tokens)
      | char :: rest => run limit (← lexer.readNext char rest)

end Lexer

def tokens? (text : String) : Option (Array Token) := do
  let input ← Input.ofText? text
  Lexer.run input.text.length.succ (.start input)

end Metainfo.Yaml
