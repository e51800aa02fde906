import Metainfo.Data.Yaml.Node
import Metainfo.Data.Yaml.Token.Lexer

/-!
The nodes that tokens make up.  A text holds one document at most.
-/

namespace Metainfo.Yaml

abbrev TokenReader (α : Type) : Type :=
  List Token → Option (α × List Token)

/-- Where a node stands.  Only in blocks may a node be a block, and only as a key or value of one
may it be a list that is not further in. -/
inductive Place where
  | item
  | member
  | flow
  deriving DecidableEq, Repr

abbrev Handles : Type :=
  List (String × List UInt8)

namespace Handles

def default : Handles :=
  [("!", Utf8.encode "!"), ("!!", Utf8.encode "tag:yaml.org,2002:")]

def name? (handles : Handles) (tag : Tag) : Option (List UInt8) :=
  if tag.handle.isEmpty then some tag.suffix
  else (handles.lookup tag.handle).map (· ++ tag.suffix)

end Handles

namespace Node

def readProperties (handles : Handles) : TokenReader Properties
  | .anchor number :: .tag tag :: rest =>
      (handles.name? tag).map fun name => (⟨some number, some name⟩, rest)
  | .tag tag :: .anchor number :: rest =>
      (handles.name? tag).map fun name => (⟨some number, some name⟩, rest)
  | .anchor number :: rest => some (⟨some number, none⟩, rest)
  | .tag tag :: rest => (handles.name? tag).map fun name => (⟨none, some name⟩, rest)
  | rest => some (.none, rest)

/-- Nothing stands before one of these tokens. -/
def readUnless (ends : List Token) (read : TokenReader Node) : TokenReader Node
  | [] => read []
  | token :: rest => if ends.contains token then some (empty, token :: rest) else read (token :: rest)

def readAfter (mark : Token) (ends : List Token) (read : TokenReader Node) : TokenReader Node
  | token :: rest =>
      if token = mark then readUnless ends read rest else some (empty, token :: rest)
  | [] => some (empty, [])

/-- The remaining items of a block, at most `limit`; `items` are those before them, in reverse. -/
def readBlockItems (read : TokenReader Node) (items : List Node) :
    (limit : Nat) → TokenReader (List Node)
  | limit + 1, .item :: rest => do
      let (item, rest) ← readUnless [.item, .blockEnd] read rest
      readBlockItems read (item :: items) limit rest
  | _, .blockEnd :: rest => some (items.reverse, rest)
  | _, _ => none

def readFlushItems (read : TokenReader Node) (items : List Node) :
    (limit : Nat) → TokenReader (List Node)
  | limit + 1, .item :: rest => do
      let (item, rest) ← readUnless [.item, .key, .value, .blockEnd] read rest
      readFlushItems read (item :: items) limit rest
  | _, rest => some (items.reverse, rest)

def readBlockMembers (read : TokenReader Node) (members : List (Node × Node)) :
    (limit : Nat) → TokenReader (List (Node × Node))
  | limit + 1, .key :: rest => do
      let ends : List Token := [.key, .value, .blockEnd]
      let (key, rest) ← readUnless ends read rest
      let (value, rest) ← readAfter .value ends read rest
      readBlockMembers read ((key, value) :: members) limit rest
  | _, .blockEnd :: rest => some (members.reverse, rest)
  | _, _ => none

/-- What precedes the value of a member that is an item in brackets: a key, or a token that is
passed over. -/
def readPairKey (read : TokenReader Node) : TokenReader Node
  | .value :: rest => some (empty, rest)
  | .comma :: rest => some (empty, rest)
  | .listEnd :: rest => some (empty, rest)
  | rest => read rest

def readFlowItem (read : TokenReader Node) : TokenReader Node
  | .key :: rest => do
      let (key, rest) ← readPairKey read rest
      let (value, rest) ← readAfter .value [.comma, .listEnd] read rest
      return (.table .none [(key, value)], rest)
  | rest => read rest

/-- A member in braces; what has no colon after it is a key without a value. -/
def readFlowMember (read : TokenReader Node) : TokenReader (Node × Node)
  | .key :: rest => do
      let ends : List Token := [.comma, .tableEnd]
      let (key, rest) ← readUnless (.value :: ends) read rest
      let (value, rest) ← readAfter .value ends read rest
      return ((key, value), rest)
  | rest => do
      let (key, rest) ← read rest
      return ((key, empty), rest)

def readFlowSeries {α : Type} (read : TokenReader α) (close : Token) (series : List α) :
    (limit : Nat) → TokenReader (List α)
  | 0, _ => none
  | _, [] => none
  | limit + 1, token :: rest =>
      if token = close then some (series.reverse, rest)
      else do
        let (next, rest) ← read (token :: rest)
        match rest with
        | .comma :: rest => readFlowSeries read close (next :: series) limit rest
        | token :: rest =>
            if token = close then some ((next :: series).reverse, rest) else none
        | [] => none

/-- A scalar with the tag `!` has none. -/
def scalarOf (properties : Properties) (text : String) (plain : Bool) : Node :=
  if properties.tag = some (Utf8.encode "!") then
    .scalar { properties with tag := none } text plain
  else .scalar properties text plain

/-- A node; `read` reads those that it holds. -/
def readWith (handles : Handles) (limit : Nat) (read : Place → TokenReader Node) (place : Place)
    (tokens : List Token) : Option (Node × List Token) :=
  match tokens with
  | .alias number :: rest => some (.alias number, rest)
  | tokens => do
      let (properties, rest) ← readProperties handles tokens
      let isBlock := place != .flow
      match rest with
      | .scalar text plain :: rest => return (scalarOf properties text plain, rest)
      | .listStart :: rest =>
          let (items, rest) ← readFlowSeries (readFlowItem (read .flow)) .listEnd [] limit rest
          return (.list properties items, rest)
      | .tableStart :: rest =>
          let (members, rest) ←
            readFlowSeries (readFlowMember (read .flow)) .tableEnd [] limit rest
          return (.table properties members, rest)
      | token :: rest =>
          if token = .item && place = .member then
            let (items, rest) ← readFlushItems (read .item) [] limit (token :: rest)
            return (.list properties items, rest)
          else if token = .blockListStart && isBlock then
            let (items, rest) ← readBlockItems (read .item) [] limit rest
            return (.list properties items, rest)
          else if token = .blockTableStart && isBlock then
            let (members, rest) ← readBlockMembers (read .member) [] limit rest
            return (.table properties members, rest)
          else if properties = .none then none
          else return (.scalar properties "" true, token :: rest)
      | [] => if properties = .none then none else return (.scalar properties "" true, [])

def read (handles : Handles) (limit : Nat) : (depth : Nat) → Place → TokenReader Node
  | 0 => readWith handles limit fun _ _ => none
  | depth + 1 => readWith handles limit (read handles limit depth)

/-- The directives before a document: each handle may be declared once, and the version too, which
must be one of two. -/
def readDirectives (versioned : Bool) (handles : Handles) : TokenReader Handles
  | .version major minor :: rest =>
      if versioned || major != 1 || (minor != 1 && minor != 2) then none
      else readDirectives true handles rest
  | .handle handle beginning :: rest =>
      if (handles.lookup handle).isSome then none
      else readDirectives versioned ((handle, beginning) :: handles) rest
  | rest => some (handles, rest)

def readContent (read : TokenReader Node) : TokenReader Node
  | [] => some (empty, [])
  | .documentEnd :: rest => some (empty, .documentEnd :: rest)
  | tokens => read tokens

def ofTokens? (tokens : List Token) : Option (Option Node) := do
  let (handles, rest) ← readDirectives false [] tokens
  let read := Node.read (handles ++ Handles.default) tokens.length maxDepth .item
  match tokens, rest with
  | [], _ => return none
  | _, .documentStart :: rest =>
      let (root, rest) ← readContent read rest
      if rest.all (· = .documentEnd) then return some root else none
  | .version _ _ :: _, _ => none
  | .handle _ _ :: _, _ => none
  | _, rest =>
      let (root, rest) ← read rest
      if rest.all (· = .documentEnd) then return some root else none

end Node

end Metainfo.Yaml
