import Std.Data.HashMap

/-!
What the tokens of a text make up: a tree of nodes, of which some stand for others.
-/

namespace Metainfo.Yaml

/-- What may stand before the content of a node: the number of its anchor, and the name of its
tag. -/
structure Properties where
  anchor : Option Nat
  tag : Option (List UInt8)
  deriving DecidableEq, Repr

def Properties.none : Properties := ⟨.none, .none⟩

/-- An alias stands for the node with its number. -/
inductive Node where
  | alias (number : Nat)
  | scalar (properties : Properties) (text : String) (plain : Bool)
  | list (properties : Properties) (items : List Node)
  | table (properties : Properties) (members : List (Node × Node))
  deriving Repr

namespace Node

def empty : Node := .scalar .none "" true

mutual

/-- Adds the size of a node: each scalar and alias counts one, each list and table two more than
what it holds. -/
def addSize (sum : Nat) : Node → Nat
  | .alias _ => sum + 1
  | .scalar _ _ _ => sum + 1
  | .list _ items => addItemSizes (sum + 2) items
  | .table _ members => addMemberSizes (sum + 2) members

def addItemSizes (sum : Nat) : List Node → Nat
  | [] => sum
  | item :: items => addItemSizes (item.addSize sum) items

def addMemberSizes (sum : Nat) : List (Node × Node) → Nat
  | [] => sum
  | (key, value) :: members => addMemberSizes (value.addSize (key.addSize sum)) members

end

abbrev Anchored : Type :=
  Std.HashMap Nat Node

/-- Of several nodes with one number the last one counts. -/
def record (anchored : Anchored) (properties : Properties) (node : Node) : Anchored :=
  match properties.anchor with
  | some number => anchored.insert number node
  | none => anchored

mutual

def addAnchored (anchored : Anchored) : Node → Anchored
  | .alias _ => anchored
  | .scalar properties text plain => record anchored properties (.scalar properties text plain)
  | .list properties items =>
      addItemsAnchored (record anchored properties (.list properties items)) items
  | .table properties members =>
      addMembersAnchored (record anchored properties (.table properties members)) members

def addItemsAnchored (anchored : Anchored) : List Node → Anchored
  | [] => anchored
  | item :: items => addItemsAnchored (item.addAnchored anchored) items

def addMembersAnchored (anchored : Anchored) : List (Node × Node) → Anchored
  | [] => anchored
  | (key, value) :: members =>
      addMembersAnchored (value.addAnchored (key.addAnchored anchored)) members

end

def size (node : Node) : Nat :=
  node.addSize 0

def anchored (node : Node) : Anchored :=
  node.addAnchored ∅

end Node

end Metainfo.Yaml
