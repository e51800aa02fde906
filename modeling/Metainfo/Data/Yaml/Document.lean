import Metainfo.Data.Yaml.Node.Reader
import Metainfo.Data.Yaml.Scalar

/-!
The values that documents of YAML describe.  Aliases are replaced by what they stand for, as long
as this does not go too deep or too far.
-/

namespace Metainfo.Yaml

namespace Node

/-- Follows an alias; `left` is how many more may be followed. -/
def follow (anchored : Anchored) (left : Nat) : Node → Option (Node × Nat)
  | .alias number =>
      match left with
      | 0 => none
      | left + 1 => anchored[number]?.map fun node => (node, left)
  | node => some (node, left)

def keyName? (anchored : Anchored) (left : Nat) (key : Node) : Option (String × Nat) := do
  match ← key.follow anchored left with
  | (.scalar _ text _, left) => return (text, left)
  | _ => none

/-- Makes values of the remaining items; those of the others are held in reverse. -/
def itemsToData (convert : Nat → Node → Option (Datum × Nat)) (data : List Datum)
    (left : Nat) : List Node → Option (List Datum × Nat)
  | [] => some (data.reverse, left)
  | item :: items => do
      let (datum, left) ← convert left item
      itemsToData convert (datum :: data) left items

def membersToData (anchored : Anchored) (convert : Nat → Node → Option (Datum × Nat))
    (data : List (String × Datum)) (left : Nat) :
    List (Node × Node) → Option (List (String × Datum) × Nat)
  | [] => some (data.reverse, left)
  | (key, value) :: members => do
      let (name, left) ← key.keyName? anchored left
      let (datum, left) ← convert left value
      membersToData anchored convert ((name, datum) :: data) left members

/-- The value of a node in which lists and tables are nested at most `depth` deep, and how many
more aliases may be followed. -/
def toDatum (anchored : Anchored) : (depth : Nat) → Nat → Node → Option (Datum × Nat)
  | 0, left, node => do
      match ← node.follow anchored left with
      | (.scalar properties text plain, left) =>
          return (← scalar? properties.tag text plain, left)
      | _ => none
  | depth + 1, left, node => do
      match ← node.follow anchored left with
      | (.scalar properties text plain, left) =>
          return (← scalar? properties.tag text plain, left)
      | (.list properties items, left) =>
          let (data, left) ← itemsToData (toDatum anchored depth) [] left items
          return (tagged properties.tag (.list data), left)
      | (.table properties members, left) =>
          let (data, left) ← membersToData anchored (toDatum anchored depth) [] left members
          return (tagged properties.tag (.table data), left)
      | (.alias _, _) => none

/-- How many aliases may be followed for each scalar, alias, and beginning and end of a list or
table. -/
def maxRepetition : Nat := 100

def members? (root : Node) : Option (List (String × Datum)) :=
  match root with
  | .table _ members =>
      let anchored := root.anchored
      (membersToData anchored (toDatum anchored (maxDepth - 1)) []
        (maxRepetition * root.size) members).map Prod.fst
  | .scalar _ text _ => if text.isEmpty then some [] else none
  | _ => none

end Node

def parse (text : String) : Option (List (String × Datum)) := do
  let tokens ← tokens? text
  match ← Node.ofTokens? tokens.toList with
  | some root => root.members?
  | none => return []

end Metainfo.Yaml
