import Metainfo.Data.Toml.Scalar
import Metainfo.Data.Toml.Text

/-!
TOML documents.  No key may be given a value twice, and no table may be opened twice or extended
from elsewhere once its members have been listed.
-/

namespace Metainfo.Toml

/-- How a table came about: on the way to another one, by a header of its own, or from a key with
points. -/
inductive Origin where
  | passed
  | opened
  | dotted
  deriving DecidableEq, Repr

/-- What a key leads to while a document is read: a finished value, a table, or the tables that
headers in double brackets have opened so far. -/
inductive Node where
  | value (datum : Datum)
  | table (origin : Origin) (members : List (String × Node))
  | tables (all : List (List (String × Node)))

abbrev Members : Type :=
  List (String × Node)

def replace (members : Members) (key : String) (node : Node) : Members :=
  members.map fun (other, old) => if other = key then (other, node) else (other, old)

def changeAt (change : Members → Option Members) :
    (keys : List String) → Members → Option Members
  | [], members => change members
  | key :: keys, members =>
      match members.lookup key with
      | none => do
          let inner ← changeAt change keys []
          return members ++ [(key, .table .passed inner)]
      | some (.value _) => none
      | some (.table origin inner) => do
          let inner ← changeAt change keys inner
          return replace members key (.table origin inner)
      | some (.tables all) => do
          let inner ← changeAt change keys (all.getLast?.getD [])
          return replace members key (.tables (all.dropLast ++ [inner]))

def insertNew (members : Members) (key : String) (node : Node) : Option Members :=
  match members.lookup key with
  | none => some (members ++ [(key, node)])
  | some _ => none

/-- Puts a value where keys lead from a table.  Tables on the way must not have headers of their
own, and the last of them must come from keys with points; `fits` says that it does. -/
def insertAt (datum : Datum) (fits : Bool) : (keys : List String) → Members → Option Members
  | [], _ => none
  | [key], members => if fits then insertNew members key (.value datum) else none
  | key :: keys, members =>
      match members.lookup key with
      | none => do
          let inner ← insertAt datum true keys []
          return members ++ [(key, .table .dotted inner)]
      | some (.value _) => none
      | some (.table origin inner) =>
          if origin = .opened then none
          else do
            let inner ← insertAt datum (origin = .dotted) keys inner
            return replace members key (.table origin inner)
      | some (.tables all) => do
          let inner ← insertAt datum false keys (all.getLast?.getD [])
          return replace members key (.tables (all.dropLast ++ [inner]))

mutual

def Node.toDatum : Node → Datum
  | .value datum => datum
  | .table _ members => .table (membersToData members)
  | .tables all => .list (tablesToData all)

def membersToData : List (String × Node) → List (String × Datum)
  | [] => []
  | (key, node) :: members => (key, node.toDatum) :: membersToData members

def tablesToData : List (List (String × Node)) → List Datum
  | [] => []
  | members :: all => .table (membersToData members) :: tablesToData all

end

def skipLines : (limit : Nat) → List Char → List Char
  | 0, text => text
  | limit + 1, text =>
      match lineEnd? (skipComment (skipSpace text)) with
      | some rest => skipLines limit rest
      | none => skipComment (skipSpace text)

def skipBlank (text : List Char) : List Char :=
  skipLines text.length text

/-- The items of a list up to the closing bracket, at most `limit`; a comma may follow the last. -/
def readItems (read : Reader Datum) : (limit : Nat) → Reader (List Datum)
  | 0, _ => none
  | limit + 1, text =>
      match skipBlank text with
      | ']' :: rest => some ([], rest)
      | text => do
          let (item, rest) ← read text
          match skipBlank rest with
          | ']' :: rest => return ([item], rest)
          | ',' :: rest =>
              let (items, rest) ← readItems read limit rest
              return (item :: items, rest)
          | _ => none

def readAssignment (read : Reader Datum) : Reader (List String × Datum) :=
  fun text => do
    let (keys, rest) ← readKey text
    match skipSpace rest with
    | '=' :: rest =>
        let (datum, rest) ← read (skipSpace rest)
        return ((keys, datum), rest)
    | _ => none

def readMembers (read : Reader Datum) (members : Members) : (limit : Nat) → Reader Members
  | 0, _ => none
  | limit + 1, text => do
      let ((keys, datum), rest) ← readAssignment read (skipSpace text)
      let members ← insertAt datum true keys members
      match skipSpace rest with
      | '\x7D' :: rest => return (members, rest)
      | ',' :: rest => readMembers read members limit rest
      | _ => none

def readValue : (depth : Nat) → Reader Datum
  | _, '"' :: rest => (readText ('"' :: rest)).map fun (text, rest) => (.text text, rest)
  | _, '\'' :: rest => (readText ('\'' :: rest)).map fun (text, rest) => (.text text, rest)
  | depth + 1, '[' :: rest =>
      (readItems (readValue depth) rest.length.succ rest).map fun (items, rest) =>
        (.list items, rest)
  | depth + 1, '\x7B' :: rest =>
      match skipSpace rest with
      | '\x7D' :: rest => some (.table [], rest)
      | rest =>
          (readMembers (readValue depth) [] rest.length.succ rest).map fun (members, rest) =>
            (.table (membersToData members), rest)
  | _, text =>
      match scanScalar text with
      | (scalar, rest) => (scalar? scalar).map fun datum => (datum, rest)

def maxDepth : Nat := 79

/-- The tables of a document so far, and the keys that lead to the one being filled. -/
structure Progress where
  root : Members
  current : List String

def openTable (key : String) (members : Members) : Option Members :=
  match members.lookup key with
  | none => some (members ++ [(key, .table .opened [])])
  | some (.table .passed inner) => some (replace members key (.table .opened inner))
  | some _ => none

def openFurther (key : String) (members : Members) : Option Members :=
  match members.lookup key with
  | none => some (members ++ [(key, .tables [[]])])
  | some (.tables all) => some (replace members key (.tables (all ++ [[]])))
  | some _ => none

def Progress.header (progress : Progress) (openLast : String → Members → Option Members)
    (keys : List String) : Option Progress := do
  let last ← keys.getLast?
  let root ← changeAt (openLast last) keys.dropLast progress.root
  return ⟨root, keys⟩

def Progress.line (progress : Progress) (text : List Char) : Option (Progress × List Char) :=
  match skipSpace text with
  | '[' :: '[' :: rest => do
      let (keys, rest) ← readKey (skipSpace rest)
      match skipSpace rest with
      | ']' :: ']' :: rest => return (← progress.header openFurther keys, rest)
      | _ => none
  | '[' :: rest => do
      let (keys, rest) ← readKey (skipSpace rest)
      match skipSpace rest with
      | ']' :: rest => return (← progress.header openTable keys, rest)
      | _ => none
  | text =>
      if (skipComment text).isEmpty || (lineEnd? (skipComment text)).isSome then
        some (progress, text)
      else do
        let ((keys, datum), rest) ← readAssignment (readValue maxDepth) text
        let root ← changeAt (insertAt datum true keys) progress.current progress.root
        return ({ progress with root }, rest)

/-- The remaining lines, at most `limit`. -/
def Progress.lines (progress : Progress) : (limit : Nat) → List Char → Option Progress
  | 0, _ => none
  | limit + 1, text => do
      let (progress, rest) ← progress.line text
      match skipComment (skipSpace rest) with
      | [] => return progress
      | rest => progress.lines limit (← lineEnd? rest)

def parse (text : String) : Option (List (String × Datum)) := do
  let chars :=
    match text.toList with
    | '\uFEFF' :: rest => rest
    | chars => chars
  let progress ← Progress.lines ⟨[], []⟩ chars.length.succ chars
  return membersToData progress.root

end Metainfo.Toml
