import Metainfo.Files.Access

/-!
A tree of files, directories and symbolic links held in memory.  Nothing exists outside the tree,
and its top is the directory from which paths are followed.
-/

namespace Metainfo

inductive TreeEntry where
  | file (bytes : List UInt8)
  | directory
  | link (target : Path)
  deriving DecidableEq, Repr

/-- The names on the way from the top to a place. -/
abbrev Place : Type :=
  List (List UInt8)

structure FileTree where
  entries : List (Place × TreeEntry)
  deriving DecidableEq, Repr

namespace FileTree

def empty : FileTree := ⟨[]⟩

def entry? (tree : FileTree) (place : Place) : Option TreeEntry :=
  tree.entries.lookup place

inductive Target where
  | file (bytes : List UInt8)
  | directory (place : Place)
  deriving DecidableEq, Repr

def maxLinks : Nat := 40

def maxName : Nat := 255

def maxPath : Nat := 4095

/-- The steps of a path; one that ends in a slash ends in a directory. -/
def stepsOf (path : Path) : List (List UInt8) :=
  if path.bytes.getLast? = some Path.slash then path.segments ++ [Utf8.encode "."]
  else path.segments

/-- Follows the steps from a directory, and so many links at most. -/
def follow (tree : FileTree) (links : Nat) (place : Place) (steps : List (List UInt8)) :
    Except SystemError Target :=
  match steps with
  | [] => .ok (.directory place)
  | step :: rest =>
      if step = Utf8.encode "." then follow tree links place rest
      else if step = Utf8.encode ".." then
        if place.isEmpty then .error .notFound else follow tree links place.dropLast rest
      else if step.length > maxName then .error .nameTooLong
      else
        match tree.entry? (place ++ [step]) with
        | none => .error .notFound
        | some .directory => follow tree links (place ++ [step]) rest
        | some (.file bytes) => if rest.isEmpty then .ok (.file bytes) else .error .notDirectory
        | some (.link target) =>
            match links with
            | 0 => .error .tooManyLinks
            | links + 1 =>
                if target.bytes.isEmpty || target.isAbsolute then .error .notFound
                else follow tree links place (stepsOf target ++ rest)
  termination_by (links, steps.length)

def resolve (tree : FileTree) (path : Path) : Except SystemError Target :=
  if path.bytes.contains 0 then .error .embeddedNul
  else if path.bytes.length > maxPath then .error .nameTooLong
  else if path.bytes.isEmpty || path.isAbsolute then .error .notFound
  else tree.follow maxLinks [] (stepsOf path)

def put (tree : FileTree) (place : Place) (entry : TreeEntry) : FileTree :=
  ⟨tree.entries.filter (fun (other, _) => other != place) ++ [(place, entry)]⟩

def enter? (tree : FileTree) (place : Place) (name : List UInt8) : Option (Place × FileTree) :=
  match tree.entry? (place ++ [name]) with
  | none => some (place ++ [name], tree.put (place ++ [name]) .directory)
  | some _ =>
      match tree.follow maxLinks place [name] with
      | .ok (.directory place) => some (place, tree)
      | _ => none

def placeFrom (tree : FileTree) (place : Place) (entry : TreeEntry) :
    List (List UInt8) → FileTree
  | [] => tree
  | [name] =>
      match entry, tree.entry? (place ++ [name]) with
      | .directory, some _ => tree
      | _, _ => tree.put (place ++ [name]) entry
  | name :: rest =>
      match tree.enter? place name with
      | some (place, tree) => placeFrom tree place entry rest
      | none => tree

def add (tree : FileTree) (path : Path) (entry : TreeEntry) : FileTree :=
  tree.placeFrom [] entry (path.segments.filter (· != Utf8.encode "."))

def namesIn (tree : FileTree) (place : Place) : List (List UInt8) :=
  tree.entries.filterMap fun (other, _) =>
    match other.getLast? with
    | some name => if other.dropLast = place then some name else none
    | none => none

def files (tree : FileTree) : Files where
  read path :=
    match tree.resolve path with
    | .error error => .error error
    | .ok (.file bytes) => .ok (.ofBytes bytes)
    | .ok (.directory _) => .ok .unreadable
  list path :=
    match tree.resolve path with
    | .error error => .error error
    | .ok (.file _) => .error .notDirectory
    | .ok (.directory place) => .ok (tree.namesIn place)
  isFile path :=
    match tree.resolve path with
    | .ok (.file _) => true
    | _ => false

end FileTree

end Metainfo
