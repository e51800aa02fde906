import Std.Data.HashMap

/-!
Numbering of texts in the order in which they first appear.
-/

namespace Metainfo

/-- Stands for a text of the interner that issued it. -/
structure StringId where
  index : Nat
  deriving DecidableEq, Hashable, Repr

namespace StringId

/-- The empty text, which stands for no version. -/
def empty : StringId := ⟨0⟩

def noarch : StringId := ⟨1⟩

def src : StringId := ⟨2⟩

def nosrc : StringId := ⟨3⟩

def isSourceArch (id : StringId) : Bool :=
  id = src || id = nosrc

end StringId

/-- The known texts by number, and their numbers by text. -/
structure Interner where
  strings : Array String
  numbers : Std.HashMap String StringId

namespace Interner

def size (interner : Interner) : Nat :=
  interner.strings.size

def find? (interner : Interner) (text : String) : Option StringId :=
  interner.numbers[text]?

def resolve? (interner : Interner) (id : StringId) : Option String :=
  interner.strings[id.index]?

/-- The number of a text, which is a new one if the text is not known yet. -/
def intern (interner : Interner) (text : String) : StringId × Interner :=
  match interner.find? text with
  | some id => (id, interner)
  | none =>
      let id : StringId := ⟨interner.size⟩
      (id, ⟨interner.strings.push text, interner.numbers.insert text id⟩)

def internAll (interner : Interner) (texts : List String) : Interner :=
  texts.foldl (fun interner text => (interner.intern text).2) interner

def predefined : List String :=
  ["", "noarch", "src", "nosrc"]

def initial : Interner :=
  internAll ⟨#[], {}⟩ predefined

end Interner

end Metainfo
