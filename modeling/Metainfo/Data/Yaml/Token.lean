import Metainfo.Data.Yaml.Tag

/-!
What a text of YAML consists of.
-/

namespace Metainfo.Yaml

/-- The parts of a text.  Anchors and their aliases are numbered.  Blocks are lists and tables that
are written by indentation; nothing but that marks where they begin and end. -/
inductive Token where
  | version (major minor : Nat)
  | handle (handle : String) (beginning : List UInt8)
  | documentStart
  | documentEnd
  | blockListStart
  | blockTableStart
  | blockEnd
  | listStart
  | listEnd
  | tableStart
  | tableEnd
  | item
  | comma
  | key
  | value
  | anchor (number : Nat)
  | alias (number : Nat)
  | tag (tag : Tag)
  | scalar (text : String) (plain : Bool)
  deriving DecidableEq, Repr

end Metainfo.Yaml
