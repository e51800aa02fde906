/-!
Structured values, as the common data formats write them.
-/

namespace Metainfo

/-- Numbers keep their text; the members of a table keep their order. -/
inductive Datum where
  | null
  | bool (value : Bool)
  | number (literal : String)
  | text (value : String)
  | list (items : List Datum)
  | table (members : List (String × Datum))
  deriving Repr

namespace Datum

def lookupLast (members : List (String × Datum)) (name : String) : Option Datum :=
  members.reverse.lookup name

end Datum

end Metainfo
