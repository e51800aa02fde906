/-!
Readers of the front of a text.
-/

namespace Metainfo

/-- Reads one thing at the front of a text and leaves the rest. -/
abbrev Reader (α : Type) : Type :=
  List Char → Option (α × List Char)

end Metainfo
