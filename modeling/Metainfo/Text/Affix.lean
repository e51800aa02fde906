/-!
Endings and beginnings of texts, taken off.
-/

namespace Metainfo.Affix

/-- What stands before `ending` at the end of `text`. -/
def withoutEnding? {α : Type} [BEq α] (text ending : List α) : Option (List α) :=
  if ending.isSuffixOf text then some (text.take (text.length - ending.length)) else none

def withoutBeginning? {α : Type} [BEq α] (text beginning : List α) : Option (List α) :=
  if beginning.isPrefixOf text then some (text.drop beginning.length) else none

/-- The parts of `text` before and after the first `separator`. -/
def cutFirst? {α : Type} [BEq α] (separator : α) (text : List α) :
    Option (List α × List α) :=
  match text.span (· != separator) with
  | (_, []) => none
  | (before, _ :: after) => some (before, after)

def cutLast? {α : Type} [BEq α] (separator : α) (text : List α) : Option (List α × List α) :=
  (cutFirst? separator text.reverse).map fun (after, before) => (before.reverse, after.reverse)

/-- The parts of `text` between its separators; one more than there are separators. -/
def parts {α : Type} [BEq α] (separator : α) : List α → List (List α)
  | [] => [[]]
  | a :: rest =>
      if a == separator then [] :: parts separator rest
      else
        match parts separator rest with
        | [] => [[a]]
        | part :: others => (a :: part) :: others

end Metainfo.Affix
