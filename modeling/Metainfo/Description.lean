import Metainfo.Content.Collapse
import Metainfo.Content.Indent

/-!
Plain text of a description, put together from its paragraphs and list items.
-/

namespace Metainfo

open Metainfo.Utf8

/-- The text gathered so far, if any, and how many items of the current list were numbered. -/
structure Description where
  text : Option String
  items : Nat
  deriving DecidableEq, Repr

namespace Description

def empty : Description := ⟨none, 0⟩

def itemIndent : Nat := 4

def reset (description : Description) : Description :=
  { description with text := none }

def startList (description : Description) : Description :=
  { description with items := 0 }

def append (description : Description) (text : String) : Description :=
  { description with text := some (description.text.getD "" ++ text) }

/-- A list is followed by an empty line. -/
def endList (description : Description) : Description :=
  description.append "\n"

def paragraph (description : Description) (content : ContentBuffer) :
    Description × ContentBuffer :=
  let content := content.collapse
  (description.append (content.text ++ "\n\n"), content)

def unorderedItem (description : Description) (content : ContentBuffer) :
    Description × ContentBuffer :=
  let content := (content.collapse.indent itemIndent).setByte 2 (byteOf '-')
  (description.append (content.text ++ "\n"), content)

def lastDigit (number : Nat) : UInt8 :=
  byteOf '0' + UInt8.ofNat (number % 10)

/-- Writes an item's number into the two columns before its point; of a longer number, the last
two digits. -/
def writeNumber (content : ContentBuffer) (number : Nat) : ContentBuffer :=
  let content :=
    if number < 10 then content else content.setByte 0 (lastDigit (number / 10))
  (content.setByte 1 (lastDigit number)).setByte 2 (byteOf '.')

def orderedItem (description : Description) (content : ContentBuffer) :
    Description × ContentBuffer :=
  let number := description.items + 1
  let content := writeNumber (content.collapse.indent itemIndent) number
  ({ description with items := number }.append (content.text ++ "\n"), content)

/-- The text without the line feeds at its end, unless nothing else was gathered. -/
def rendered? (description : Description) : Option String := do
  let text ← description.text
  let trimmed := (text.toList.reverse.dropWhile (· = '\n')).reverse
  if trimmed.isEmpty then none else some (String.ofList trimmed)

def finish (description : Description) : Option String × Description :=
  (description.rendered?, description.reset)

end Description

end Metainfo
