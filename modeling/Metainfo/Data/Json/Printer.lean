import Metainfo.Data.Datum

/-!
Writing values as JSON with one member or item a line, each two spaces further in than what holds
it.  An empty list or table takes no line of its own.
-/

namespace Metainfo.Json

def hexDigit (value : Nat) : Char :=
  Nat.digitChar value

/-- A character inside quotes.  Quotes, backslashes and control characters are escaped. -/
def writeChar (char : Char) : List Char :=
  if char = '"' then ['\\', '"']
  else if char = '\\' then ['\\', '\\']
  else if char = '\x08' then ['\\', 'b']
  else if char = '\x0C' then ['\\', 'f']
  else if char = '\n' then ['\\', 'n']
  else if char = '\r' then ['\\', 'r']
  else if char = '\t' then ['\\', 't']
  else if char.toNat < 0x20 then
    ['\\', 'u', '0', '0', hexDigit (char.toNat / 16), hexDigit (char.toNat % 16)]
  else [char]

def writeText (text : String) : List Char :=
  '"' :: text.toList.flatMap writeChar ++ ['"']

def newline (level : Nat) : List Char :=
  '\n' :: List.replicate (2 * level) ' '

mutual

/-- A value whose own lines are so many levels in. -/
def write (level : Nat) : Datum → List Char
  | .null => "null".toList
  | .bool true => "true".toList
  | .bool false => "false".toList
  | .number literal => literal.toList
  | .text value => writeText value
  | .list [] => ['[', ']']
  | .list (item :: items) =>
      '[' :: newline (level + 1) ++ write (level + 1) item ++ writeItems (level + 1) items ++
        newline level ++ [']']
  | .table [] => ['{', '}']
  | .table ((name, value) :: members) =>
      '{' :: newline (level + 1) ++ writeText name ++ [':', ' '] ++ write (level + 1) value ++
        writeMembers (level + 1) members ++ newline level ++ ['}']

def writeItems (level : Nat) : List Datum → List Char
  | [] => []
  | item :: items => ',' :: newline level ++ write level item ++ writeItems level items

def writeMembers (level : Nat) : List (String × Datum) → List Char
  | [] => []
  | (name, value) :: members =>
      ',' :: newline level ++ writeText name ++ [':', ' '] ++ write level value ++
        writeMembers level members

end

def render (datum : Datum) : String :=
  String.ofList (write 0 datum)

end Metainfo.Json
