import Metainfo.Markup.Event
import Metainfo.Markup.Reference
import Metainfo.Text.Blank

/-!
The content of a tag: a name up to the first white space and, in start tags, attributes.
-/

namespace Metainfo.Markup.Tag

open Metainfo.Utf8
open Metainfo.Blank

def quote? (byte : UInt8) : Option Quote :=
  if byte = byteOf '\'' then some .single
  else if byte = byteOf '"' then some .double
  else none

/-- The bytes of a tag up to the closing bracket, which may also stand inside quotes; of a tag
that does not end, the quote that is open. -/
def content : Option Quote → List UInt8 → Except (Option Quote) (List UInt8)
  | quote, [] => .error quote
  | none, byte :: rest =>
      if byte = byteOf '>' then .ok []
      else (content (quote? byte) rest).map (byte :: ·)
  | some quote, byte :: rest =>
      (content (if quote? byte = some quote then none else some quote) rest).map (byte :: ·)

def rawName (content : List UInt8) : List UInt8 :=
  content.takeWhile fun byte => !isSpace byte

def afterName (content : List UInt8) : List UInt8 :=
  content.dropWhile fun byte => !isSpace byte

/-- The content of an end tag without the white space at its end, unless there is nothing else. -/
def endName (content : List UInt8) : List UInt8 :=
  match (content.reverse.dropWhile isSpace).reverse with
  | [] => content
  | name => name

/-- Where in an attribute the reader stands; gathered bytes are held in reverse. -/
inductive Position where
  | between
  | inKey (key : List UInt8)
  | afterKey (key : List UInt8)
  | beforeValue (key : List UInt8)
  | inValue (key : List UInt8) (quote : Quote) (value : List UInt8)
  deriving DecidableEq, Repr

/-- Adds an attribute: its key must be new and a text, and so must be its value with every
reference replaced. -/
def addAttribute (attributes : Attributes) (keys : List (List UInt8))
    (key value : List UInt8) : Except Fault Attributes :=
  if keys.contains key then .error .invalidToken
  else
    match strict key, (strict value).bind Reference.expand? with
    | none, _ => .error .invalidToken
    | some _, none => .error .undefinedEntity
    | some key, some value => .ok (attributes.push key value)

def attributesFrom (attributes : Attributes) (keys : List (List UInt8)) :
    Position → List UInt8 → Except Fault Attributes
  | .between, [] => .ok attributes
  | _, [] => .error .invalidToken
  | .between, byte :: rest =>
      attributesFrom attributes keys (if isSpace byte then .between else .inKey [byte]) rest
  | .inKey key, byte :: rest =>
      attributesFrom attributes keys
        (if byte = byteOf '=' then .beforeValue key
        else if isSpace byte then .afterKey key
        else .inKey (byte :: key))
        rest
  | .afterKey key, byte :: rest =>
      if byte = byteOf '=' then attributesFrom attributes keys (.beforeValue key) rest
      else if isSpace byte then attributesFrom attributes keys (.afterKey key) rest
      else .error .invalidToken
  | .beforeValue key, byte :: rest =>
      match quote? byte with
      | some quote => attributesFrom attributes keys (.inValue key quote []) rest
      | none =>
          if isSpace byte then attributesFrom attributes keys (.beforeValue key) rest
          else .error .invalidToken
  | .inValue key quote value, byte :: rest =>
      if quote? byte = some quote then
        match addAttribute attributes keys key.reverse value.reverse with
        | .ok attributes => attributesFrom attributes (key.reverse :: keys) .between rest
        | .error fault => .error fault
      else attributesFrom attributes keys (.inValue key quote (byte :: value)) rest

def attributes (bytes : List UInt8) : Except Fault Attributes :=
  attributesFrom .empty [] .between bytes

def parse (content : List UInt8) : Except Fault (String × Attributes) := do
  let attributes ← attributes (afterName content)
  match strict (rawName content) with
  | some name => .ok (name, attributes)
  | none => .error .invalidToken

end Metainfo.Markup.Tag
