import Metainfo.Data.Datum
import Metainfo.Data.Decimal
import Metainfo.Text.Utf8

/-!
The values that the texts of YAML stand for.  A text without quotes or a tag may stand for
nothing, a truth value or a number.
-/

namespace Metainfo.Yaml

open Metainfo.Digits
open Metainfo.Utf8

def isNull (text : String) : Bool :=
  ["~", "null", "Null", "NULL"].contains text

def bool? (text : String) : Option Bool :=
  if ["true", "True", "TRUE"].contains text then some true
  else if ["false", "False", "FALSE"].contains text then some false
  else none

def isPadded (unsigned : List Char) : Bool :=
  1 < unsigned.length && unsigned.head? = some '0' && unsigned.all (isDigit 10)

def natural? (unsigned : List Char) : Option Nat :=
  match unsigned with
  | '0' :: 'x' :: digits => number? 16 digits
  | '0' :: 'o' :: digits => number? 8 digits
  | '0' :: 'b' :: digits => number? 2 digits
  | digits => if isPadded digits then none else number? 10 digits

/-- A whole number that 128 bits can hold. -/
def isInteger (text : List Char) : Bool :=
  let (negative, unsigned) := Decimal.splitSign text
  (natural? unsigned).any fun number =>
    if negative then number ≤ Nat.pow 2 127 else number < Nat.pow 2 128

def isFloat (text : List Char) : Bool :=
  let unsigned := (Decimal.splitSign text).2
  [".inf", ".Inf", ".INF"].contains (String.ofList unsigned) ||
    [".nan", ".NaN", ".NAN"].contains (String.ofList text) ||
    (Decimal.parse? unsigned).any Decimal.isFinite

def isNumber (text : List Char) : Bool :=
  isInteger text || (!isPadded (Decimal.splitSign text).2 && isFloat text)

def resolve (text : String) (plain : Bool) : Datum :=
  if !plain then .text text
  else if text.isEmpty || isNull text then .null
  else
    match bool? text with
    | some value => .bool value
    | none => if isNumber text.toList then .number text else .text text

/-- The types of values that a tag can demand. -/
inductive Demand where
  | bool
  | integer
  | float
  | null
  deriving DecidableEq, Repr

def Demand.ofName? (name : List UInt8) : Option Demand :=
  if name = encode "tag:yaml.org,2002:bool" then some .bool
  else if name = encode "tag:yaml.org,2002:int" then some .integer
  else if name = encode "tag:yaml.org,2002:float" then some .float
  else if name = encode "tag:yaml.org,2002:null" then some .null
  else none

def Demand.value? (demand : Demand) (text : String) : Option Datum :=
  match demand with
  | .bool => (Yaml.bool? text).map .bool
  | .integer => if isInteger text.toList then some (.number text) else none
  | .float => if isFloat text.toList then some (.number text) else none
  | .null => if isNull text then some .null else none

def ownName? (tag : Option (List UInt8)) : Option String :=
  match tag with
  | some (byte :: name) => if byte = byteOf '!' then strict name else none
  | _ => none

/-- A value with a tag of the text's own is held under the name of the tag. -/
def tagged (tag : Option (List UInt8)) (value : Datum) : Datum :=
  match ownName? tag with
  | some name => .table [(name, value)]
  | none => value

def scalar? (tag : Option (List UInt8)) (text : String) (plain : Bool) : Option Datum :=
  match tag with
  | none => some (resolve text plain)
  | some name =>
      if (ownName? tag).isSome then some (tagged tag (resolve text plain))
      else
        match Demand.ofName? name with
        | some demand => demand.value? text
        | none => some (.text text)

end Metainfo.Yaml
