/-!
Bytes as text.  `strict` accepts well-formed UTF-8 only; `lossy` accepts everything and puts one
replacement character in the place of each maximal ill-formed part.
-/

namespace Metainfo.Utf8

def encode (text : String) : List UInt8 :=
  text.toUTF8.data.toList

/-- A character of which some bytes have been read: `owed` further bytes are due, the next of
them between `low` and `high`; `value` is what the bytes so far contribute. -/
structure Partial where
  owed : Nat
  low : UInt8
  high : UInt8
  value : Nat
  deriving DecidableEq, Repr

inductive Lead where
  | ascii (char : Char)
  | longer (begun : Partial)
  | invalid
  deriving DecidableEq, Repr

def Lead.ofByte (byte : UInt8) : Lead :=
  if byte < 0x80 then .ascii (Char.ofNat byte.toNat)
  else if byte < 0xC2 then .invalid
  else if byte < 0xE0 then .longer ⟨1, 0x80, 0xBF, byte.toNat - 0xC0⟩
  else if byte = 0xE0 then .longer ⟨2, 0xA0, 0xBF, 0⟩
  else if byte = 0xED then .longer ⟨2, 0x80, 0x9F, 0xD⟩
  else if byte < 0xF0 then .longer ⟨2, 0x80, 0xBF, byte.toNat - 0xE0⟩
  else if byte = 0xF0 then .longer ⟨3, 0x90, 0xBF, 0⟩
  else if byte < 0xF4 then .longer ⟨3, 0x80, 0xBF, byte.toNat - 0xF0⟩
  else if byte = 0xF4 then .longer ⟨3, 0x80, 0x8F, 4⟩
  else .invalid

def Partial.admits (begun : Partial) (byte : UInt8) : Bool :=
  begun.low ≤ byte && byte ≤ begun.high

def Partial.extend (begun : Partial) (byte : UInt8) : Partial :=
  ⟨begun.owed - 1, 0x80, 0xBF, begun.value * 64 + (byte.toNat - 0x80)⟩

/-- The characters of a byte sequence, `none` standing for a maximal ill-formed part. -/
def scalars : Option Partial → List UInt8 → List (Option Char)
  | none, [] => []
  | some _, [] => [none]
  | none, byte :: rest =>
      match Lead.ofByte byte with
      | .ascii char => some char :: scalars none rest
      | .longer begun => scalars (some begun) rest
      | .invalid => none :: scalars none rest
  | some begun, byte :: rest =>
      if begun.admits byte then
        let extended := begun.extend byte
        if extended.owed = 0 then some (Char.ofNat extended.value) :: scalars none rest
        else scalars (some extended) rest
      else
        match Lead.ofByte byte with
        | .ascii char => none :: some char :: scalars none rest
        | .longer next => none :: scalars (some next) rest
        | .invalid => none :: none :: scalars none rest

def replacement : Char := '\uFFFD'

def lossy (bytes : List UInt8) : String :=
  String.ofList ((scalars none bytes).map (·.getD replacement))

/-- The text that the bytes encode, if they are well-formed. -/
def strict (bytes : List UInt8) : Option String :=
  ((scalars none bytes).mapM id).map String.ofList

def byteOf (char : Char) : UInt8 :=
  UInt8.ofNat char.toNat

end Metainfo.Utf8
