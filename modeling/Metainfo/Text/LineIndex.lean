import Metainfo.Text.Utf8

/-!
Line and column of a byte offset.  The index is fed with the bytes in the order in which they are
read, in pieces of any sizes, and remembers where the line feeds were.
-/

namespace Metainfo

open Metainfo.Utf8

/-- A place in a text: lines count from 1, columns from 0 and in bytes. -/
structure Location where
  line : Nat
  column : Nat
  deriving DecidableEq, Repr

/-- The number of bytes read so far and the offsets of the line feeds among them. -/
structure LineIndex where
  consumed : Nat
  newlines : Array Nat
  deriving DecidableEq, Repr

namespace LineIndex

def empty : LineIndex := ⟨0, #[]⟩

def newlinesFrom (start : Nat) : List UInt8 → List Nat
  | [] => []
  | byte :: rest =>
      if byte = byteOf '\n' then start :: newlinesFrom (start + 1) rest
      else newlinesFrom (start + 1) rest

def record (index : LineIndex) (bytes : List UInt8) : LineIndex :=
  ⟨index.consumed + bytes.length, index.newlines ++ newlinesFrom index.consumed bytes⟩

/-- Takes notice of `amount` bytes out of those that a reader holds `available`. -/
def consume (index : LineIndex) (available : List UInt8) (amount : Nat) : LineIndex :=
  ⟨index.consumed + amount,
    index.newlines ++ newlinesFrom index.consumed (available.take amount)⟩

/-- How many of the ascending `positions` in the range from `low` to `high` precede `offset`,
added to `low`: halves the range at each step. -/
def partitionPoint (positions : Array Nat) (offset low high : Nat) : Nat :=
  if low < high then
    let middle := (low + high) / 2
    if positions.getD middle 0 < offset then partitionPoint positions offset (middle + 1) high
    else partitionPoint positions offset low middle
  else low
  termination_by high - low

def location (index : LineIndex) (offset : Nat) : Location :=
  let before := partitionPoint index.newlines offset 0 index.newlines.size
  let lineStart := if before = 0 then 0 else index.newlines.getD (before - 1) 0 + 1
  ⟨before + 1, offset - lineStart⟩

end LineIndex

end Metainfo
