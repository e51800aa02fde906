import Metainfo.Content.Buffer

/-!
Indenting in place: every line that is not empty gets the same number of spaces in front.  The
room is made first and filled from the back, so that no byte is overwritten before it has moved.
-/

namespace Metainfo.ContentBuffer

open Metainfo.Utf8

def startsLine (bytes : Array UInt8) (position : Nat) : Bool :=
  bytes.getD position 0 != byteOf '\n' &&
    (position = 0 || bytes.getD (position - 1) 0 = byteOf '\n')

def fillSpaces (bytes : Array UInt8) (start : Nat) : Nat → Array UInt8
  | 0 => bytes
  | width + 1 => fillSpaces (bytes.setIfInBounds start (byteOf ' ')) (start + 1) width

/-- Moves the first `read` bytes up so that they end at `write`, with the spaces between. -/
def indentBefore (width : Nat) (bytes : Array UInt8) : (read write : Nat) → Array UInt8
  | 0, _ => bytes
  | read + 1, write =>
      let moved := bytes.setIfInBounds (write - 1) (bytes.getD read 0)
      if startsLine moved read then
        indentBefore width (fillSpaces moved (write - 1 - width) width) read
          (write - 1 - width)
      else indentBefore width moved read (write - 1)

def lineStarts (buffer : ContentBuffer) : Nat :=
  (List.range buffer.size).countP (startsLine buffer.bytes)

def indent (buffer : ContentBuffer) (width : Nat) : ContentBuffer :=
  let room := width * buffer.lineStarts
  if room = 0 then buffer
  else
    ⟨indentBefore width (buffer.bytes ++ Array.replicate room 0) buffer.size
      (buffer.size + room)⟩

end Metainfo.ContentBuffer
