import Metainfo.Text.Utf8

/-!
The buffer in which the text of an element is gathered.  Its content is followed by one zero
byte, which is no part of the content.
-/

namespace Metainfo

open Metainfo.Utf8

structure ContentBuffer where
  bytes : Array UInt8
  deriving DecidableEq, Repr

namespace ContentBuffer

def empty : ContentBuffer := ⟨#[0]⟩

def size (buffer : ContentBuffer) : Nat :=
  buffer.bytes.size - 1

def isEmpty (buffer : ContentBuffer) : Bool :=
  buffer.size = 0

/-- The bytes before the terminating zero. -/
def content (buffer : ContentBuffer) : List UInt8 :=
  buffer.bytes.toList.take buffer.size

def text (buffer : ContentBuffer) : String :=
  lossy buffer.content

def clear (_ : ContentBuffer) : ContentBuffer :=
  empty

def append (buffer : ContentBuffer) (data : List UInt8) : ContentBuffer :=
  ⟨(buffer.bytes.pop ++ data).push 0⟩

def ofContent (data : List UInt8) : ContentBuffer :=
  empty.append data

def setByte (buffer : ContentBuffer) (index : Nat) (byte : UInt8) : ContentBuffer :=
  if index < buffer.size then ⟨buffer.bytes.setIfInBounds index byte⟩ else buffer

end ContentBuffer

end Metainfo
