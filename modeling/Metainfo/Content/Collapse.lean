import Metainfo.Content.Buffer
import Metainfo.Text.Blank

/-!
Collapsing white space in place: blanks at both ends of the content go, and each run of blanks
between two words becomes one line feed if it holds one, else one space.  A reading and a writing
position move over the same bytes, the writing one never ahead.
-/

namespace Metainfo.ContentBuffer

open Metainfo.Utf8
open Metainfo.Blank

/-- The blanks since the last word. -/
inductive Gap where
  | closed
  | space
  | line
  deriving DecidableEq, Repr

def Gap.widen (gap : Gap) (blank : UInt8) : Gap :=
  if blank = byteOf '\n' || gap = .line then .line else .space

def Gap.separator? : Gap → Option UInt8
  | .closed => none
  | .space => some (byteOf ' ')
  | .line => some (byteOf '\n')

/-- Moves what is kept of the bytes from `read` to `stop` down to `write` and cuts there. -/
def collapseFrom (stop : Nat) (bytes : Array UInt8) (read write : Nat) (gap : Gap) :
    Array UInt8 :=
  if read < stop then
    let byte := bytes.getD read 0
    if isBlank byte then collapseFrom stop bytes (read + 1) write (gap.widen byte)
    else
      match gap.separator?, write with
      | some separator, before + 1 =>
          collapseFrom stop
            ((bytes.setIfInBounds (before + 1) separator).setIfInBounds (before + 2) byte)
            (read + 1) (before + 3) .closed
      | _, _ =>
          collapseFrom stop (bytes.setIfInBounds write byte) (read + 1) (write + 1) .closed
  else bytes.take write
  termination_by stop - read

def collapse (buffer : ContentBuffer) : ContentBuffer :=
  ⟨(collapseFrom buffer.size buffer.bytes 0 0 .closed).push 0⟩

end Metainfo.ContentBuffer
