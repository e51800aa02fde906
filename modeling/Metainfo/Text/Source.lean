import Metainfo.Text.Utf8

/-!
What can be read from an input before it ends, and how it ends.
-/

namespace Metainfo

open Metainfo.Utf8

/-- An input is read to its end, or reading fails after some bytes. -/
inductive Ending where
  | complete
  | failed
  deriving DecidableEq, Repr

structure Source where
  bytes : List UInt8
  ending : Ending
  deriving DecidableEq, Repr

namespace Source

def ofBytes (bytes : List UInt8) : Source :=
  ⟨bytes, .complete⟩

/-- Reading fails as soon as something is read after the first `limit` bytes. -/
def failingAfter (bytes : List UInt8) (limit : Nat) : Source :=
  ⟨bytes.take limit, .failed⟩

def unreadable : Source :=
  ⟨[], .failed⟩

def splitLines : List UInt8 → List (List UInt8) × List UInt8
  | [] => ([], [])
  | byte :: rest =>
      match splitLines rest with
      | (lines, tail) =>
          if byte = byteOf '\n' then ([byte] :: lines, tail)
          else
            match lines with
            | [] => ([], byte :: tail)
            | line :: others => ((byte :: line) :: others, tail)

/-- The lines of an input, each with its line feed.  Text after the last line feed is a line too,
unless it was cut off by a failure. -/
def lines (source : Source) : List (List UInt8) :=
  match source.ending, splitLines source.bytes with
  | .complete, (lines, byte :: tail) => lines ++ [byte :: tail]
  | _, (lines, _) => lines

end Source

end Metainfo
