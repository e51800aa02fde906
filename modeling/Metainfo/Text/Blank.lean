import Metainfo.Text.Utf8

/-!
The classes of white space that the formats distinguish.
-/

namespace Metainfo.Blank

open Metainfo.Utf8

/-- White space of running text: space, tab and line feed. -/
def isBlank (byte : UInt8) : Bool :=
  byte = byteOf ' ' || byte = byteOf '\t' || byte = byteOf '\n'

/-- White space of markup: that of running text and the carriage return. -/
def isSpace (byte : UInt8) : Bool :=
  isBlank byte || byte = byteOf '\r'

/-- ASCII white space: that of markup and the form feed. -/
def isAsciiSpace (byte : UInt8) : Bool :=
  isSpace byte || byte = 0x0C

def isWhiteSpace (char : Char) : Bool :=
  ('\x09' ≤ char && char ≤ '\x0D') || char = ' ' || char = '\u0085' || char = '\u00A0' ||
    char = '\u1680' || ('\u2000' ≤ char && char ≤ '\u200A') || char = '\u2028' ||
    char = '\u2029' || char = '\u202F' || char = '\u205F' || char = '\u3000'

def trimEnd (blank : Char → Bool) (text : List Char) : List Char :=
  (text.reverse.dropWhile blank).reverse

def trim (blank : Char → Bool) (text : List Char) : List Char :=
  trimEnd blank (text.dropWhile blank)

end Metainfo.Blank
