import Metainfo.Text.Affix
import Metainfo.Text.Blank
import Metainfo.Text.Source

/-!
The application name and comment that a desktop file gives.
-/

namespace Metainfo

open Metainfo.Affix
open Metainfo.Blank
open Metainfo.Utf8

structure DesktopEntry where
  name : Option String
  comment : Option String
  deriving DecidableEq, Repr

/-- Looks up the desktop entry of an id, below the root directory if the flag is set. -/
abbrev DesktopResolver : Type :=
  String → Bool → Option DesktopEntry

namespace DesktopEntry

def empty : DesktopEntry := ⟨none, none⟩

def isEmpty (entry : DesktopEntry) : Bool :=
  entry.name.isNone && entry.comment.isNone

def isFull (entry : DesktopEntry) : Bool :=
  entry.name.isSome && entry.comment.isSome

/-- Lines that take more bytes, the line feed included, are passed over. -/
def maxLine : Nat := 1023

def isPadding (char : Char) : Bool :=
  char = ' ' || char = '\t'

def isLineSpace (char : Char) : Bool :=
  isPadding char || char = '\r' || char = '\n'

inductive Line where
  | nothing
  | section (isEntry : Bool)
  | assignment (key value : String)
  deriving DecidableEq, Repr

def Line.ofAssignment (text : List Char) : Line :=
  match cutFirst? '=' text with
  | none => .nothing
  | some (key, value) =>
      match trimEnd isPadding key, value.dropWhile isPadding with
      | key@(_ :: _), value@(_ :: _) => .assignment (String.ofList key) (String.ofList value)
      | _, _ => .nothing

def Line.ofBytes (bytes : List UInt8) : Line :=
  if bytes.length > maxLine then .nothing
  else
    let text := trim isLineSpace (lossy bytes).toList
    match text with
    | [] => .nothing
    | '#' :: _ => .nothing
    | '[' :: _ => .section (text = "[Desktop Entry]".toList)
    | _ => Line.ofAssignment text

def assign (entry : DesktopEntry) (key value : String) : DesktopEntry :=
  if key = "Name" then { entry with name := entry.name.or (some value) }
  else if key = "Comment" then { entry with comment := entry.comment.or (some value) }
  else entry

/-- Reads on, in or out of the entry's section, until both fields are filled. -/
def readLines (entry : DesktopEntry) (inSection : Bool) : List (List UInt8) → DesktopEntry
  | [] => entry
  | line :: rest =>
      match Line.ofBytes line with
      | .nothing => readLines entry inSection rest
      | .section isEntry => readLines entry isEntry rest
      | .assignment key value =>
          if inSection then
            let entry := entry.assign key value
            if entry.isFull then entry else readLines entry inSection rest
          else readLines entry inSection rest

/-- The first name and the first comment in the entry's sections of a desktop file. -/
def read (source : Source) : DesktopEntry :=
  readLines empty false source.lines

end DesktopEntry

end Metainfo
