import Metainfo.Text.Affix
import Metainfo.Text.Utf8

/-!
Paths of files: bytes in which slashes separate the components.
-/

namespace Metainfo

open Metainfo.Affix
open Metainfo.Utf8

structure Path where
  bytes : List UInt8
  deriving DecidableEq, Repr

inductive Component where
  | root
  | current
  | parent
  | name (bytes : List UInt8)
  deriving DecidableEq, Repr

def Component.bytes : Component → List UInt8
  | .root => encode "/"
  | .current => encode "."
  | .parent => encode ".."
  | .name bytes => bytes

namespace Path

def slash : UInt8 := byteOf '/'

def ofString (text : String) : Path := ⟨encode text⟩

def display (path : Path) : String := lossy path.bytes

def isAbsolute (path : Path) : Bool :=
  path.bytes.head? = some slash

def segments (path : Path) : List (List UInt8) :=
  (parts slash path.bytes).filter fun segment => !segment.isEmpty

def component? (segment : List UInt8) : Option Component :=
  if segment = encode "." then none
  else if segment = encode ".." then some .parent
  else some (.name segment)

/-- The components of a path.  Repeated slashes and slashes at the end do not count, nor does the
current directory unless the path begins with it. -/
def components (path : Path) : List Component :=
  let first :=
    if path.isAbsolute then [Component.root]
    else if (parts slash path.bytes).head? = some (encode ".") then [.current]
    else []
  first ++ path.segments.filterMap component?

/-- A path seen from the end of another one.  An absolute path stands for itself. -/
def join (base path : Path) : Path :=
  if path.isAbsolute then path
  else
    match base.bytes.getLast? with
    | some last =>
        if last = slash then ⟨base.bytes ++ path.bytes⟩
        else ⟨base.bytes ++ slash :: path.bytes⟩
    | none => path

def ofComponents (components : List Component) : Path :=
  components.foldl (fun path component => path.join ⟨component.bytes⟩) ⟨[]⟩

/-- A path below a root, if there is one: an absolute path loses its leading slash. -/
def below (root : Option Path) (path : Path) : Path :=
  match root with
  | none => path
  | some root => root.join (ofComponents (path.components.filter (· != .root)))

def fileName? (path : Path) : Option (List UInt8) :=
  match path.components.getLast? with
  | some (.name bytes) => some bytes
  | _ => none

/-- What follows the last point in the file name, unless the name begins with it. -/
def extension? (path : Path) : Option (List UInt8) := do
  let name ← path.fileName?
  match ← cutLast? (byteOf '.') name with
  | ([], _) => none
  | (_, extension) => some extension

end Path

end Metainfo
