import Metainfo.DesktopEntry
import Metainfo.Files.Access

/-!
Desktop entries among the files of a machine.
-/

namespace Metainfo

structure DesktopFiles where
  applicationsDir : Path
  root : Option Path
  deriving DecidableEq, Repr

namespace DesktopFiles

def defaultApplicationsDir : Path := .ofString "/usr/share/applications"

def inDirectory (directory : Path) : DesktopFiles := ⟨directory, none⟩

def default : DesktopFiles := inDirectory defaultApplicationsDir

def withRoot (desktopFiles : DesktopFiles) (root : Path) : DesktopFiles :=
  { desktopFiles with root := some root }

/-- Where the desktop file of an id lies. -/
def path (desktopFiles : DesktopFiles) (id : String) (useRoot : Bool) : Path :=
  let path := desktopFiles.applicationsDir.join (.ofString id)
  if useRoot then Path.below desktopFiles.root path else path

def resolve (desktopFiles : DesktopFiles) (files : Files) : DesktopResolver :=
  fun id useRoot =>
    match files.read (desktopFiles.path id useRoot) with
    | .error _ => none
    | .ok source =>
        let entry := DesktopEntry.read source
        if entry.isEmpty then none else some entry

end DesktopFiles

end Metainfo
