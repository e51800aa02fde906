import Metainfo.Text.Affix

/-!
Names of metadata files and of the capabilities that tie a record to them.
-/

namespace Metainfo.Naming

open Metainfo.Affix

def applicationName (name : String) : String :=
  "application:" ++ name

/-- Provided by a record to tie it to the package that ships the metadata file. -/
def appdataLink (target : String) : String :=
  "application-appdata(" ++ target ++ ")"

/-- Required by a record of the package that installs its metadata file. -/
def appdataRequirement (filename : String) : String :=
  "appdata(" ++ filename ++ ")"

def metadataEndings : List String :=
  [".appdata.xml", ".metainfo.xml"]

/-- A name that is longer than a metadata ending and has it. -/
def hasMetadataEnding (filename : String) : Bool :=
  metadataEndings.any fun ending =>
    match withoutEnding? filename.toList ending.toList with
    | some (_ :: _) => true
    | _ => false

/-- Files whose names begin with a point are hidden and do not count. -/
def isMetadataFile (filename : String) : Bool :=
  filename.toList.head? != some '.' && hasMetadataEnding filename

/-- Endings of ids with the metadata ending that takes their place in the file name. -/
def idEndings : List (String × String) :=
  [(".desktop", ".appdata.xml"),
    (".ttf", ".metainfo.xml"),
    (".otf", ".metainfo.xml"),
    (".xml", ".metainfo.xml"),
    (".db", ".metainfo.xml")]

def stem? (text ending : String) : Option String :=
  match withoutEnding? text.toList ending.toList with
  | some (c :: rest) => some (String.ofList (c :: rest))
  | _ => none

/-- The file name that belongs to an id: the first ending that leaves a stem is replaced, and an
id without one gets the metadata ending as a whole. -/
def guessFilename (id : String) : Option String :=
  if id.isEmpty then none
  else
    some <|
      (idEndings.findSome? fun (ending, metadataEnding) =>
          (stem? id ending).map (· ++ metadataEnding)).getD
        (id ++ ".metainfo.xml")

def nameFromId (id : String) : String :=
  applicationName <|
    (withoutEnding? id.toList ".desktop".toList).elim id String.ofList

end Metainfo.Naming
