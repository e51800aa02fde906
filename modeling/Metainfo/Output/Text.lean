import Metainfo.Pool.View
import Metainfo.Text.Affix

/-!
Records as text: a line with the number, name and architecture of each record, and indented lines
with all else that is known of it.
-/

namespace Metainfo

open Metainfo.Affix

/-- The lines of a text.  A line feed at the end begins no further line, and a carriage return
before a line feed belongs to the end of its line. -/
def textLines (text : String) : List String :=
  let pieces := parts '\n' text.toList
  let ended :=
    pieces.dropLast.map fun line =>
      if line.getLast? = some '\r' then line.dropLast else line
  let last := (pieces.getLast?.filter fun line => !line.isEmpty).toList
  (ended ++ last).map String.ofList

def renderLine (text : String) : String :=
  text ++ "\n"

/-- A value of several lines stands below its name, any other one beside it. -/
def renderAttribute (name : String) : AttributeValue → String
  | .text value =>
      if value.toList.contains '\n' then
        renderLine ("  " ++ name ++ ":") ++
          String.join ((textLines value).map fun text => renderLine ("    " ++ text))
      else renderLine ("  " ++ name ++ ": " ++ value)
  | .list values => renderLine ("  " ++ name ++ ": " ++ String.intercalate ", " values)

def renderHead (view : RecordView) : String :=
  let name := view.name.getD "<unnamed>"
  let arch := view.arch.elim "" fun arch => " (" ++ arch ++ ")"
  renderLine ("#" ++ toString view.id.index ++ " " ++ name ++ arch)

def renderVersion (view : RecordView) : String :=
  (view.version.filter (!·.isEmpty)).elim "" fun version => renderLine ("  evr: " ++ version)

def renderRecord (view : RecordView) : String :=
  renderHead view ++ renderVersion view ++
    String.join (view.attributes.map fun (name, value) => renderAttribute name value) ++
    String.join (view.requires.map fun relation => renderLine ("  requires: " ++ relation)) ++
    String.join (view.provides.map fun relation => renderLine ("  provides: " ++ relation))

def renderText (views : List RecordView) : String :=
  String.join (views.map renderRecord)

end Metainfo
