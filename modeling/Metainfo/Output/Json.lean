import Metainfo.Data.Json.Printer
import Metainfo.Pool.View

/-!
Records as JSON.
-/

namespace Metainfo

def Datum.ofOption : Option String → Datum
  | none => .null
  | some value => .text value

def Datum.ofTexts (texts : List String) : Datum :=
  .list (texts.map .text)

def AttributeValue.toDatum : AttributeValue → Datum
  | .text value => .text value
  | .list values => .ofTexts values

def RecordView.toDatum (view : RecordView) : Datum :=
  .table
    [("id", .number (toString view.id.index)),
      ("name", .ofOption view.name),
      ("arch", .ofOption view.arch),
      ("evr", .ofOption view.version),
      ("requires", .ofTexts view.requires),
      ("provides", .ofTexts view.provides),
      ("attributes", .table (view.attributes.map fun (key, value) => (key, value.toDatum)))]

def renderJson (views : List RecordView) : String :=
  Json.render (.list (views.map RecordView.toDatum)) ++ "\n"

end Metainfo
