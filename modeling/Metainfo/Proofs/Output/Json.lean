import Metainfo.Output.Json
import Metainfo.Proofs.Json.Printing
import Metainfo.Proofs.Json.Reading

/-!
Records printed as JSON are told from the text by its grammar alone.
-/

namespace Metainfo

/-! What a value says, as far as it has the form in which records are written. -/

def Datum.number? : Datum → Option Nat
  | .number literal => Digits.number? 10 literal.toList
  | _ => none

def Datum.text? : Datum → Option String
  | .text value => some value
  | _ => none

/-- A text or nothing at all. -/
def Datum.option? : Datum → Option (Option String)
  | .null => some none
  | datum => datum.text?.map some

def Datum.texts? : Datum → Option (List String)
  | .list items => items.mapM text?
  | _ => none

def AttributeValue.ofDatum? : Datum → Option AttributeValue
  | .text value => some (.text value)
  | datum => datum.texts?.map .list

def Datum.attributes? : Datum → Option (List (String × AttributeValue))
  | .table members =>
      members.mapM fun member =>
        (AttributeValue.ofDatum? member.2).map fun value => (member.1, value)
  | _ => none

/-- The record that a table tells, each field by its name. -/
def RecordView.ofDatum? : Datum → Option RecordView
  | .table members => do
      let id ← (members.lookup "id").bind Datum.number?
      let name ← (members.lookup "name").bind Datum.option?
      let arch ← (members.lookup "arch").bind Datum.option?
      let version ← (members.lookup "evr").bind Datum.option?
      let requires ← (members.lookup "requires").bind Datum.texts?
      let provides ← (members.lookup "provides").bind Datum.texts?
      let attributes ← (members.lookup "attributes").bind Datum.attributes?
      return ⟨⟨id⟩, name, arch, version, requires, provides, attributes⟩
  | _ => none

def Datum.views? : Datum → Option (List RecordView)
  | .list items => items.mapM RecordView.ofDatum?
  | _ => none

theorem mapM_map_of_inverse {α β : Type} (print : α → β) (read : β → Option α)
    (h : ∀ value, read (print value) = some value) (values : List α) :
    (values.map print).mapM read = some values := by
  have hpure : read ∘ print = pure ∘ id := funext h
  rw [List.mapM_map, hpure]
  exact List.mapM_pure.trans (congrArg some values.map_id)

/-! Each form is read back as what it was written for. -/

theorem Datum.number?_toString (number : Nat) :
    (Datum.number (toString number)).number? = some number := by
  rw [Datum.number?, Nat.toString_eq_ofList_toDigits, String.toList_ofList,
    Digits.number?_toDigits]

theorem Datum.option?_ofOption (value : Option String) :
    (Datum.ofOption value).option? = some value := by
  cases value <;> rfl

theorem Datum.texts?_ofTexts (texts : List String) : (Datum.ofTexts texts).texts? = some texts :=
  mapM_map_of_inverse Datum.text Datum.text? (fun _ => rfl) texts

theorem AttributeValue.ofDatum?_toDatum (value : AttributeValue) :
    ofDatum? value.toDatum = some value := by
  cases value with
  | text value => rfl
  | list values =>
      change (Datum.ofTexts values).texts?.map AttributeValue.list = _
      rw [Datum.texts?_ofTexts, Option.map_some]

theorem Datum.attributes?_map (attributes : List (String × AttributeValue)) :
    (Datum.table (attributes.map fun (key, value) => (key, value.toDatum))).attributes? =
      some attributes := by
  refine mapM_map_of_inverse (fun (key, value) => (key, value.toDatum)) _ ?_ attributes
  rintro ⟨key, value⟩
  dsimp only
  rw [AttributeValue.ofDatum?_toDatum, Option.map_some]

theorem RecordView.ofDatum?_toDatum (view : RecordView) : ofDatum? view.toDatum = some view := by
  simp only [toDatum, ofDatum?, List.lookup_cons, String.reduceBEq, Option.bind_some,
    Option.bind_eq_bind, Datum.number?_toString, Datum.option?_ofOption, Datum.texts?_ofTexts,
    Datum.attributes?_map]
  rfl

theorem Datum.views?_map (views : List RecordView) :
    (Datum.list (views.map RecordView.toDatum)).views? = some views :=
  mapM_map_of_inverse RecordView.toDatum _ RecordView.ofDatum?_toDatum views

/-! The values of records are of a bounded depth and hold no numbers but those of the records. -/

section

variable {Admits : Decimal → Prop} {depth : Nat}

theorem Datum.fits_ofOption (value : Option String) :
    Json.Fits Admits depth (Datum.ofOption value) := by
  cases value with
  | none => exact .null
  | some value => exact .text value

theorem Datum.fits_ofTexts (texts : List String) :
    Json.Fits Admits (depth + 1) (Datum.ofTexts texts) := by
  refine .list fun item hitem => ?_
  obtain ⟨text, -, rfl⟩ := List.mem_map.mp hitem
  exact .text text

theorem AttributeValue.fits_toDatum (value : AttributeValue) :
    Json.Fits Admits (depth + 1) value.toDatum := by
  cases value with
  | text value => exact .text value
  | list values => exact Datum.fits_ofTexts values

theorem RecordView.fits_toDatum {view : RecordView}
    (h : Admits ⟨Nat.toDigits 10 view.id.index, none, none⟩) :
    Json.Fits Admits (depth + 3) view.toDatum := by
  have hid : Json.Fits Admits (depth + 2) (.number (toString view.id.index)) := by
    refine .number ?_ h
    rw [Nat.toString_eq_ofList_toDigits, String.toList_ofList]
    exact Json.writesNumber_toDigits view.id.index
  refine .table fun member hmember => ?_
  simp only [List.mem_cons, List.not_mem_nil, or_false] at hmember
  obtain rfl | rfl | rfl | rfl | rfl | rfl | rfl := hmember
  · exact hid
  · exact Datum.fits_ofOption view.name
  · exact Datum.fits_ofOption view.arch
  · exact Datum.fits_ofOption view.version
  · exact Datum.fits_ofTexts view.requires
  · exact Datum.fits_ofTexts view.provides
  · refine .table fun entry hentry => ?_
    obtain ⟨⟨key, value⟩, -, rfl⟩ := List.mem_map.mp hentry
    exact value.fits_toDatum

theorem RecordView.fits_list {views : List RecordView}
    (h : ∀ view ∈ views, Admits ⟨Nat.toDigits 10 view.id.index, none, none⟩) :
    Json.Fits Admits (depth + 4) (.list (views.map toDatum)) := by
  refine .list fun item hitem => ?_
  obtain ⟨view, hview, rfl⟩ := List.mem_map.mp hitem
  exact fits_toDatum (h view hview)

end

/-! What is printed denotes the values of the records. -/

theorem RecordView.writes_render (views : List RecordView) :
    Json.Writes (.list (views.map toDatum)) (Json.render (.list (views.map toDatum))).toList := by
  have hfits : Json.Fits (fun _ => True) 4 (.list (views.map toDatum)) :=
    fits_list fun _ _ => trivial
  rw [Json.render, String.toList_ofList]
  exact hfits.writes_write 0

theorem denotes_renderJson (views : List RecordView) :
    Json.Denotes (renderJson views).toList (.list (views.map RecordView.toDatum)) := by
  have hfeed : Json.IsBlank ['\n'] := List.forall_mem_singleton.mpr rfl
  refine ⟨[], _, ['\n'], Json.isBlank_nil, RecordView.writes_render views, hfeed, ?_⟩
  rw [renderJson, String.toList_append, List.nil_append]
  rfl

theorem views?_of_denotes {views : List RecordView} {datum : Datum}
    (h : Json.Denotes (renderJson views).toList datum) : datum.views? = some views := by
  rw [h.unique (denotes_renderJson views), Datum.views?_map]

theorem parse_renderJson {views : List RecordView}
    (h : ∀ view ∈ views, view.id.index < Nat.pow 2 32) :
    Json.parse (renderJson views) = some (.list (views.map RecordView.toDatum)) := by
  have hfits : Json.Fits Json.IsInRange Json.maxDepth (.list (views.map RecordView.toDatum)) :=
    RecordView.fits_list fun view hview =>
      Json.isInRange_toDigits ((h view hview).trans (by decide))
  exact Json.parse_eq_some_iff.mpr ⟨denotes_renderJson views, hfits⟩

/-- Records are printed as one array with a line feed behind it. What the text denotes by the
grammar tells the records again, in order and with all that is known of each, so that other records
are never printed alike; the reader reads it back, too, unless a record has a number of more than 32
bits. -/
theorem renderJson_lossless (views : List RecordView) :
    (∃ array items, renderJson views = array ++ "\n" ∧ Json.Writes (.list items) array.toList) ∧
    (∃ datum, Json.Denotes (renderJson views).toList datum) ∧
    (∀ datum, Json.Denotes (renderJson views).toList datum → datum.views? = some views) ∧
    ((∀ view ∈ views, view.id.index < Nat.pow 2 32) →
      (Json.parse (renderJson views)).bind Datum.views? = some views) ∧
    ∀ others, renderJson others = renderJson views → others = views := by
  refine ⟨⟨_, _, rfl, RecordView.writes_render views⟩, ⟨_, denotes_renderJson views⟩,
    fun datum hdatum => views?_of_denotes hdatum, fun hsmall => ?_, fun others hsame => ?_⟩
  · rw [parse_renderJson hsmall, Option.bind_some, Datum.views?_map]
  · have hothers := denotes_renderJson others
    rw [hsame] at hothers
    have hviews := views?_of_denotes hothers
    rw [Datum.views?_map] at hviews
    exact Option.some.inj hviews

/-- A list of one text is not printed like the text, nor a missing version like an empty one. -/
theorem renderJson_lossless_single :
    let view : RecordView := ⟨⟨0⟩, none, some "", none, [], [], [("summary", .text "\"")]⟩
    renderJson [{ view with attributes := [("summary", .list ["\""])] }] ≠ renderJson [view] ∧
      renderJson [{ view with version := some "" }] ≠ renderJson [view] ∧
      (Json.parse (renderJson [view])).bind Datum.views? = some [view] := by
  intro view
  obtain ⟨-, -, -, hread, hlossless⟩ := renderJson_lossless [view]
  exact ⟨fun hsame => absurd (hlossless _ hsame) (by decide),
    fun hsame => absurd (hlossless _ hsame) (by decide), hread (by simp [view])⟩

end Metainfo
