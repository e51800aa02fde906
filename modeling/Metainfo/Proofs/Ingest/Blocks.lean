import Metainfo.Proofs.Ingest.Members

/-!
The text of a description. It is put together of the paragraphs and lists in it and depends on
nothing that was read before.
-/

namespace Metainfo

open Metainfo.Markup
open Metainfo.Utf8

/-- A part of a description: the text of a paragraph, or the texts of the items of a list. -/
inductive Block where
  | paragraph (text : String)
  | list (ordered : Bool) (items : List String)
  deriving DecidableEq, Repr

namespace Description

def takeItem (ordered : Bool) (description : Description) (text : String) : Description :=
  if ordered then (description.orderedItem (.ofContent (encode text))).1
  else (description.unorderedItem (.ofContent (encode text))).1

def takeBlock (description : Description) : Block → Description
  | .paragraph text => (description.paragraph (.ofContent (encode text))).1
  | .list ordered items => (items.foldl (takeItem ordered) description.startList).endList

/-- Of what was put together before, only the text matters, since each list counts anew. -/
theorem text_takeBlock {first second : Description} (h : first.text = second.text)
    (block : Block) : (first.takeBlock block).text = (second.takeBlock block).text := by
  cases block with
  | paragraph text => simp [takeBlock, paragraph, append, h]
  | list ordered items =>
      have hstart : first.startList = second.startList := by simp [startList, h]
      rw [takeBlock, takeBlock, hstart]

theorem text_foldl_takeBlock {first second : Description} (h : first.text = second.text)
    (blocks : List Block) :
    (blocks.foldl takeBlock first).text = (blocks.foldl takeBlock second).text := by
  induction blocks generalizing first second with
  | nil => exact h
  | cons block blocks ih => exact ih (text_takeBlock h block)

theorem rendered?_congr {first second : Description} (h : first.text = second.text) :
    first.rendered? = second.rendered? := by
  rw [rendered?, rendered?, h]

end Description

namespace Markup.Fragment

/-- The texts of the items of a list. -/
def items (fragment : Fragment) : List String :=
  (fragment.contents "li").map fun item => String.join item.texts

/-- What a child of a description, given with its name, contributes to it. -/
def block? (child : String × Fragment) : Option Block :=
  if child.1 = "p" then some (.paragraph (String.join child.2.texts))
  else if child.1 = "ul" then some (.list false child.2.items)
  else if child.1 = "ol" then some (.list true child.2.items)
  else none

def blocks (fragment : Fragment) : List Block :=
  fragment.elements.filterMap block?

/-- The text of a description with this content, unless there is none. -/
def rendering? (fragment : Fragment) : Option String :=
  (fragment.blocks.foldl Description.takeBlock .empty).rendered?

end Markup.Fragment

namespace Context

variable {settings : IngestSettings} {context later next : Context} {element : Element}
  {name : String}
  {attributes : Attributes} {transition : Transition} {record : RecordId}
  {description : Description}

/-- Only the description, which is this one now, and the buffer have changed. -/
def Describes (context : Context) (description : Description) (later : Context) : Prop :=
  ∃ content captures, later = { context with description, content, captures }

namespace Describes

theorem refl (context : Context) : context.Describes context.description context :=
  ⟨_, _, rfl⟩

theorem trans {changed : Description} (h : context.Describes description later)
    (hnext : later.Describes changed next) : context.Describes changed next := by
  obtain ⟨_, _, rfl⟩ := h
  obtain ⟨_, _, rfl⟩ := hnext
  exact ⟨_, _, rfl⟩

theorem buffer (h : context.Describes description later) (content : ContentBuffer)
    (captures : Bool) : context.Describes description { later with content, captures } := by
  obtain ⟨_, _, rfl⟩ := h
  exact ⟨_, _, rfl⟩

theorem description_eq (h : context.Describes description later) :
    later.description = description := by
  obtain ⟨_, _, rfl⟩ := h
  rfl

theorem record_eq (h : context.Describes description later) : later.record = context.record := by
  obtain ⟨_, _, rfl⟩ := h
  rfl

end Describes

/-- The element of a list, by whether its items are numbered. -/
def listElement (ordered : Bool) : Element :=
  if ordered then .orderedList else .unorderedList

theorem name_of_transition?_listElement {ordered : Bool}
    (h : (listElement ordered).transition? name = some transition) : name = "li" := by
  have hall : ∀ transition ∈ vocabulary, transition.source = .orderedList ∨
      transition.source = .unorderedList → transition.tag = "li" := by decide
  rw [← Element.tag_of_transition? h]
  apply hall _ (Element.mem_of_transition? h)
  rw [Element.source_of_transition? h]
  cases ordered
  · exact Or.inr rfl
  · exact Or.inl rfl

theorem At.visit_item {ordered : Bool} (h : context.At (listElement ordered))
    (htransition : (listElement ordered).transition? name = some transition)
    (hrecord : context.record = some record) (settings : IngestSettings)
    (attributes : Attributes) (children : Fragment) :
    context.Describes (context.description.takeItem ordered (String.join children.texts))
      (context.visit settings transition attributes children) := by
  obtain rfl := name_of_transition?_listElement htransition
  cases ordered with
  | true =>
      obtain rfl : ⟨.orderedList, "li", .orderedItem, true⟩ = transition :=
        Option.some.inj htransition
      rw [h.visit_leaf htransition rfl hrecord]
      exact ⟨_, _, rfl⟩
  | false =>
      obtain rfl : ⟨.unorderedList, "li", .unorderedItem, true⟩ = transition :=
        Option.some.inj htransition
      rw [h.visit_leaf htransition rfl hrecord]
      exact ⟨_, _, rfl⟩

/-- The content of a list adds its items to the description. -/
theorem At.run_list {ordered : Bool} (h : context.At (listElement ordered))
    (hrecord : context.record = some record) (settings : IngestSettings) (fragment : Fragment) :
    context.Describes (fragment.items.foldl (Description.takeItem ordered) context.description)
      (context.run settings fragment.events) := by
  let read (description : Description) (item : Fragment) : Description :=
    description.takeItem ordered (String.join item.texts)
  let select (child : String × Fragment) : Option Fragment :=
    if child.1 = "li" then some child.2 else none
  have hunknown (name : String) (children : Fragment)
      (h : (listElement ordered).transition? name = none) : select (name, children) = none := by
    refine if_neg ?_
    rintro rfl
    cases ordered <;> contradiction
  have hrun := h.run_children settings context.Describes read select hunknown
    (fun _ _ content captures h => h.buffer content captures) ?_ (.refl context) fragment
  · rw [Fragment.items, List.foldl_map]
    exact hrun
  · intro description later name transition attributes children hat htransition hlater
    have hvisit := hat.visit_item htransition (hlater.record_eq.trans hrecord) settings attributes
      children
    rw [hlater.description_eq] at hvisit
    exact ⟨children, if_pos (name_of_transition?_listElement htransition), hlater.trans hvisit⟩

theorem At.visit_paragraph (h : context.At .description)
    (hrecord : context.record = some record) (settings : IngestSettings)
    (attributes : Attributes) (children : Fragment) :
    context.Describes
      (context.description.takeBlock (.paragraph (String.join children.texts)))
      (context.visit settings ⟨.description, "p", .paragraph, true⟩ attributes children) := by
  have htransition : Element.description.transition? "p" =
      some ⟨.description, "p", .paragraph, true⟩ := rfl
  rw [h.visit_leaf htransition rfl hrecord]
  exact ⟨_, _, rfl⟩

theorem At.visit_list {ordered : Bool} (h : context.At .description)
    (htransition : Element.description.transition? name = some transition)
    (htarget : transition.target = listElement ordered)
    (hrecord : context.record = some record) (settings : IngestSettings)
    (attributes : Attributes) (children : Fragment) :
    context.Describes (context.description.takeBlock (.list ordered children.items))
      (context.visit settings transition attributes children) := by
  have henter : (context.inside transition none).enter attributes =
      { context.inside transition none with description := context.description.startList } := by
    apply enter_list
    change transition.target = .orderedList ∨ transition.target = .unorderedList
    rw [htarget]
    cases ordered
    · exact Or.inr rfl
    · exact Or.inl rfl
  have hat := context.at_inside transition attributes
  rw [htarget] at hat
  have hopen : ((context.inside transition none).enter attributes).record = some record := by
    rw [henter]
    exact hrecord
  obtain ⟨content, captures, hinner⟩ := hat.run_list hopen settings children
  have hread : ((context.inside transition none).enter attributes).run settings children.events =
      { context.inside transition none with
        description := children.items.foldl (Description.takeItem ordered)
          context.description.startList
        content
        captures } := by
    rw [hinner, henter]
  rw [h.visit_eq htransition hrecord hread, htarget]
  refine ⟨content, false, ?_⟩
  cases ordered <;> rfl

/-- The content of a description adds its parts to it. -/
theorem At.run_description (h : context.At .description)
    (hrecord : context.record = some record) (settings : IngestSettings) (fragment : Fragment) :
    context.Describes (fragment.blocks.foldl Description.takeBlock context.description)
      (context.run settings fragment.events) := by
  have hunknown (name : String) (children : Fragment)
      (h : Element.description.transition? name = none) :
      Fragment.block? (name, children) = none := by
    have hp : name ≠ "p" := by
      rintro rfl
      contradiction
    have hul : name ≠ "ul" := by
      rintro rfl
      contradiction
    have hol : name ≠ "ol" := by
      rintro rfl
      contradiction
    simp [Fragment.block?, hp, hul, hol]
  refine h.run_children settings context.Describes Description.takeBlock Fragment.block? hunknown
    (fun _ _ content captures h => h.buffer content captures) ?_ (.refl context) fragment
  intro description later name transition attributes children hat htransition hlater
  have hall : ∀ transition ∈ vocabulary, transition.source = .description →
      transition = ⟨.description, "p", .paragraph, true⟩ ∨
        transition = ⟨.description, "ul", .unorderedList, false⟩ ∨
          transition = ⟨.description, "ol", .orderedList, false⟩ := by decide
  have hopen := hlater.record_eq.trans hrecord
  have hnext {block : Block} (hvisit : later.Describes (later.description.takeBlock block)
      (later.visit settings transition attributes children)) :
      context.Describes (description.takeBlock block)
        (later.visit settings transition attributes children) := by
    rw [hlater.description_eq] at hvisit
    exact hlater.trans hvisit
  obtain rfl := Element.tag_of_transition? htransition
  rcases hall _ (Element.mem_of_transition? htransition)
    (Element.source_of_transition? htransition) with rfl | rfl | rfl
  · exact ⟨_, rfl, hnext (hat.visit_paragraph hopen settings attributes children)⟩
  · have htarget : Element.unorderedList = listElement false := rfl
    exact ⟨_, rfl, hnext (hat.visit_list htransition htarget hopen settings attributes children)⟩
  · have htarget : Element.orderedList = listElement true := rfl
    exact ⟨_, rfl, hnext (hat.visit_list htransition htarget hopen settings attributes children)⟩

/-- A description that closes has the text of its own content, whatever was read before. -/
theorem At.visit_description (h : context.At element)
    (htransition : element.transition? name = some transition)
    (htarget : transition.target = .description) (hrecord : context.record = some record)
    (settings : IngestSettings) (attributes : Attributes) (children : Fragment) :
    ∃ description content captures,
      context.visit settings transition attributes children =
        { context with
          pool := children.rendering?.elim context.pool (context.pool.setText record .description)
          description
          content
          captures } := by
  have henter : (context.inside transition none).enter attributes =
      { context.inside transition none with description := context.description.reset } :=
    enter_description _ attributes htarget
  have hat := context.at_inside transition attributes
  rw [htarget] at hat
  have hopen : ((context.inside transition none).enter attributes).record = some record := by
    rw [henter]
    exact hrecord
  obtain ⟨content, captures, hinner⟩ := hat.run_description hopen settings children
  have hread : ((context.inside transition none).enter attributes).run settings children.events =
      { context.inside transition none with
        description := children.blocks.foldl Description.takeBlock context.description.reset
        content
        captures } := by
    rw [hinner, henter]
  have hreset : context.description.reset.text = Description.empty.text := rfl
  have hrendered :
      (children.blocks.foldl Description.takeBlock context.description.reset).rendered? =
        children.rendering? :=
    Description.rendered?_congr (Description.text_foldl_takeBlock hreset children.blocks)
  rw [h.visit_eq htransition hrecord hread, htarget, leaveIn, Description.finish, hrendered]
  cases children.rendering? with
  | none => exact ⟨_, _, _, rfl⟩
  | some text => exact ⟨_, _, _, rfl⟩

end Context

end Metainfo
