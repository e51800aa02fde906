import Metainfo.Proofs.Ingest.Blocks
import Metainfo.Proofs.Ingest.Edits

/-!
What the element of a record says of it. Reading the content of an application comes to carrying
out the details that its children give, one after the other, and nothing else has an effect.
-/

namespace Metainfo

open Metainfo.Markup
open Metainfo.Naming

/-- Something that an element in an application says of its record. -/
inductive Detail where
  | id (value : String)
  | package (value : String)
  | name (value : String)
  | text (key : TextKey) (value : String)
  | item (key : ListKey) (value : String)
  deriving DecidableEq, Repr

namespace Detail

def id? : Detail → Option String
  | .id value => some value
  | _ => none

def package? : Detail → Option String
  | .package value => some value
  | _ => none

def name? : Detail → Option String
  | .name value => some value
  | _ => none

def text? (key : TextKey) : Detail → Option String
  | .text written value => if written = key then some value else none
  | _ => none

def item? (key : ListKey) : Detail → Option String
  | .item written value => if written = key then some value else none
  | _ => none

/-- What a child of an application says, by what it means there. -/
def ofChild : Element × Fragment → List Detail
  | (.id, content) => [.id content.value]
  | (.pkgname, content) => [.package content.value]
  | (.name, content) => [.name (applicationName content.value)]
  | (.summary, content) => [.text .summary content.value]
  | (.url, content) => [.text .url content.value]
  | (.licence, content) => [.item .license content.value]
  | (.group, content) => [.item .group content.value]
  | (.extensions, content) => [.item .extensions content.value]
  | (.keywords, content) =>
      (content.contents "keyword").map fun keyword => .item .keywords keyword.value
  | (.description, content) => content.rendering?.toList.map (.text .description)
  | _ => []

def write (record : RecordId) (pool : Pool) : Detail → Pool
  | .id _ => pool
  | .package value => Completion.linkPackage pool record value
  | .name value => Completion.setNameText pool record value
  | .text key value => pool.setText record key value
  | .item key value => pool.addToList record key value

def note (findings : Completion.Findings) : Detail → Completion.Findings
  | .id value => { findings with id := some value }
  | .text .summary _ => { findings with hasSummary := true }
  | _ => findings

/-- Of the ids the last one counts. -/
theorem id_foldl_note (details : List Detail) (findings : Completion.Findings) :
    (details.foldl note findings).id = (details.filterMap id?).getLast?.or findings.id := by
  induction details generalizing findings with
  | nil => rfl
  | cons detail details ih =>
      rw [List.foldl_cons, ih]
      cases detail with
      | id value => simp [note, id?, List.getLast?_cons]
      | text key value => cases key <;> simp [note, id?]
      | package value => simp [note, id?]
      | name value => simp [note, id?]
      | item key value => simp [note, id?]

theorem hasSummary_foldl_note (details : List Detail) (findings : Completion.Findings) :
    (details.foldl note findings).hasSummary =
      ((details.filterMap (text? .summary)).getLast?.isSome || findings.hasSummary) := by
  induction details generalizing findings with
  | nil => rfl
  | cons detail details ih =>
      rw [List.foldl_cons, ih]
      cases detail with
      | text key value => cases key <;> simp [note, text?, List.getLast?_cons]
      | id value => simp [note, text?]
      | package value => simp [note, text?]
      | name value => simp [note, text?]
      | item key value => simp [note, text?]

end Detail

namespace Markup.Fragment

/-- All that the children of an application say of its record. -/
def details (fragment : Fragment) : List Detail :=
  (fragment.members .application).flatMap Detail.ofChild

theorem filterMap_details {select : Detail → Option String} {f : Fragment → List String}
    {tag : String} {transition : Transition}
    (htransition : Element.application.transition? tag = some transition)
    (hselect : ∀ element content, (Detail.ofChild (element, content)).filterMap select =
      if element = transition.target then f content else []) (fragment : Fragment) :
    fragment.details.filterMap select = (fragment.contents tag).flatMap f := by
  rw [details, List.filterMap_flatMap, ← flatMap_members fragment htransition (by simp) f]
  congr 1
  funext child
  exact hselect child.1 child.2

/-- A kind of detail that only the children with one tag give, which is their value. -/
theorem filterMap_details_value {select : Detail → Option String} {tag : String}
    {transition : Transition}
    (htransition : Element.application.transition? tag = some transition)
    (hselect : ∀ element content, (Detail.ofChild (element, content)).filterMap select =
      if element = transition.target then [content.value] else []) (fragment : Fragment) :
    fragment.details.filterMap select = fragment.childValues tag := by
  rw [filterMap_details htransition hselect, childValues_eq, List.map_eq_flatMap]

theorem filterMap_details_none {select : Detail → Option String}
    (hselect : ∀ element content, (Detail.ofChild (element, content)).filterMap select = [])
    (fragment : Fragment) : fragment.details.filterMap select = [] := by
  rw [details, List.filterMap_flatMap, List.flatMap_eq_nil_iff]
  exact fun child _ => hselect child.1 child.2

theorem ids_details (fragment : Fragment) :
    fragment.details.filterMap Detail.id? = fragment.childValues "id" := by
  refine filterMap_details_value rfl (fun element content => ?_) fragment
  cases element <;> simp [Detail.ofChild, Detail.id?]

theorem packages_details (fragment : Fragment) :
    fragment.details.filterMap Detail.package? = fragment.childValues "pkgname" := by
  refine filterMap_details_value rfl (fun element content => ?_) fragment
  cases element <;> simp [Detail.ofChild, Detail.package?]

end Markup.Fragment

namespace Context

variable {context later next : Context} {record : RecordId} {details more : List Detail}
  {name : String} {transition : Transition}

/-- The details have been carried out, and besides only the description and the buffer have
changed. -/
def Says (context : Context) (record : RecordId) (details : List Detail) (later : Context) : Prop :=
  ∃ description content captures,
    later = { context with
      pool := details.foldl (Detail.write record) context.pool
      findings := details.foldl Detail.note context.findings
      description
      content
      captures }

namespace Says

theorem refl (context : Context) (record : RecordId) : context.Says record [] context :=
  ⟨_, _, _, rfl⟩

theorem trans (h : context.Says record details later) (hnext : later.Says record more next) :
    context.Says record (details ++ more) next := by
  obtain ⟨_, _, _, rfl⟩ := h
  obtain ⟨_, _, _, rfl⟩ := hnext
  rw [Says, List.foldl_append, List.foldl_append]
  exact ⟨_, _, _, rfl⟩

theorem buffer (h : context.Says record details later) (content : ContentBuffer)
    (captures : Bool) : context.Says record details { later with content, captures } := by
  obtain ⟨_, _, _, rfl⟩ := h
  exact ⟨_, _, _, rfl⟩

theorem record_eq (h : context.Says record details later) : later.record = context.record := by
  obtain ⟨_, _, _, rfl⟩ := h
  rfl

end Says

/-- A child whose text counts says what its text is. -/
theorem At.says_leaf (h : context.At .application)
    (htransition : Element.application.transition? name = some transition)
    (hcaptures : transition.captures) (hrecord : context.record = some record)
    (settings : IngestSettings) (attributes : Attributes) (children : Fragment) :
    context.Says record (Detail.ofChild (transition.target, children))
      (context.visit settings transition attributes children) := by
  have hall : ∀ transition ∈ vocabulary, transition.source = .application →
      transition.captures → transition.target = .id ∨ transition.target = .pkgname ∨
        transition.target = .name ∨ transition.target = .summary ∨ transition.target = .url ∨
          transition.target = .licence ∨ transition.target = .group ∨
            transition.target = .extensions := by decide
  rw [h.visit_leaf htransition hcaptures hrecord]
  rcases hall _ (Element.mem_of_transition? htransition)
    (Element.source_of_transition? htransition) hcaptures with
      htarget | htarget | htarget | htarget | htarget | htarget | htarget | htarget <;>
    rw [htarget] <;> exact ⟨_, _, _, rfl⟩

/-- The keywords in an element are said one by one. -/
theorem At.run_keywords (h : context.At .keywords) (hrecord : context.record = some record)
    (settings : IngestSettings) (fragment : Fragment) :
    context.Says record (Detail.ofChild (.keywords, fragment))
      (context.run settings fragment.events) := by
  let read (details : List Detail) (content : Fragment) : List Detail :=
    details ++ [.item .keywords content.value]
  let select (child : String × Fragment) : Option Fragment :=
    if child.1 = "keyword" then some child.2 else none
  have hunknown (name : String) (children : Fragment)
      (h : Element.keywords.transition? name = none) : select (name, children) = none := by
    refine if_neg ?_
    rintro rfl
    contradiction
  have hfold : (fragment.contents "keyword").foldl read [] =
      Detail.ofChild (.keywords, fragment) := by
    rw [Detail.ofChild, List.map_eq_flatMap, List.flatMap_eq_foldl]
  rw [← hfold]
  refine h.run_children settings (context.Says record) read select hunknown
    (fun _ _ content captures h => h.buffer content captures) ?_ (.refl context record) fragment
  intro details later name transition attributes children hat htransition hlater
  have hall : ∀ transition ∈ vocabulary, transition.source = .keywords →
      transition = ⟨.keywords, "keyword", .keyword, true⟩ := by decide
  obtain rfl := hall _ (Element.mem_of_transition? htransition)
    (Element.source_of_transition? htransition)
  obtain rfl := Element.tag_of_transition? htransition
  refine ⟨children, rfl, hlater.trans ?_⟩
  rw [hat.visit_leaf htransition rfl (hlater.record_eq.trans hrecord)]
  exact ⟨_, _, _, rfl⟩

theorem At.says_keywords (h : context.At .application)
    (htransition : Element.application.transition? name = some transition)
    (htarget : transition.target = .keywords) (hrecord : context.record = some record)
    (settings : IngestSettings) (attributes : Attributes) (children : Fragment) :
    context.Says record (Detail.ofChild (transition.target, children))
      (context.visit settings transition attributes children) := by
  obtain ⟨description, henter⟩ :=
    (context.inside transition none).enter_of_ne attributes (by simp [inside, htarget])
  have hopen : ((context.inside transition none).enter attributes).record = some record := by
    rw [henter]
    exact hrecord
  have hat := context.at_inside transition attributes
  rw [htarget] at hat
  obtain ⟨description, content, captures, hinner⟩ := hat.run_keywords hopen settings children
  have hread : ((context.inside transition none).enter attributes).run settings children.events =
      { context.inside transition none with
        pool := (Detail.ofChild (.keywords, children)).foldl (Detail.write record) context.pool
        findings := (Detail.ofChild (.keywords, children)).foldl Detail.note context.findings
        description
        content
        captures } := by
    rw [hinner, henter]
    rfl
  rw [h.visit_eq htransition hrecord hread, htarget]
  exact ⟨_, _, _, rfl⟩

theorem At.says_description (h : context.At .application)
    (htransition : Element.application.transition? name = some transition)
    (htarget : transition.target = .description) (hrecord : context.record = some record)
    (settings : IngestSettings) (attributes : Attributes) (children : Fragment) :
    context.Says record (Detail.ofChild (transition.target, children))
      (context.visit settings transition attributes children) := by
  obtain ⟨description, content, captures, hvisit⟩ :=
    h.visit_description htransition htarget hrecord settings attributes children
  rw [hvisit, htarget, Detail.ofChild]
  cases children.rendering? with
  | none => exact ⟨_, _, _, rfl⟩
  | some text => exact ⟨_, _, _, rfl⟩

theorem At.says_child (h : context.At .application)
    (htransition : Element.application.transition? name = some transition)
    (hrecord : context.record = some record) (settings : IngestSettings)
    (attributes : Attributes) (children : Fragment) :
    context.Says record (Detail.ofChild (transition.target, children))
      (context.visit settings transition attributes children) := by
  have hall : ∀ transition ∈ vocabulary, transition.source = .application →
      transition.captures ∨ transition.target = .keywords ∨
        transition.target = .description := by decide
  rcases hall _ (Element.mem_of_transition? htransition)
    (Element.source_of_transition? htransition) with hcaptures | htarget | htarget
  · exact h.says_leaf htransition hcaptures hrecord settings attributes children
  · exact h.says_keywords htransition htarget hrecord settings attributes children
  · exact h.says_description htransition htarget hrecord settings attributes children

/-- The content of an application says what its children say, in their order. -/
theorem At.says_content (h : context.At .application) (hrecord : context.record = some record)
    (settings : IngestSettings) (fragment : Fragment) :
    context.Says record fragment.details (context.run settings fragment.events) := by
  let read (details : List Detail) (child : Element × Fragment) : List Detail :=
    details ++ Detail.ofChild child
  have hfold : (fragment.members .application).foldl read [] = fragment.details := by
    rw [Fragment.details, List.flatMap_eq_foldl]
  rw [← hfold]
  refine h.run_children settings (context.Says record) read _ ?_
    (fun _ _ content captures h => h.buffer content captures) ?_ (.refl context record) fragment
  · intro name children hunknown
    simp [hunknown]
  · intro details later name transition attributes children hat htransition hlater
    exact ⟨_, by simp [htransition], hlater.trans
      (hat.says_child htransition (hlater.record_eq.trans hrecord) settings attributes children)⟩

end Context

end Metainfo
