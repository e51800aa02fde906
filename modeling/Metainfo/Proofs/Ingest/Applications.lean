import Metainfo.Proofs.Ingest.Numbering

/-!
The applications of a document as a tree has them. Each that makes a record is found at a place in
the events; before this place as many are closed as stand before it in the tree.
-/

namespace Metainfo

open Metainfo.Markup

namespace StartTag

/-- The tag of an application, whether it is for all languages or not. -/
def namesApplication (tag : StartTag) : Bool :=
  tag.name = "application" || tag.name = "component"

theorem isApplication_eq (tag : StartTag) :
    tag.isApplication = (tag.namesApplication && !tag.isLocalized) :=
  rfl

theorem namesApplication_eq_false_of_isContainer {tag : StartTag} (h : tag.isContainer = true) :
    tag.namesApplication = false := by
  have hname : tag.name = "applications" ∨ tag.name = "components" := by
    simpa using (Bool.and_eq_true_iff.mp h).1
  rcases hname with hname | hname <;> simp [namesApplication, hname]

theorem isApplication_eq_false_of_isContainer {tag : StartTag} (h : tag.isContainer = true) :
    tag.isApplication = false := by
  rw [isApplication_eq, namesApplication_eq_false_of_isContainer h, Bool.false_and]

end StartTag

/-- An application with all that is in it. -/
structure Application where
  tag : StartTag
  content : Fragment
  deriving DecidableEq, Repr

namespace Application

/-- The application as a document of its own. -/
def document (application : Application) : Fragment :=
  .element application.tag.name application.tag.attributes application.content .empty

end Application

namespace Markup.Fragment

/-- The applications of a document that stand in containers for all languages only. -/
def applications : Fragment → List Application
  | .empty => []
  | .text _ rest => rest.applications
  | .element name attributes children rest =>
      let tag : StartTag := ⟨name, attributes⟩
      if tag.isContainer then children.applications ++ rest.applications
      else if tag.namesApplication then ⟨tag, children⟩ :: rest.applications
      else rest.applications

/-- Those of them that are for all languages themselves. -/
def recorded (fragment : Fragment) : List Application :=
  fragment.applications.filter fun application => !application.tag.isLocalized

theorem recorded_empty : empty.recorded = [] :=
  rfl

theorem recorded_element (name : String) (attributes : Attributes) (children rest : Fragment) :
    (Fragment.element name attributes children rest).recorded =
      (if StartTag.isContainer ⟨name, attributes⟩ then children.recorded
        else if StartTag.isApplication ⟨name, attributes⟩ then [⟨⟨name, attributes⟩, children⟩]
        else []) ++ rest.recorded := by
  rw [recorded, applications, StartTag.isApplication_eq]
  split
  · rw [List.filter_append]
    rfl
  · cases StartTag.namesApplication ⟨name, attributes⟩ with
    | false => rfl
    | true =>
        rw [if_pos rfl, List.filter_cons, Bool.true_and]
        split <;> rfl

theorem isApplication_of_mem_recorded {fragment : Fragment} {application : Application}
    (h : application ∈ fragment.recorded) : application.tag.isApplication = true := by
  induction fragment with
  | empty => contradiction
  | text content rest ih => exact ih h
  | element name attributes children rest ihChildren ihRest =>
      rw [recorded_element, List.mem_append] at h
      rcases h with hfirst | hrest
      · split at hfirst
        · exact ihChildren hfirst
        split at hfirst
        · rename_i happlication
          rw [List.mem_singleton.mp hfirst]
          exact happlication
        · contradiction
      · exact ihRest hrest

end Markup.Fragment

namespace StartTag

variable {tags : List StartTag} {tag : StartTag}

theorem closedRecords_append (tags : List StartTag) (first second : List Event) :
    closedRecords tags (first ++ second) =
      closedRecords tags first + closedRecords (first.foldl follow tags) second := by
  induction first generalizing tags with
  | nil => exact (Nat.zero_add _).symm
  | cons event first ih =>
      rw [List.cons_append, closedRecords, closedRecords, ih, List.foldl_cons, Nat.add_assoc]

theorem foldl_follow_fragment (tags : List StartTag) (fragment : Fragment) :
    fragment.events.foldl follow tags = tags := by
  induction fragment generalizing tags with
  | empty => rfl
  | text content rest ih => exact ih tags
  | element name attributes children rest ihChildren ihRest =>
      rw [Fragment.events, List.cons_append, List.foldl_cons, List.foldl_append, ihChildren,
        List.foldl_cons]
      exact ihRest tags

theorem closedRecords_element (tags : List StartTag) (name : String) (attributes : Attributes)
    (children rest : Fragment) :
    closedRecords tags (Fragment.element name attributes children rest).events =
      closedRecords (⟨name, attributes⟩ :: tags) children.events +
        ((makesRecord (⟨name, attributes⟩ :: tags)).toNat + closedRecords tags rest.events) := by
  rw [Fragment.events, List.cons_append, closedRecords, follow, closedRecords_append,
    foldl_follow_fragment, closedRecords]
  exact Nat.zero_add _

/-- In anything but containers for all languages there are no records. -/
theorem closedRecords_eq_zero (h : tags.all isContainer = false) (fragment : Fragment) :
    closedRecords tags fragment.events = 0 := by
  induction fragment generalizing tags with
  | empty => rfl
  | text content rest ih =>
      rw [Fragment.events, closedRecords, follow, ih h]
      rfl
  | element name attributes children rest ihChildren ihRest =>
      have hinside : (⟨name, attributes⟩ :: tags : List StartTag).all isContainer = false := by
        rw [List.all_cons, h, Bool.and_false]
      have hmakes : makesRecord (⟨name, attributes⟩ :: tags) = false := by
        rw [makesRecord, h, Bool.and_false]
      rw [closedRecords_element, ihChildren hinside, ihRest h, hmakes]
      rfl

/-- An application that makes a record contains none that does. -/
theorem closedRecords_inside (h : tag.isApplication = true) (tags : List StartTag)
    (fragment : Fragment) : closedRecords (tag :: tags) fragment.events = 0 := by
  refine closedRecords_eq_zero ?_ fragment
  rw [List.all_cons]
  cases hcontainer : tag.isContainer with
  | false => rfl
  | true =>
      rw [isApplication_eq_false_of_isContainer hcontainer] at h
      contradiction

theorem makesRecord_cons (h : tags.all isContainer = true) (tag : StartTag) :
    makesRecord (tag :: tags) = tag.isApplication := by
  rw [makesRecord, h, Bool.and_true]

/-- The tree tells how many records a document makes. -/
theorem closedRecords_fragment (h : tags.all isContainer = true) (fragment : Fragment) :
    closedRecords tags fragment.events = fragment.recorded.length := by
  induction fragment generalizing tags with
  | empty => rfl
  | text content rest ih =>
      rw [Fragment.events, closedRecords, follow, ih h]
      exact Nat.zero_add _
  | element name attributes children rest ihChildren ihRest =>
      have hinside : closedRecords (⟨name, attributes⟩ :: tags) children.events +
          (makesRecord (⟨name, attributes⟩ :: tags)).toNat =
            (if isContainer ⟨name, attributes⟩ then children.recorded
              else if isApplication ⟨name, attributes⟩ then [⟨⟨name, attributes⟩, children⟩]
              else []).length := by
        rw [makesRecord_cons h]
        cases hcontainer : isContainer ⟨name, attributes⟩ with
        | true =>
            have hall : (⟨name, attributes⟩ :: tags : List StartTag).all isContainer = true := by
              rw [List.all_cons, hcontainer, h]
              rfl
            rw [ihChildren hall, isApplication_eq_false_of_isContainer hcontainer]
            rfl
        | false =>
            have hall : (⟨name, attributes⟩ :: tags : List StartTag).all isContainer = false := by
              rw [List.all_cons, hcontainer, Bool.false_and]
            rw [closedRecords_eq_zero hall]
            cases isApplication ⟨name, attributes⟩ <;> rfl
      rw [closedRecords_element, ← Nat.add_assoc, hinside, ihRest h, Fragment.recorded_element,
        List.length_append]

end StartTag

/-- An application stands between two parts of the events, in containers for all languages only;
before it as many are closed that make records. -/
structure Application.Stands (application : Application) (index : Nat) (tags : List StartTag)
    (before rest events : List Event) : Prop where
  split : events = before ++ (application.document.events ++ rest)
  closed : StartTag.closedRecords tags before = index
  containers : (before.foldl StartTag.follow tags).all StartTag.isContainer = true

namespace Application.Stands

variable {application : Application} {index : Nat} {tags : List StartTag}
  {before rest events : List Event} {name : String} {attributes : Attributes}
  {children later : Fragment}

theorem inside
    (h : application.Stands index (⟨name, attributes⟩ :: tags) before rest children.events) :
    application.Stands index tags (.start name attributes :: before)
      (rest ++ .stop name :: later.events)
      (Fragment.element name attributes children later).events where
  split := by simp [Fragment.events, h.split]
  closed := by
    rw [StartTag.closedRecords, StartTag.follow, h.closed]
    exact Nat.zero_add _
  containers := h.containers

theorem behind (h : application.Stands index tags before rest later.events) :
    application.Stands
      (StartTag.closedRecords tags (Fragment.element name attributes children .empty).events +
        index)
      tags ((Fragment.element name attributes children .empty).events ++ before) rest
      (Fragment.element name attributes children later).events where
  split := by simp [Fragment.events, h.split]
  closed := by
    rw [StartTag.closedRecords_append, StartTag.foldl_follow_fragment, h.closed]
  containers := by
    rw [List.foldl_append, StartTag.foldl_follow_fragment]
    exact h.containers

end Application.Stands

namespace StartTag

variable {tags : List StartTag} {fragment : Fragment} {index : Nat} {application : Application}

/-- Each application that makes a record has its place in the events. -/
theorem exists_stands (h : tags.all isContainer = true)
    (happlication : fragment.recorded[index]? = some application) :
    ∃ before rest, application.Stands index tags before rest fragment.events := by
  induction fragment generalizing tags index with
  | empty => contradiction
  | text content rest ih =>
      obtain ⟨before, later, hsplit, hclosed, hcontainers⟩ := ih h happlication
      refine ⟨.text content :: before, later, ?_, ?_, hcontainers⟩
      · rw [Fragment.events, hsplit, List.cons_append]
      · rw [closedRecords, follow, hclosed]
        exact Nat.zero_add _
  | element name attributes children rest ihChildren ihRest =>
      have hcount := closedRecords_fragment h (.element name attributes children .empty)
      rw [Fragment.recorded_element, Fragment.recorded_empty, List.append_nil] at hcount
      rw [Fragment.recorded_element] at happlication
      generalize hfirst : (if isContainer ⟨name, attributes⟩ then children.recorded
        else if isApplication ⟨name, attributes⟩ then [⟨⟨name, attributes⟩, children⟩]
        else []) = first at happlication hcount
      rw [List.getElem?_append] at happlication
      split at happlication
      · subst hfirst
        split at happlication
        · rename_i hcontainer
          have hall : (⟨name, attributes⟩ :: tags : List StartTag).all isContainer = true := by
            rw [List.all_cons, hcontainer, h]
            rfl
          obtain ⟨before, later, hstands⟩ := ihChildren hall happlication
          exact ⟨_, _, hstands.inside⟩
        · split at happlication
          · obtain ⟨hindex, rfl⟩ := List.getElem?_eq_some_iff.mp happlication
            obtain rfl : index = 0 := Nat.lt_one_iff.mp hindex
            exact ⟨[], rest.events, by simp [Application.document, Fragment.events], rfl, h⟩
          · contradiction
      · rename_i hbehind
        obtain ⟨before, later, hstands⟩ := ihRest h happlication
        have hlater : application.Stands _ tags
            ((Fragment.element name attributes children .empty).events ++ before) later
            (Fragment.element name attributes children rest).events := hstands.behind
        rw [hcount, Nat.add_sub_cancel' (Nat.le_of_not_lt hbehind)] at hlater
        exact ⟨_, _, hlater⟩

theorem closedRecords_le {events later : List Event} (h : events <+: later) :
    closedRecords tags events ≤ closedRecords tags later := by
  obtain ⟨more, rfl⟩ := h
  rw [closedRecords_append]
  exact Nat.le_add_right _ _

end StartTag

namespace Application.Stands

variable {application : Application} {index : Nat} {tags : List StartTag}
  {before rest events : List Event}

/-- Until the application closes, its record is not counted. -/
theorem closedRecords_open (h : application.Stands index tags before rest events)
    (happlication : application.tag.isApplication = true) :
    StartTag.closedRecords tags
      (before ++ .start application.tag.name application.tag.attributes ::
        application.content.events) = index := by
  rw [StartTag.closedRecords_append, h.closed, StartTag.closedRecords, StartTag.follow,
    StartTag.closedRecords_inside happlication]
  rfl

theorem closedRecords_closed (h : application.Stands index tags before rest events)
    (happlication : application.tag.isApplication = true) :
    StartTag.closedRecords tags (before ++ application.document.events) = index + 1 := by
  rw [StartTag.closedRecords_append, h.closed, Application.document,
    StartTag.closedRecords_element, StartTag.makesRecord_cons h.containers, happlication,
    StartTag.closedRecords_inside happlication]
  rfl

theorem document_events (application : Application) :
    application.document.events =
      .start application.tag.name application.tag.attributes :: application.content.events ++
        [.stop application.tag.name] :=
  rfl

/-- Of a document that is cut off, the applications are left that close before. -/
theorem of_prefix {later : List Event} (h : application.Stands index tags before rest later)
    (happlication : application.tag.isApplication = true) (hevents : events <+: later)
    (hindex : index < StartTag.closedRecords tags events) :
    ∃ left, application.Stands index tags before left events := by
  have hwhole : before ++ application.document.events <+: later := by
    rw [h.split, ← List.append_assoc]
    exact List.prefix_append _ _
  rcases List.prefix_or_prefix_of_prefix hwhole hevents with hinside | hcut
  · obtain ⟨left, rfl⟩ := hinside
    exact ⟨left, List.append_assoc _ _ _, h.closed, h.containers⟩
  · rw [document_events, ← List.append_assoc, List.prefix_concat_iff] at hcut
    rcases hcut with rfl | hopen
    · exact ⟨[], by simp [document_events], h.closed, h.containers⟩
    · have hle : StartTag.closedRecords tags events ≤ _ := StartTag.closedRecords_le hopen
      rw [h.closedRecords_open happlication] at hle
      omega

end Application.Stands

/-- The applications that make the records of a document which may be cut off. -/
theorem exists_stands_of_prefix {document : Fragment} {events : List Event} {index : Nat}
    {application : Application} (hevents : events <+: document.events)
    (happlication :
      (document.recorded.take (StartTag.closedRecords [] events))[index]? = some application) :
    application.tag.isApplication = true ∧
      ∃ before rest, application.Stands index [] before rest events := by
  rw [List.getElem?_take] at happlication
  split at happlication
  · rename_i hindex
    have hmem := Fragment.isApplication_of_mem_recorded (List.mem_of_getElem? happlication)
    have hnone : ([] : List StartTag).all StartTag.isContainer = true := rfl
    obtain ⟨before, rest, hstands⟩ := StartTag.exists_stands hnone happlication
    exact ⟨hmem, before, hstands.of_prefix hmem hevents hindex⟩
  · contradiction

theorem length_take_recorded {document : Fragment} {events : List Event}
    (hevents : events <+: document.events) :
    (document.recorded.take (StartTag.closedRecords [] events)).length =
      StartTag.closedRecords [] events := by
  have hle : StartTag.closedRecords [] events ≤ _ := StartTag.closedRecords_le hevents
  rw [StartTag.closedRecords_fragment rfl] at hle
  rw [List.length_take, Nat.min_eq_left hle]

/-- Where a record closes, the application has just been read that makes it. -/
theorem exists_stands_of_closes {document : Fragment} {events : List Event} {event : Event}
    (hevents : events ++ [event] <+: document.events)
    (hcloses : StartTag.closesRecord (events.foldl StartTag.follow []) event = true) :
    ∃ application before,
      document.recorded[StartTag.closedRecords [] events]? = some application ∧
        application.tag.isApplication = true ∧
          application.Stands (StartTag.closedRecords [] events) [] before []
            (events ++ [event]) := by
  have hcount : StartTag.closedRecords [] (events ++ [event]) =
      StartTag.closedRecords [] events + 1 := by
    rw [StartTag.closedRecords_append, StartTag.closedRecords, hcloses]
    rfl
  have hindex : StartTag.closedRecords [] events <
      (document.recorded.take (StartTag.closedRecords [] (events ++ [event]))).length := by
    rw [length_take_recorded hevents, hcount]
    exact Nat.lt_succ_self _
  let closed := document.recorded.take (StartTag.closedRecords [] (events ++ [event]))
  obtain ⟨application, happlication⟩ :
      ∃ application, closed[StartTag.closedRecords [] events]? = some application :=
    ⟨_, List.getElem?_eq_getElem hindex⟩
  obtain ⟨hmem, before, rest, hstands⟩ := exists_stands_of_prefix hevents happlication
  rw [List.getElem?_take_of_lt (by omega)] at happlication
  refine ⟨application, before, happlication, hmem, ?_⟩
  rcases List.eq_nil_or_concat rest with rfl | ⟨inner, last, rfl⟩
  · exact hstands
  · -- Else the application would have been counted before the last event.
    have hsplit := hstands.split
    rw [List.concat_eq_append, ← List.append_assoc, ← List.append_assoc] at hsplit
    have hearlier := (List.append_inj' hsplit rfl).1
    have hle : StartTag.closedRecords [] _ ≤ StartTag.closedRecords [] events :=
      StartTag.closedRecords_le ⟨inner, hearlier.symm⟩
    rw [hstands.closedRecords_closed hmem] at hle
    omega

namespace Application.Stands

variable {application : Application} {index : Nat} {before rest events : List Event}

/-- Where an application stands it opens a record, whose number is the place of the application. -/
theorem opensRecord (h : application.Stands index [] before rest events)
    (happlication : application.tag.isApplication = true) (hscript : IsScript events)
    (settings : IngestSettings) (pool : Pool) :
    let earlier := (Context.initial pool).run settings before
    earlier.OpensRecord application.tag.name application.tag.attributes ∧
      earlier.pool.addRecord.1 = ⟨pool.addRecord.1.index + index⟩ := by
  intro earlier
  have hbefore : IsScript before := by
    rw [h.split] at hscript
    exact hscript.of_append
  have hfollows : earlier.Follows (StartTag.frames (before.foldl StartTag.follow [])) := by
    rw [StartTag.frames_followAll]
    exact Context.follows_run settings pool hbefore
  have hmakes : StartTag.makesRecord
      (⟨application.tag.name, application.tag.attributes⟩ ::
        before.foldl StartTag.follow []) := by
    rw [StartTag.makesRecord_cons h.containers]
    exact happlication
  have hopens := hfollows.opensRecord_of_makesRecord hmakes
  have hsize := (Context.numbered_run settings pool hbefore).size
  rw [hopens.1, h.closed] at hsize
  refine ⟨hopens, ?_⟩
  rw [Pool.addRecord_fst, hsize]
  rfl

end Application.Stands

end Metainfo
