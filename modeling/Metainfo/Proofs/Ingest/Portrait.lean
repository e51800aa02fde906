import Metainfo.Proofs.Ingest.Applications
import Metainfo.Proofs.Ingest.RecordFields
import Metainfo.Proofs.Ingest.Relations

/-!
The portrait of an application: all that is to be seen of its record, told from the application
alone. Besides it only the settings matter and the names of the owners.
-/

namespace Metainfo

open Metainfo.Markup
open Metainfo.Naming

namespace Pool

/-- Look-ups in the pool show of a record what it is without numbers. -/
structure Depicts (pool : Pool) (record : RecordId) (plain : PlainRecord) : Prop where
  isLive : pool.isLive record = true
  name : (pool.name? record).map pool.resolve? = plain.name.map some
  arch : (pool.arch? record).map pool.resolve? = plain.arch.map some
  version : (pool.version? record).map pool.resolve? = plain.version.map some
  requires : (pool.requires record).map pool.spell? = plain.requires.map some
  provides : (pool.provides record).map pool.spell? = plain.provides.map some
  text : ∀ key, pool.lookupText record key = plain.text? key
  list : ∀ key, pool.lookupList record key = plain.list key

variable {pool later : Pool} {record : RecordId} {plain : PlainRecord}

theorem map_resolve?_of_extends (h : pool.strings.Extends later.strings) {field : Option StringId}
    {text : Option String} (hfield : field.map pool.resolve? = text.map some) :
    field.map later.resolve? = text.map some := by
  cases field with
  | none => exact hfield
  | some number =>
      cases text with
      | none => contradiction
      | some text => exact congrArg some (h number text (Option.some.inj hfield))

theorem resolveField_of_map {field : Option StringId} {text : Option String}
    (h : field.map pool.resolve? = text.map some) : pool.resolveField field = .ok text := by
  cases field with
  | none =>
      cases text with
      | none => rfl
      | some text => contradiction
  | some number =>
      cases text with
      | none => contradiction
      | some text =>
          have hnumber : pool.resolve? number = some text := Option.some.inj h
          rw [resolveField, hnumber]

theorem render_of_spell? {relation : Relation} {plain : PlainRelation}
    (h : pool.spell? relation = some plain) : pool.render relation = plain.render := by
  obtain ⟨name, version⟩ := relation
  cases version with
  | none =>
      obtain ⟨text, htext, rfl⟩ := Option.map_eq_some_iff.mp h
      rw [render, htext]
      rfl
  | some version =>
      obtain ⟨text, htext, hrest⟩ := Option.bind_eq_some_iff.mp h
      obtain ⟨number, hnumber, rfl⟩ := Option.map_eq_some_iff.mp hrest
      rw [render, htext]
      dsimp only
      rw [hnumber]
      rfl

theorem map_render_of_map_spell? {relations : List Relation} {plains : List PlainRelation}
    (h : relations.map pool.spell? = plains.map some) :
    relations.map pool.render = plains.map PlainRelation.render := by
  induction relations generalizing plains with
  | nil =>
      cases plains with
      | nil => rfl
      | cons plain plains => contradiction
  | cons relation relations ih =>
      cases plains with
      | nil => contradiction
      | cons plain plains =>
          obtain ⟨hfirst, hrest⟩ := List.cons.inj h
          rw [List.map_cons, List.map_cons, render_of_spell? hfirst, ih hrest]

namespace Depicts

theorem kept (h : pool.Depicts record plain) (hkept : Kept record pool later) :
    later.Depicts record plain := by
  have hspell {relations : List Relation} {plains : List PlainRelation}
      (hrelations : relations.map pool.spell? = plains.map some) :
      relations.map later.spell? = plains.map some := by
    rw [map_spell?_of_extends hkept.strings, hrelations]
    simp [hrelations]
  constructor
  · exact hkept.isLive.trans h.isLive
  · rw [hkept.name?]
    exact map_resolve?_of_extends hkept.strings h.name
  · rw [arch?, hkept.record?, ← arch?]
    exact map_resolve?_of_extends hkept.strings h.arch
  · rw [version?, hkept.record?, ← version?]
    exact map_resolve?_of_extends hkept.strings h.version
  · rw [Pool.requires, hkept.record?, ← Pool.requires]
    exact hspell h.requires
  · rw [Pool.provides, hkept.record?, ← Pool.provides]
    exact hspell h.provides
  · exact fun key => (hkept.lookupText key).trans (h.text key)
  · exact fun key => (hkept.lookupList key).trans (h.list key)

theorem view (h : pool.Depicts record plain) : pool.view record = .ok (plain.view record) := by
  obtain ⟨found, hfound⟩ := isLive_iff.mp h.isLive
  have hname := resolveField_of_map h.name
  have harch := resolveField_of_map h.arch
  have hversion := resolveField_of_map h.version
  rw [name?, hfound, Option.bind_some] at hname
  rw [arch?, hfound, Option.bind_some] at harch
  rw [version?, hfound, Option.bind_some] at hversion
  have hattributes : pool.viewAttributes record = plain.attributes := by
    rw [viewAttributes_eq pool record found]
    simp only [PlainRecord.attributes, PlainRecord.textAttribute, PlainRecord.listAttribute,
      plainRecord, h.text, h.list]
  rw [Pool.view, hfound]
  simp only [hname, harch, hversion, renderRequires, renderProvides,
    map_render_of_map_spell? h.requires, map_render_of_map_spell? h.provides, hattributes]
  rfl

end Depicts

end Pool

namespace Application

/-- The text of the last id for all languages. -/
def id? (application : Application) : Option String :=
  (application.content.childValues "id").getLast?

/-- The packages that the application names. -/
def packages (application : Application) : List String :=
  application.content.childValues "pkgname"

/-- What the application says of its record, with the gaps filled. -/
def fields (settings : IngestSettings) (application : Application) : Fields :=
  ((Fields.ofDetails
      (.text .category (Context.categoryOf application.tag.attributes) ::
        application.content.details)).fillFrom
    (Completion.companion? settings application.id?)).nameFrom application.id?

/-- The targets to which the record is tied, given the names of the owners. -/
def targets (settings : IngestSettings) (owners : List String) (application : Application) :
    List String :=
  Completion.targets application.packages owners
    (Completion.fileTarget settings.filename application.id?)

def portrait (settings : IngestSettings) (owners : List String) (application : Application) :
    PlainRecord where
  name := (application.fields settings).name
  arch := some "noarch"
  version := some ""
  requires := (application.targets settings owners).map fun target =>
    ⟨Completion.requirement application.packages owners target, none⟩
  provides :=
    ((application.targets settings owners).map fun target =>
        ⟨"application-appdata(" ++ target ++ ")", none⟩) ++
      (application.fields settings).name.toList.map fun name => ⟨name, some ""⟩
  text? := (application.fields settings).text
  list := (application.fields settings).list

end Application

namespace Completion

variable {pool : Pool} {record : RecordId}

theorem defaults_provideSelf (pool : Pool) (record : RecordId) :
    (provideSelf pool record).arch? record = pool.arch? record ∧
      (provideSelf pool record).version? record = pool.version? record := by
  have hadd (relation : Relation) :
      (pool.addProvides record relation).arch? record = pool.arch? record ∧
        (pool.addProvides record relation).version? record = pool.version? record := by
    rw [Pool.arch?, Pool.arch?, Pool.version?, Pool.version?, Pool.addProvides,
      Pool.record?_update, if_pos rfl]
    cases pool.record? record <;> exact ⟨rfl, rfl⟩
  rw [provideSelf]
  split
  · split
    · exact ⟨rfl, rfl⟩
    · exact hadd _
  · exact ⟨rfl, rfl⟩

/-- A completed record runs anywhere and has no version. -/
theorem defaults_complete (settings : IngestSettings) (findings : Findings) {targets : List String}
    (h : pool.Linked record none none id targets) :
    (complete settings findings pool record).arch? record = some .noarch ∧
      (complete settings findings pool record).version? record = some .empty := by
  have howners := linked_linkOwners settings (linked_named settings findings h)
  obtain ⟨requirement, hlinked, -⟩ := linked_linkFile settings findings howners
  rw [complete_eq]
  obtain ⟨harch, hversion⟩ := defaults_provideSelf
    (linkFile settings findings
      (linkOwners settings (named settings findings pool record) record) record) record
  exact ⟨harch.trans hlinked.arch, hversion.trans hlinked.version⟩

end Completion

namespace Context

variable {context : Context} {frames : List Frame} {application : Application}

/-- When an application closes, its record is as the portrait of the application. -/
theorem Follows.depicts_stop (h : context.Follows frames) (hsound : context.Sound)
    (hopens : context.OpensRecord application.tag.name application.tag.attributes)
    (settings : IngestSettings) :
    let record := context.pool.addRecord.1
    let inner := (context.start application.tag.name application.tag.attributes).run settings
      application.content.events
    let owners := Completion.ownerNames
      (Completion.named settings inner.findings inner.pool record) settings.owners
    (inner.stop settings).pool.Depicts record (application.portrait settings owners) := by
  intro record inner owners
  have hcompleted := h.completed_element hsound hopens settings application.content
  have hshows : (inner.stop settings).pool.Shows record (application.fields settings) :=
    h.shows_stop hsound.pool hopens settings application.content
  have hname : ((inner.stop settings).pool.name? record).bind (inner.stop settings).pool.resolve? =
      (application.fields settings).name := hshows.resolved_name (.refl record _)
  have hprovides := hcompleted.provides
  rw [hname] at hprovides
  obtain ⟨hdrafts, hat⟩ := h.drafts_start hsound.pool hopens
  have hinner := hdrafts.run_children hat settings application.content
  obtain ⟨hpool, -⟩ := hinner.stop_application (hat.run settings application.content) settings
  obtain ⟨harch, hversion⟩ := Completion.defaults_complete settings inner.findings hinner.linked
  rw [← hpool] at harch hversion
  have hstrings := hshows.wellFormed.strings
  constructor
  · exact hshows.isLive
  · exact hshows.name
  · rw [harch]
    exact congrArg some (hstrings.resolve?_of_predefined rfl)
  · rw [hversion]
    exact congrArg some hstrings.resolve?_empty
  · rw [hcompleted.requires, Application.portrait, List.map_map]
    rfl
  · rw [hprovides, Application.portrait, List.map_append, List.map_map, List.map_map]
    rfl
  · exact hshows.text
  · exact hshows.list

end Context

namespace Application.Stands

variable {application : Application} {index : Nat} {before rest events : List Event}

theorem events_eq (h : application.Stands index [] before rest events) :
    events = before ++ .start application.tag.name application.tag.attributes ::
      (application.content.events ++ .stop application.tag.name :: rest) := by
  simp [h.split, document_events]

/-- When an application is about to close, its record is open. -/
theorem run_opened (h : application.Stands index [] before rest events)
    (happlication : application.tag.isApplication = true) (hscript : IsScript events)
    (settings : IngestSettings) (pool : Pool) :
    let opened := before ++
      .start application.tag.name application.tag.attributes :: application.content.events
    let inner := (Context.initial pool).run settings opened
    inner = (((Context.initial pool).run settings before).start application.tag.name
        application.tag.attributes).run settings application.content.events ∧
      IsScript opened ∧ inner.record = some ⟨pool.addRecord.1.index + index⟩ := by
  intro opened inner
  obtain ⟨hopens, hrecord⟩ := h.opensRecord happlication hscript settings pool
  have hinner : inner = (((Context.initial pool).run settings before).start application.tag.name
      application.tag.attributes).run settings application.content.events :=
    Context.run_append before _
  have hevents : events = opened ++ .stop application.tag.name :: rest := by
    simp [h.events_eq, opened]
  rw [hevents] at hscript
  have hfollows := Context.follows_run settings pool hscript.of_append.of_append
  obtain ⟨-, hopen, -⟩ :=
    hfollows.run_opened settings hopens ⟨application.content, List.prefix_refl _⟩
  rw [← hinner, hrecord] at hopen
  exact ⟨hinner, hscript.of_append, hopen⟩

/-- In the end the record of an application is as its portrait, with the names that the owners have
when it is completed. -/
theorem depicts (h : application.Stands index [] before rest events)
    (happlication : application.tag.isApplication = true) (hscript : IsScript events)
    (settings : IngestSettings) {pool : Pool} (hpool : pool.WellFormed)
    (failure : Option Failure) :
    let record : RecordId := ⟨pool.addRecord.1.index + index⟩
    let inner := (Context.initial pool).run settings (before ++
      .start application.tag.name application.tag.attributes :: application.content.events)
    let owners := Completion.ownerNames
      (Completion.named settings inner.findings inner.pool record) settings.owners
    (ingestReading settings pool ⟨events, failure⟩).pool.Depicts record
      (application.portrait settings owners) := by
  intro record inner owners
  obtain ⟨hopens, hrecord⟩ := h.opensRecord happlication hscript settings pool
  obtain ⟨hinner, -⟩ := h.run_opened happlication hscript settings pool
  rw [h.events_eq] at hscript
  have hfollows := Context.follows_run settings pool hscript.of_append
  have hsound := Context.sound_run settings hpool hscript.of_append
  have hdepicts := hfollows.depicts_stop hsound hopens settings
  obtain ⟨-, hkept⟩ := kept_element settings hpool failure hscript hopens
  have hfinal := hdepicts.kept hkept
  rw [hrecord, ← hinner, ← h.events_eq] at hfinal
  exact hfinal

end Application.Stands

end Metainfo
