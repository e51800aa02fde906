import Metainfo.Proofs.Ingest.Fallback
import Metainfo.Proofs.Ingest.Sequence

/-!
Owners whose names have numbers that the pool has not given out. Such a number stands for the text
that the pool learns next: the name that a document gives its application, be it broken off later,
or the name of the very record that asks for its owner.
-/

namespace Metainfo

open Metainfo.Markup
open Metainfo.Naming

/-- A text that is not among the predefined ones gets the first number behind them. -/
theorem Interner.intern_initial {text : String} (h : text ∉ predefined) :
    (initial.intern text).1 = ⟨4⟩ := by
  simp only [predefined, List.mem_cons, List.not_mem_nil, or_false, not_or] at h
  obtain ⟨hempty, hnoarch, hsrc, hnosrc⟩ := h
  simp [initial, internAll, predefined, intern, find?, size, Ne.symm hempty, Ne.symm hnoarch,
    Ne.symm hsrc, Ne.symm hnosrc]

theorem Interner.resolve?_initial : initial.resolve? ⟨4⟩ = none := by
  simp [initial, internAll, predefined, intern, find?, size, resolve?]

variable {application : Application} {source : Source} {name : String} {owner : RecordId}

theorem Application.stands_document (application : Application) :
    application.Stands 0 [] [] [] application.document.events where
  split := by simp [Application.document, Fragment.events]
  closed := rfl
  containers := by simp

theorem Application.recorded_document (h : application.tag.isApplication = true) :
    application.document.recorded = [application] := by
  rw [StartTag.isApplication_eq, Bool.and_eq_true] at h
  rw [Fragment.recorded, Application.applications_document h.1]
  exact List.filter_eq_self.mpr fun found hfound => List.mem_singleton.mp hfound ▸ h.2

/-- A document that breaks off in its application leaves the name of the application behind. -/
theorem strings_ingest_broken (settings : IngestSettings) (pool : Pool)
    (hevents : (Markup.read source).events =
      .start application.tag.name application.tag.attributes :: application.content.events)
    (hfailure : (Markup.read source).failure.isSome)
    (happlication : application.tag.isApplication = true)
    (hdetails : application.content.details = [.name name])
    (hdefer : settings.flags.deferWrites) :
    (ingest settings pool source).pool.strings = (pool.strings.intern name).2 := by
  obtain ⟨hopens, -⟩ := application.stands_document.opensRecord happlication
    ⟨_, List.prefix_refl _⟩ settings pool
  obtain ⟨transition, -, hstart, hat⟩ :=
    (Context.follows_initial pool).start_of_opensRecord hopens
  obtain ⟨description, content, captures, hinner⟩ :=
    hat.says_content (by rw [hstart]) settings application.content
  let opened := pool.addRecord.2.setText pool.addRecord.1 .category
    (Context.categoryOf application.tag.attributes)
  have hpool : ((Context.initial pool).run settings (Markup.read source).events).pool =
      Completion.setNameText opened pool.addRecord.1 name := by
    rw [hevents, Context.run_cons, Context.step, hinner, hdetails, hstart]
    rfl
  have hopened : opened.strings = pool.strings := Pool.strings_stage ..
  rw [ingest, ingestReading]
  dsimp only
  rw [if_pos hdefer, if_pos hfailure, Context.strings_abort, hpool, Completion.setNameText,
    ← hopened]
  exact Pool.strings_update ..

section

variable {settings : IngestSettings} {pool : Pool}
  (hread : Markup.read source = ⟨application.document.events, none⟩)
  (hpool : pool.WellFormed) (happlication : application.tag.isApplication = true)
  (hpackages : application.packages = []) (howners : settings.owners = [owner])
  (hlive : pool.isLive owner = true)

include hread hpool happlication hpackages howners hlive

/-- The record of a document requires its one owner by the name that this has. -/
theorem exists_depicts_owner {number : StringId} (hnumber : pool.name? owner = some number)
    (hname : pool.resolve? number = some name) :
    ∃ plain : PlainRecord, plain.requires = [⟨name, none⟩] ∧
      (ingest settings pool source).pool.Depicts pool.addRecord.1 plain := by
  have hknown : settings.OwnersLive pool := by
    intro found hfound
    obtain rfl := List.mem_singleton.mp (howners ▸ hfound)
    refine ⟨hlive, fun other hother => ⟨name, ?_⟩⟩
    rw [hnumber] at hother
    exact Option.some.inj hother ▸ hname
  have hnames : settings.ownerNames pool [] = [name] := by
    have hfound := hknown.ownerName?_eq (howners ▸ List.mem_singleton_self owner) []
    rw [hnumber, Option.bind_some, hname] at hfound
    rw [IngestSettings.ownerNames, howners, List.filterMap_cons, hfound, List.filterMap_nil]
  have hplace : (application.document.recorded.take
      (StartTag.closedRecords [] (Markup.read source).events))[0]? = some application := by
    rw [hread, StartTag.closedRecords_fragment rfl, List.take_length,
      Application.recorded_document happlication]
    rfl
  have hdepicts := ingest_portraits settings hpool hknown (by rw [hread]) hplace
  rw [hnames] at hdepicts
  exact ⟨_, Application.requires_portrait_single settings hpackages name, hdepicts⟩

/-- A record of which only an id is said requires itself if its one owner has as a name the number
that the pool gives out next. -/
theorem exists_depicts_next {id : String} (hdetails : application.content.details = [.id id])
    (hname : (((Completion.companion? settings (some id)).bind DesktopEntry.name).map
      applicationName).or (some (nameFromId id)) = some name)
    (hnumber : pool.name? owner = some (pool.strings.intern name).1) :
    ∃ plain : PlainRecord, plain.requires = [⟨name, none⟩] ∧
      (ingest settings pool source).pool.Depicts pool.addRecord.1 plain := by
  have hstands := application.stands_document
  have hscript : IsScript application.document.events := ⟨_, List.prefix_refl _⟩
  have hdepicts := hstands.depicts happlication hscript settings hpool none
  have hnames := hstands.ownerNames_next happlication hscript hpool hdetails hname
    (Or.inr ⟨hlive, hnumber⟩)
  have hportrait := Application.requires_portrait_single settings hpackages name
  rw [← hnames, ← howners] at hportrait
  rw [ingest, hread]
  exact ⟨_, hportrait, hdepicts⟩

end

end Metainfo
