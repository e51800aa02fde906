import Metainfo.Proofs.Ingest.Owners
import Metainfo.Proofs.Ingest.Queries

/-!
The fallback to desktop entries. What the entries say shows in names and summaries, and there only
where the document has a gap. What is asked for does not depend on it, nor does anything else,
unless a record has an owner that gets its own name from an entry.
-/

namespace Metainfo

open Metainfo.Markup
open Metainfo.Naming

namespace Pool

variable {pool : Pool} {record : RecordId} {plain : PlainRecord}

/-- Relations can be told apart by their texts as by their numbers. -/
theorem filter_spell? {relations : List Relation} {plains : List PlainRelation}
    (h : relations.map pool.spell? = plains.map some) {select : Relation → Bool}
    {selectPlain : PlainRelation → Bool}
    (hselect : ∀ relation plain, pool.spell? relation = some plain →
      select relation = selectPlain plain) :
    (relations.filter select).map pool.spell? = (plains.filter selectPlain).map some := by
  induction relations generalizing plains with
  | nil =>
      cases plains with
      | nil => rfl
      | cons plain plains => contradiction
  | cons relation relations ih =>
      cases plains with
      | nil => contradiction
      | cons plain plains =>
          obtain ⟨hfirst, hrest⟩ := List.cons.inj h
          rw [List.filter_cons, List.filter_cons, hselect relation plain hfirst]
          split
          · rw [List.map_cons, List.map_cons, hfirst, ih hrest]
          · exact ih hrest

theorem version_spell? {relation : Relation} {plain : PlainRelation}
    (h : pool.spell? relation = some plain) :
    relation.version.isSome = plain.version.isSome := by
  obtain ⟨name, version⟩ := relation
  cases version with
  | none =>
      obtain ⟨text, htext, rfl⟩ := Option.map_eq_some_iff.mp h
      rfl
  | some version =>
      obtain ⟨text, htext, hrest⟩ := Option.bind_eq_some_iff.mp h
      obtain ⟨number, hnumber, rfl⟩ := Option.map_eq_some_iff.mp hrest
      rfl

theorem Depicts.filter_provides (h : pool.Depicts record plain) (versioned : Bool) :
    ((pool.provides record).filter fun link => link.version.isSome == versioned).map pool.spell? =
      (plain.provides.filter fun link => link.version.isSome == versioned).map some := by
  refine filter_spell? h.provides fun relation plain hspelled => ?_
  rw [version_spell? hspelled]

end Pool

/-- The name of a record is the document's, else the entry's, else that of the id. -/
theorem Application.name_fields (settings : IngestSettings) (application : Application) :
    (application.fields settings).name =
      (((application.content.childValues "name").getLast?.or
        ((Completion.companion? settings application.id?).bind DesktopEntry.name)).or
          (application.id?.map idStem)).map fun name => "application:" ++ name :=
  application.content.name_details _ _ _

theorem Application.summary_fields (settings : IngestSettings) (application : Application) :
    (application.fields settings).text .summary =
      (application.content.childValues "summary").getLast?.or
        ((Completion.companion? settings application.id?).bind DesktopEntry.comment) := by
  obtain ⟨-, -, -, -, -, -, hsummary, -⟩ := application.content.ofDetails_details
  simp [fields, Fields.ofDetails_category, Fields.nameFrom, Fields.fillFrom, hsummary]

/-- A name that the document gives counts whatever the desktop entries say. -/
theorem Application.name_congr (first second : IngestSettings) {application : Application}
    (h : application.content.childValues "name" ≠ []) :
    (application.fields first).name = (application.fields second).name := by
  have hname := List.getLast?_eq_some_getLast h
  rw [name_fields, name_fields, hname]
  rfl

theorem Application.summary_congr (first second : IngestSettings) {application : Application}
    (h : application.content.childValues "summary" ≠ []) :
    (application.fields first).text .summary = (application.fields second).text .summary := by
  have hsummary := List.getLast?_eq_some_getLast h
  rw [summary_fields, summary_fields, hsummary]
  rfl

/-- Of the texts only the summary depends on the desktop entries. -/
theorem Application.text_congr (first second : IngestSettings) (application : Application)
    {key : TextKey} (hkey : key ≠ .summary) :
    (application.fields first).text key = (application.fields second).text key := by
  simp [fields, Fields.nameFrom, Fields.fillFrom, hkey]

/-- The owners that a document makes have the same names if the document gives them. -/
theorem IngestSettings.ownerNames_congr (settings : IngestSettings) {pool : Pool}
    {applications : List Application}
    (h : ∀ owner ∈ settings.owners, ∀ maker, pool.maker? applications owner = some maker →
      maker.content.childValues "name" ≠ []) (first second : Option DesktopResolver) :
    ({ settings with resolver := first } : IngestSettings).ownerNames pool applications =
      ({ settings with resolver := second } : IngestSettings).ownerNames pool applications := by
  apply List.filterMap_congr
  intro owner howner
  rw [ownerName?, ownerName?]
  cases hmaker : pool.maker? applications owner with
  | none => rfl
  | some maker => exact maker.name_congr _ _ (h owner howner maker hmaker)

namespace Application

variable (settings : IngestSettings) (owners : List String) (application : Application)

theorem versioned_portrait :
    ((application.portrait settings owners).provides.filter fun link =>
        link.version.isSome == true) =
      (application.fields settings).name.toList.map fun name => ⟨name, some ""⟩ := by
  simp [portrait, List.filter_append, List.filter_map, Function.comp_def]

theorem unversioned_portrait :
    ((application.portrait settings owners).provides.filter fun link =>
        link.version.isSome == false) =
      (application.targets settings owners).map fun target =>
        ⟨"application-appdata(" ++ target ++ ")", none⟩ := by
  simp [portrait, List.filter_append, List.filter_map, Function.comp_def]

/-- Where an application names packages the owners do not matter. -/
theorem portrait_of_packages {application : Application} (h : application.packages ≠ [])
    (first second : List String) :
    application.targets settings first = application.targets settings second ∧
      (application.portrait settings first).requires =
        (application.portrait settings second).requires := by
  have htargets (owners : List String) :
      application.targets settings owners = application.packages.eraseDups := if_pos h
  have hrequirement (owners : List String) (target : String) :
      Completion.requirement application.packages owners target = target :=
    if_neg fun hempty => h hempty.1
  simp [portrait, htargets, hrequirement]

end Application

namespace Pool.Depicts

variable {pool later : Pool} {record : RecordId} {application : Application}
  {settings other : IngestSettings} {owners others : List String}

/-- What the desktop entries may have a part in. -/
theorem named (h : pool.Depicts record (application.portrait settings owners)) :
    (pool.name? record).map pool.resolve? = (application.fields settings).name.map some ∧
      ((pool.provides record).filter fun link => link.version.isSome == true).map pool.spell? =
        (application.fields settings).name.toList.map (fun name => some ⟨name, some ""⟩) ∧
      pool.lookupText record .summary = (application.fields settings).text .summary := by
  refine ⟨h.name, (h.filter_provides true).trans ?_, h.text .summary⟩
  rw [Application.versioned_portrait, List.map_map]
  rfl

/-- The targets of a record are all that matters for its other relations. -/
theorem tied (h : pool.Depicts record (application.portrait settings owners))
    (hlater : later.Depicts record (application.portrait other others))
    (hsame : application.targets settings owners = application.targets other others ∧
      (application.portrait settings owners).requires =
        (application.portrait other others).requires) :
    (pool.requires record).map pool.spell? = (later.requires record).map later.spell? ∧
      ((pool.provides record).filter fun link => link.version.isSome == false).map pool.spell? =
        ((later.provides record).filter fun link =>
          link.version.isSome == false).map later.spell? := by
  obtain ⟨htargets, hrequires⟩ := hsame
  constructor
  · rw [h.requires, hrequires]
    exact hlater.requires.symm
  · rw [h.filter_provides, hlater.filter_provides, Application.unversioned_portrait,
      Application.unversioned_portrait, htargets]

end Pool.Depicts

/-- Whatever the desktop entries say, an ingest completes the same records, and it asks for the
entries of those that have an id but no name or no summary, in the order in which they are closed.
The name of a record is that of the document, else that of the entry, else that of the id; its
summary is that of the document, else the comment of the entry; so they can only differ where the
document does not give them. The other attributes are the same. So are the relations to targets, if
the record names packages, or else if the pool has given out the names that the owners have and no
owner is a record that the document makes without a name. -/
theorem ingestReading_fallback (settings : IngestSettings) (pool : Pool) (document : Fragment)
    (events : List Event) (failure : Option Failure) (hpool : pool.Reachable)
    (hevents : events <+: document.events) :
    let applications := document.recorded.take (StartTag.closedRecords [] events)
    let records := pool.nextRecords applications.length
    let asking (resolver : Option DesktopResolver) : IngestSettings := { settings with resolver }
    let ingested (resolver : Option DesktopResolver) :=
      ingestReading (asking resolver) pool ⟨events, failure⟩
    (∀ resolver,
        ((Context.initial pool).run (asking resolver) events).completed = records ∧
          (failure = none → (ingested resolver).result = .ok records) ∧
          (ingested resolver).queries =
            if settings.flags.checkDesktopFile && resolver.isSome then
              (applications.filterMap Application.wanted?).map fun id =>
                (id, settings.flags.useRoot)
            else []) ∧
      ∀ index application, applications[index]? = some application →
        let record : RecordId := ⟨pool.addRecord.1.index + index⟩
        let names := application.content.childValues "name"
        let summaries := application.content.childValues "summary"
        let companion (resolver : Option DesktopResolver) :=
          Completion.companion? (asking resolver) application.id?
        let name? (resolver : Option DesktopResolver) :=
          ((names.getLast?.or ((companion resolver).bind DesktopEntry.name)).or
            (application.id?.map idStem)).map fun name => "application:" ++ name
        let named (resolver : Option DesktopResolver) :=
          ((ingested resolver).pool.name? record).map (ingested resolver).pool.resolve?
        let summarized (resolver : Option DesktopResolver) :=
          (ingested resolver).pool.lookupText record .summary
        let requires (resolver : Option DesktopResolver) :=
          ((ingested resolver).pool.requires record).map (ingested resolver).pool.spell?
        let provides (resolver : Option DesktopResolver) (versioned : Bool) :=
          (((ingested resolver).pool.provides record).filter fun link =>
            link.version.isSome == versioned).map (ingested resolver).pool.spell?
        (∀ resolver,
            named resolver = (name? resolver).map some ∧
              provides resolver true =
                (name? resolver).toList.map (fun name => some ⟨name, some ""⟩) ∧
              summarized resolver =
                summaries.getLast?.or ((companion resolver).bind DesktopEntry.comment)) ∧
          ∀ first second,
            (names ≠ [] →
                named first = named second ∧ provides first true = provides second true) ∧
              (summaries ≠ [] → summarized first = summarized second) ∧
              (∀ key, key ≠ .summary → (ingested first).pool.lookupText record key =
                (ingested second).pool.lookupText record key) ∧
              (∀ key, (ingested first).pool.lookupList record key =
                (ingested second).pool.lookupList record key) ∧
              (application.packages ≠ [] ∨ (settings.OwnersKnown pool ∧
                  ∀ owner ∈ settings.owners, ∀ maker,
                    pool.maker? (applications.take (index + 1)) owner = some maker →
                      maker.content.childValues "name" ≠ []) →
                requires first = requires second ∧
                  provides first false = provides second false) := by
  intro applications records asking ingested
  have hlength : applications.length = StartTag.closedRecords [] events :=
    length_take_recorded hevents
  refine ⟨fun resolver => ?_, ?_⟩
  · have hcompleted :
        ((Context.initial pool).run (asking resolver) events).completed = records := by
      simp only [records]
      rw [hlength]
      exact (Context.numbered_run (asking resolver) pool ⟨document, hevents⟩).completed
    refine ⟨hcompleted, ?_, ?_⟩
    · rintro rfl
      exact congrArg Except.ok hcompleted
    · rw [queries_ingestReading, Context.queries_run _ hpool.wellFormed hevents,
        Application.filterMap_query?]
      rfl
  · intro index application happlication record names summaries companion name? named summarized
      requires provides
    have hdepicted (resolver : Option DesktopResolver) :=
      exists_depicts_of_prefix hevents happlication (asking resolver) hpool.wellFormed failure
    refine ⟨fun resolver => ?_, fun first second => ?_⟩
    · obtain ⟨owners, hdepicts, -⟩ := hdepicted resolver
      have hname : (application.fields (asking resolver)).name = name? resolver :=
        application.name_fields (asking resolver)
      rw [← hname, ← application.summary_fields (asking resolver)]
      exact hdepicts.named
    · obtain ⟨owners, hfirst, hknown⟩ := hdepicted first
      obtain ⟨others, hsecond, hothers⟩ := hdepicted second
      obtain ⟨hname, hself, hsummary⟩ := hfirst.named
      obtain ⟨hname', hself', hsummary'⟩ := hsecond.named
      refine ⟨fun h => ?_, fun h => ?_, fun key hkey => ?_, fun key => ?_,
        fun h => hfirst.tied hsecond ?_⟩
      · have hsame := Application.name_congr (asking first) (asking second) h
        exact ⟨hname.trans (hsame ▸ hname'.symm), hself.trans (hsame ▸ hself'.symm)⟩
      · exact (hsummary.trans (Application.summary_congr _ _ h)).trans hsummary'.symm
      · rw [hfirst.text, hsecond.text]
        exact application.text_congr _ _ hkey
      · rw [hfirst.list, hsecond.list]
        rfl
      · rcases h with hpackages | ⟨howners, hmakers⟩
        · exact Application.portrait_of_packages settings hpackages owners others
        · have htake : applications.take (index + 1) = document.recorded.take (index + 1) := by
            obtain ⟨hlt, -⟩ := List.getElem?_eq_some_iff.mp happlication
            rw [List.take_take, Nat.min_eq_left (hlength ▸ hlt)]
          rw [htake] at hmakers
          rw [hknown howners, hothers howners, settings.ownerNames_congr hmakers first second]
          exact ⟨rfl, rfl⟩

/-- An id and a summary that is empty: the entry gives the name only. -/
theorem ingestReading_fallback_name :
    let document : Fragment :=
      .element "component" .empty
        (.element "id" .empty (.text "foo.desktop" .empty)
          (.element "summary" .empty .empty .empty)) .empty
    let resolver : DesktopResolver := fun _ _ => some ⟨some "A", some "B"⟩
    let ingested (resolver : Option DesktopResolver) :=
      ingestReading ⟨⟨true, false, false, false⟩, none, [⟨0⟩], resolver⟩ Pool.empty.addRecord.2
        ⟨document.events, none⟩
    let named (resolver : Option DesktopResolver) :=
      ((ingested resolver).pool.name? ⟨1⟩).map (ingested resolver).pool.resolve?
    let requires (resolver : Option DesktopResolver) :=
      ((ingested resolver).pool.requires ⟨1⟩).map (ingested resolver).pool.spell?
    (ingested none).result = .ok [⟨1⟩] ∧ (ingested none).queries = [] ∧
      (ingested (some resolver)).result = .ok [⟨1⟩] ∧
      (ingested (some resolver)).queries = [("foo.desktop", false)] ∧
      named none = some (some "application:foo") ∧
      named (some resolver) = some (some "application:A") ∧
      (ingested (some resolver)).pool.lookupText ⟨1⟩ .summary = some "" ∧
      requires none = requires (some resolver) := by
  intro document resolver ingested named requires
  obtain ⟨hall, hrecords⟩ := ingestReading_fallback ⟨⟨true, false, false, false⟩, none, [⟨0⟩], none⟩
    Pool.empty.addRecord.2 document document.events none ⟨[.addRecord], rfl⟩ (List.prefix_refl _)
  obtain ⟨-, hresult, hqueries⟩ := hall none
  obtain ⟨-, hresult', hqueries'⟩ := hall (some resolver)
  obtain ⟨hfields, hpairs⟩ := hrecords 0 _ rfl
  obtain ⟨hname, -, -⟩ := hfields none
  obtain ⟨hname', -, hsummary'⟩ := hfields (some resolver)
  obtain ⟨-, -, -, -, hrelations⟩ := hpairs none (some resolver)
  refine ⟨hresult rfl, hqueries, hresult' rfl, hqueries'.trans (by decide +kernel),
    hname.trans (by decide +kernel), hname'.trans (by decide +kernel),
    hsummary'.trans (by decide +kernel), (hrelations (Or.inr ⟨?_, ?_⟩)).1⟩
  · intro owner howner name hname
    obtain rfl := List.mem_singleton.mp howner
    have hnone : Pool.empty.addRecord.2.name? ⟨0⟩ = none := rfl
    cases hnone.symm.trans hname
  · intro owner howner maker hmaker
    obtain rfl := List.mem_singleton.mp howner
    obtain ⟨place, -, hplace⟩ := Pool.maker?_eq_some hmaker
    have hindex : 0 = 1 + place := congrArg RecordId.index hplace
    omega

/-- A record that is tied to one owner only requires it by its name. -/
theorem Application.requires_portrait_single (settings : IngestSettings)
    {application : Application} (h : application.packages = []) (name : String) :
    (application.portrait settings [name]).requires = [⟨name, none⟩] := by
  have htargets : application.targets settings [name] = [name] := by
    rw [targets, Completion.targets, h]
    rfl
  rw [portrait, htargets]
  simp [Completion.requirement]

/-- With an entry or without, the record requires itself under the name that it gets, be it as its
own owner or because its owner holds the number of that name before it is given out. -/
theorem requires_fallback_owner :
    let document : Fragment :=
      .element "component" .empty (.element "id" .empty (.text "foo.desktop" .empty) .empty) .empty
    let resolver : DesktopResolver := fun _ _ => some ⟨some "A", none⟩
    let unissued := Pool.empty.addRecord.2.setName ⟨0⟩ ⟨4⟩
    let requires (pool : Pool) (resolver : Option DesktopResolver) :=
      let final := (ingestReading ⟨⟨true, false, false, false⟩, none, [⟨0⟩], resolver⟩ pool
        ⟨document.events, none⟩).pool
      (final.requires pool.addRecord.1).map final.spell?
    Pool.empty.Reachable ∧
      requires .empty none = [some ⟨"application:foo", none⟩] ∧
      requires .empty (some resolver) = [some ⟨"application:A", none⟩] ∧
      unissued.Reachable ∧
      requires unissued none = [some ⟨"application:foo", none⟩] ∧
      requires unissued (some resolver) = [some ⟨"application:A", none⟩] := by
  intro document resolver unissued requires
  let application : Application :=
    ⟨⟨"component", .empty⟩, .element "id" .empty (.text "foo.desktop" .empty) .empty⟩
  have happlication : application.tag.isApplication = true := by decide
  have hstands : application.Stands 0 [] [] [] document.events := ⟨rfl, rfl, rfl⟩
  have hscript : IsScript document.events := ⟨document, List.prefix_refl _⟩
  have hdetails : application.content.details = [.id "foo.desktop"] := by decide +kernel
  have hpackages : application.packages = [] := by decide +kernel
  have hrequires (resolver : Option DesktopResolver) {pool : Pool} (hpool : pool.Reachable)
      {name : String}
      (hname : (((Completion.companion? ⟨⟨true, false, false, false⟩, none, [⟨0⟩], resolver⟩
        (some "foo.desktop")).bind DesktopEntry.name).map applicationName).or
          (some (nameFromId "foo.desktop")) = some name)
      (howner : ⟨0⟩ = pool.addRecord.1 ∨
        pool.isLive ⟨0⟩ ∧ pool.name? ⟨0⟩ = some (pool.strings.intern name).1) :
      requires pool resolver = [some ⟨name, none⟩] := by
    let settings : IngestSettings := ⟨⟨true, false, false, false⟩, none, [⟨0⟩], resolver⟩
    have hdepicts := hstands.depicts happlication hscript settings hpool.wellFormed none
    have howners :=
      hstands.ownerNames_next happlication hscript hpool.wellFormed hdetails hname howner
    have hportrait := Application.requires_portrait_single settings hpackages name
    rw [← howners] at hportrait
    exact hdepicts.requires.trans (congrArg (List.map some) hportrait)
  have hfoo : nameFromId "foo.desktop" = "application:foo" := by decide +kernel
  have hnumber (name : String) (h : name = "application:foo" ∨ name = "application:A") :
      (Interner.initial.intern name).1 = ⟨4⟩ := by
    rcases h with rfl | rfl <;>
      simp [Interner.initial, Interner.internAll, Interner.predefined, Interner.intern,
        Interner.find?, Interner.size]
  have hreachable : unissued.Reachable := ⟨[.addRecord, .setName ⟨0⟩ ⟨4⟩], rfl⟩
  have hnone : (some (nameFromId "foo.desktop")) = some "application:foo" := congrArg some hfoo
  have hsome : (some (applicationName "A")) = some "application:A" := by decide +kernel
  refine ⟨⟨[], rfl⟩, hrequires none ⟨[], rfl⟩ hnone (Or.inl rfl),
    hrequires (some resolver) ⟨[], rfl⟩ hsome (Or.inl rfl), hreachable,
    hrequires none hreachable hnone (Or.inr ⟨rfl, ?_⟩),
    hrequires (some resolver) hreachable hsome (Or.inr ⟨rfl, ?_⟩)⟩
  · exact congrArg some (hnumber _ (Or.inl rfl)).symm
  · exact congrArg some (hnumber _ (Or.inr rfl)).symm

end Metainfo
