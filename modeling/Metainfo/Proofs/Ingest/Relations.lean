import Mathlib
import Metainfo.Proofs.Ingest.RecordFields
import Metainfo.Proofs.Markup.Reading

/-!
The relations of the records of a document. Each record is tied to the packages that its element
names, else to the named owners of the document, else to the document.
-/

namespace Metainfo

open Metainfo.Markup
open Metainfo.Naming

namespace Context

variable {context : Context} {frames : List Frame} {name : String} {attributes : Attributes}

/-- When an element closes, its record has the relations that its children call for. -/
theorem Follows.completed_element (h : context.Follows frames) (hsound : context.Sound)
    (hopens : context.OpensRecord name attributes) (settings : IngestSettings)
    (children : Fragment) :
    let record := context.pool.addRecord.1
    let inner := (context.start name attributes).run settings children.events
    let packages := children.childValues "pkgname"
    let owners := Completion.ownerNames
      (Completion.named settings inner.findings inner.pool record) settings.owners
    let file := Completion.fileTarget settings.filename (children.childValues "id").getLast?
    Completion.Completed (inner.stop settings).pool record
      (Completion.requirement packages owners) (Completion.targets packages owners file) := by
  intro record inner packages owners file
  obtain ⟨hdrafts, hat⟩ := h.drafts_start hsound.pool hopens
  have hinner := hdrafts.run_children hat settings children
  obtain ⟨hpool, -⟩ := hinner.stop_application (hat.run settings children) settings
  have hlinked := hinner.linked
  rw [foldl_addNew] at hlinked
  have hfinished := Completion.completed_complete settings inner.findings hlinked
  have hid : inner.findings.id = (children.childValues "id").getLast? := by
    rw [hinner.lastId, Option.or_none]
  rw [hid] at hfinished
  rw [hpool]
  exact hfinished

/-- The owners of a document have the names under which they were known before. -/
theorem ownerNames_run (settings : IngestSettings) {pool : Pool} (hpool : pool.WellFormed)
    {events : List Event} (h : IsScript events) {record : RecordId}
    (hrecord : ((initial pool).run settings events).record = some record)
    (howners : ∀ owner ∈ settings.owners,
      pool.isLive owner ∧ ∀ name, pool.name? owner = some name → pool.Knows name) :
    let inner := (initial pool).run settings events
    Completion.ownerNames (Completion.named settings inner.findings inner.pool record)
        settings.owners =
      settings.owners.filterMap fun owner => (pool.name? owner).bind pool.resolve? := by
  intro inner
  obtain ⟨names, hnames⟩ := isScript_iff.mp h
  have hkept (owner : RecordId) (howner : pool.isLive owner) :
      inner.Settled owner ∧ Pool.Kept owner pool inner.pool := by
    have hsettled : (initial pool).Settled owner := ⟨hpool, howner, by simp [initial]⟩
    exact hsettled.run (follows_initial pool) settings rfl hnames
  have hnamed := Completion.editedTo_named settings inner.findings inner.pool record
  have hsound : inner.Sound := sound_run settings hpool h
  apply Completion.ownerNames_of_knows
  · intro owner howner
    obtain ⟨hsettled, hsame⟩ := hkept owner (howners owner howner).1
    have hother : owner ≠ record := fun heq => hsettled.notOpen (heq ▸ hrecord)
    exact (Pool.Kept.edited hnamed hsound.pool hother).name?.trans hsame.name?
  · exact (strings_run_extends settings pool h).trans hnamed.equalExcept.strings
  · exact fun owner howner => (howners owner howner).2

end Context

/-- In the end a record has the relations that the children of its element call for. -/
theorem completed_element_ingestReading (settings : IngestSettings) {pool : Pool}
    (hpool : pool.WellFormed) {reading : Reading} (h : IsScript reading.events)
    {before rest : List Event} {name : String} {attributes : Attributes} {children : Fragment}
    (hevents : reading.events =
      before ++ .start name attributes :: (children.events ++ .stop name :: rest))
    (hopens : ((Context.initial pool).run settings before).OpensRecord name attributes) :
    let record := ((Context.initial pool).run settings before).pool.addRecord.1
    let inner := (Context.initial pool).run settings
      (before ++ .start name attributes :: children.events)
    let packages := children.childValues "pkgname"
    let owners := Completion.ownerNames
      (Completion.named settings inner.findings inner.pool record) settings.owners
    let file := Completion.fileTarget settings.filename (children.childValues "id").getLast?
    inner.record = some record ∧
      record ∈ ((Context.initial pool).run settings reading.events).completed ∧
      Completion.Completed (ingestReading settings pool reading).pool record
        (Completion.requirement packages owners) (Completion.targets packages owners file) := by
  intro record inner packages owners file
  obtain ⟨events, failure⟩ := reading
  obtain rfl : events = _ := hevents
  have hfollows := Context.follows_run settings pool h.of_append
  have hsound := Context.sound_run settings hpool h.of_append
  have hinner : inner = (((Context.initial pool).run settings before).start name attributes).run
      settings children.events :=
    Context.run_append before _
  obtain ⟨-, hopen, -⟩ :=
    hfollows.run_opened settings hopens ⟨children, List.prefix_refl children.events⟩
  have hcompleted := hfollows.completed_element hsound hopens settings children
  obtain ⟨hmem, hkept⟩ := kept_element settings hpool failure h hopens
  have hend := hcompleted.kept hkept
  rw [← hinner] at hopen hend
  exact ⟨hopen, hmem, hend⟩

/-- Each record that a document completes is that of an element. It has targets, all different: the
packages that the element names, else the named owners, else the file. It has one requirement and
one link for each of them in the same order, and after the links it provides itself if it has a
name. -/
theorem ingest_relations (settings : IngestSettings) (pool : Pool) (source : Source)
    (hpool : pool.Reachable) :
    let events := (Markup.read source).events
    let reading := (Context.initial pool).run settings
    let ingested := ingest settings pool source
    let final := ingested.pool
    (∀ records, ingested.result = .ok records → records = (reading events).completed) ∧
      (∀ record ∈ (reading events).completed,
        ∃ before name attributes rest, ∃ children : Fragment,
          events = before ++ .start name attributes :: (children.events ++ .stop name :: rest) ∧
            (reading before).OpensRecord name attributes ∧
              (reading before).pool.addRecord.1 = record) ∧
      ∀ before name attributes rest (children : Fragment),
        events = before ++ .start name attributes :: (children.events ++ .stop name :: rest) →
        (reading before).OpensRecord name attributes →
          let record := (reading before).pool.addRecord.1
          let inner := reading (before ++ .start name attributes :: children.events)
          let packages := children.childValues "pkgname"
          let owners := Completion.ownerNames
            (Completion.named settings inner.findings inner.pool record) settings.owners
          let file := Completion.fileTarget settings.filename (children.childValues "id").getLast?
          let targets := Completion.targets packages owners file
          record ∈ (reading events).completed ∧
            final.isLive record ∧
            targets.Nodup ∧
            ((final.requires record).map final.spell? =
              targets.map fun target =>
                some ⟨if packages = [] ∧ owners = [] then "appdata(" ++ target ++ ")" else target,
                  none⟩) ∧
            ((final.provides record).map final.spell? =
              (targets.map fun target => some ⟨"application-appdata(" ++ target ++ ")", none⟩) ++
                ((final.name? record).bind final.resolve?).toList.map fun name =>
                  some ⟨name, some ""⟩) ∧
            (∀ name, final.name? record = some name → final.Knows name) ∧
            ((∀ owner ∈ settings.owners, pool.isLive owner ∧
                ∀ name, pool.name? owner = some name → pool.Knows name) →
              owners =
                settings.owners.filterMap fun owner => (pool.name? owner).bind pool.resolve?) := by
  intro events reading ingested final
  have hscript : IsScript events := isScript_read source
  refine ⟨fun records hrecords => eq_completed_of_ok hrecords,
    fun record hrecord => Context.exists_element_of_completed settings pool hscript hrecord, ?_⟩
  intro before name attributes rest children hevents hopens record inner packages owners file
    targets
  obtain ⟨hopen, hmem, hcompleted⟩ :=
    completed_element_ingestReading settings hpool.wellFormed hscript hevents hopens
  refine ⟨hmem, hcompleted.isLive, Completion.nodup_targets packages owners file,
    hcompleted.requires, hcompleted.provides, hcompleted.name, fun howners => ?_⟩
  have hopened : IsScript (before ++ .start name attributes :: children.events) := by
    rw [hevents, ← List.cons_append, ← List.append_assoc] at hscript
    exact hscript.of_append
  exact Context.ownerNames_run settings hpool.wellFormed hopened hopen howners

/-- An element that is tied to its file, or else to an owner that is listed twice, and one that
names its package twice. -/
theorem ingest_relations_repeated :
    let source := Source.ofBytes <| Utf8.encode <|
      "<components><component><id>foo.desktop</id></component><component><name>VLC</name>" ++
        "<pkgname>vlc</pkgname><pkgname> vlc </pkgname></component></components>"
    let final := (ingest (.ofFlags .none) .empty source).pool
    let named := Pool.empty.addRecord.2.intern "foo-data"
    let pool := named.2.setName ⟨0⟩ named.1
    let settings : IngestSettings := { IngestSettings.ofFlags .none with owners := [⟨0⟩, ⟨0⟩] }
    let owned := (ingest settings pool source).pool
    ((final.requires ⟨0⟩).map final.spell? = [some ⟨"appdata(foo.appdata.xml)", none⟩] ∧
        (final.provides ⟨0⟩).map final.spell? =
          [some ⟨"application-appdata(foo.appdata.xml)", none⟩,
            some ⟨"application:foo", some ""⟩]) ∧
      ((final.requires ⟨1⟩).map final.spell? = [some ⟨"vlc", none⟩] ∧
        (final.provides ⟨1⟩).map final.spell? =
          [some ⟨"application-appdata(vlc)", none⟩, some ⟨"application:VLC", some ""⟩]) ∧
      (owned.requires ⟨1⟩).map owned.spell? = [some ⟨"foo-data", none⟩] ∧
        (owned.provides ⟨1⟩).map owned.spell? =
          [some ⟨"application-appdata(foo-data)", none⟩, some ⟨"application:foo", some ""⟩] := by
  intro source final named pool settings owned
  let first : Fragment := .element "id" .empty (.text "foo.desktop" .empty) .empty
  let second : Fragment :=
    .element "name" .empty (.text "VLC" .empty) <|
    .element "pkgname" .empty (.text "vlc" .empty) <|
    .element "pkgname" .empty (.text " vlc " .empty) .empty
  let before : List Event := [.start "components" .empty]
  let between : List Event :=
    before ++ .start "component" .empty :: (first.events ++ [.stop "component"])
  let plain := (Context.initial .empty).run (.ofFlags .none)
  let other := (Context.initial pool).run settings
  have hfirst : (Markup.read source).events = before ++ .start "component" .empty ::
      (first.events ++ .stop "component" :: .start "component" .empty ::
        (second.events ++ [.stop "component", .stop "components"])) := by
    decide +kernel
  have hsecond : (Markup.read source).events = between ++ .start "component" .empty ::
      (second.events ++ .stop "component" :: [.stop "components"]) := by
    decide +kernel
  have hscript := isScript_read source
  obtain ⟨-, -, hplain⟩ := ingest_relations (.ofFlags .none) .empty source ⟨[], rfl⟩
  refine ⟨?_, ?_, ?_⟩
  · have hopens : (plain before).OpensRecord "component" .empty :=
      ⟨by decide +kernel, by decide +kernel⟩
    have hrecord : (plain before).pool.addRecord.1 = ⟨0⟩ := by decide +kernel
    obtain ⟨-, -, -, hname⟩ := shows_element _ Pool.wellFormed_empty hscript hfirst hopens
    obtain ⟨-, -, -, hrequires, hprovides, -⟩ := hplain before _ _ _ first hfirst hopens
    rw [ingest, hname] at hprovides
    rw [hrecord] at hrequires hprovides
    exact ⟨hrequires.trans (by decide +kernel), hprovides.trans (by decide +kernel)⟩
  · have hopens : (plain between).OpensRecord "component" .empty :=
      ⟨by decide +kernel, by decide +kernel⟩
    have hrecord : (plain between).pool.addRecord.1 = ⟨1⟩ := by decide +kernel
    obtain ⟨-, -, -, hname⟩ := shows_element _ Pool.wellFormed_empty hscript hsecond hopens
    obtain ⟨-, -, -, hrequires, hprovides, -⟩ := hplain between _ _ _ second hsecond hopens
    rw [ingest, hname] at hprovides
    rw [hrecord] at hrequires hprovides
    exact ⟨hrequires.trans (by decide +kernel), hprovides.trans (by decide +kernel)⟩
  · have hpool : pool.Reachable :=
      ⟨[.addRecord, .intern "foo-data", .setName ⟨0⟩ named.1], rfl⟩
    have hnumber : pool.name? ⟨0⟩ = some named.1 := rfl
    have hresolve : pool.resolve? named.1 = some "foo-data" :=
      Pool.wellFormed_empty.strings.resolve?_intern "foo-data"
    have hnames : (settings.owners.filterMap fun owner => (pool.name? owner).bind pool.resolve?) =
        ["foo-data", "foo-data"] := by
      simp [settings, hnumber, hresolve]
    have hopens : (other before).OpensRecord "component" .empty :=
      ⟨by decide +kernel, by decide +kernel⟩
    have hrecord : (other before).pool.addRecord.1 = ⟨1⟩ := by decide +kernel
    obtain ⟨-, -, -, hname⟩ := shows_element _ hpool.wellFormed hscript hfirst hopens
    obtain ⟨-, -, howned⟩ := ingest_relations settings pool source hpool
    obtain ⟨-, -, -, hrequires, hprovides, -, howners⟩ := howned before _ _ _ first hfirst hopens
    have hknown : ∀ owner ∈ settings.owners, pool.isLive owner ∧
        ∀ name, pool.name? owner = some name → pool.Knows name := by
      intro owner howner
      obtain rfl : owner = ⟨0⟩ := by simpa [settings] using howner
      refine ⟨rfl, fun number hfound => ?_⟩
      obtain rfl := Option.some.inj (hnumber.symm.trans hfound)
      exact ⟨"foo-data", hresolve⟩
    rw [howners hknown, hnames] at hrequires hprovides
    rw [ingest, hname] at hprovides
    rw [hrecord] at hrequires hprovides
    exact ⟨hrequires.trans (by decide +kernel), hprovides.trans (by decide +kernel)⟩

end Metainfo
