import Mathlib.Data.List.Perm.Basic
import Metainfo.Proofs.Ingest.Owners

/-!
Applications do not touch each other. Each that makes a record gets the same record in whatever
documents it is ingested with others, in whatever order.
-/

namespace Metainfo

open Metainfo.Markup

/-- Ingests documents one after the other, all with the same settings. -/
def ingestAll (settings : IngestSettings) (pool : Pool) :
    List Fragment → Except Failure (List RecordId) × Pool
  | [] => (.ok [], pool)
  | document :: documents =>
      let ingested := ingestReading settings pool ⟨document.events, none⟩
      let rest := ingestAll settings ingested.pool documents
      (do return (← ingested.result) ++ (← rest.1), rest.2)

theorem Application.applications_document {application : Application}
    (h : application.tag.namesApplication = true) :
    application.document.applications = [application] := by
  have hcontainer : application.tag.isContainer ≠ true := by
    intro hcontainer
    rw [StartTag.namesApplication_eq_false_of_isContainer hcontainer] at h
    contradiction
  rw [document, Fragment.applications, if_neg hcontainer, if_pos h]
  rfl

namespace Pool

theorem nextRecords_add {pool later : Pool} {count : Nat}
    (h : later.addRecord.1 = ⟨pool.addRecord.1.index + count⟩) (more : Nat) :
    pool.nextRecords (count + more) = pool.nextRecords count ++ later.nextRecords more := by
  rw [nextRecords, nextRecords, nextRecords, List.range_add, List.map_append, List.map_map, h]
  congr 1
  apply List.map_congr_left
  intro offset _
  exact congrArg RecordId.mk (Nat.add_assoc _ _ _).symm

/-- A list is related to the next numbers if each of its elements is to that of its place. -/
theorem forall₂_nextRecords {α : Type} {relation : α → RecordId → Prop} {elements : List α}
    (pool : Pool) (h : ∀ index element, elements[index]? = some element →
      relation element ⟨pool.addRecord.1.index + index⟩) :
    elements.Forall₂ relation (pool.nextRecords elements.length) := by
  refine List.forall₂_iff_get.mpr ⟨by simp [nextRecords], fun index hindex hindex' => ?_⟩
  have hrecord : (pool.nextRecords elements.length).get ⟨index, hindex'⟩ =
      ⟨pool.addRecord.1.index + index⟩ := by simp [nextRecords]
  rw [hrecord]
  exact h index _ (List.getElem?_eq_getElem hindex)

end Pool

/-- The owners of a document are live and their names known. -/
def IngestSettings.OwnersLive (settings : IngestSettings) (pool : Pool) : Prop :=
  ∀ owner ∈ settings.owners,
    pool.isLive owner ∧ ∀ name, pool.name? owner = some name → pool.Knows name

namespace IngestSettings.OwnersLive

variable {settings : IngestSettings} {pool later : Pool}

theorem of_closed (hclosed : pool.Closed) (h : ∀ owner ∈ settings.owners, pool.isLive owner) :
    settings.OwnersLive pool := by
  intro owner howner
  refine ⟨h owner howner, fun name hname => ?_⟩
  obtain ⟨record, hrecord, hfield⟩ := Option.bind_eq_some_iff.mp hname
  refine hclosed owner record hrecord name ?_
  simp [Record.numbers, hfield]

/-- A document does not make what is live beforehand. -/
theorem ownerName?_eq (h : settings.OwnersLive pool) {owner : RecordId}
    (howner : owner ∈ settings.owners) (applications : List Application) :
    settings.ownerName? pool applications owner = (pool.name? owner).bind pool.resolve? := by
  have hlt : owner.index < pool.addRecord.1.index := Pool.index_lt_of_isLive (h owner howner).1
  rw [ownerName?, Pool.maker?, if_neg (Nat.not_le_of_lt hlt)]

theorem ownerNames_eq (h : settings.OwnersLive pool) (applications : List Application) :
    settings.ownerNames pool applications = settings.ownerNames pool [] := by
  apply List.filterMap_congr
  intro owner howner
  rw [h.ownerName?_eq howner, h.ownerName?_eq howner]

theorem kept (h : settings.OwnersLive pool)
    (hkept : ∀ id, pool.isLive id → Pool.Kept id pool later) :
    settings.OwnersLive later ∧ settings.ownerNames later [] = settings.ownerNames pool [] := by
  have hlater : settings.OwnersLive later := by
    intro owner howner
    obtain ⟨hlive, hname⟩ := h owner howner
    have howned := hkept owner hlive
    refine ⟨howned.isLive.trans hlive, fun name hnumber => ?_⟩
    exact (hname name (howned.name?.symm.trans hnumber)).of_extends howned.strings
  refine ⟨hlater, ?_⟩
  apply List.filterMap_congr
  intro owner howner
  obtain ⟨hlive, hname⟩ := h owner howner
  have howned := hkept owner hlive
  rw [hlater.ownerName?_eq howner, h.ownerName?_eq howner, howned.name?]
  cases hnumber : pool.name? owner with
  | none => rfl
  | some number =>
      obtain ⟨text, htext⟩ := hname number hnumber
      exact (howned.strings number text htext).trans htext.symm

end IngestSettings.OwnersLive

/-- The records of one document are as the portraits of its applications, in their order, and what
was live beforehand stays as it was. -/
theorem ingestReading_portraits (settings : IngestSettings) {pool : Pool}
    (hpool : pool.WellFormed) (howners : settings.OwnersLive pool) (document : Fragment) :
    let ingested := ingestReading settings pool ⟨document.events, none⟩
    let count := document.recorded.length
    ingested.result = .ok (pool.nextRecords count) ∧
      (∀ id, ingested.pool.isLive id ↔ pool.isLive id ∨ id ∈ pool.nextRecords count) ∧
      document.recorded.Forall₂ (fun application record => ingested.pool.Depicts record
        (application.portrait settings (settings.ownerNames pool []))) (pool.nextRecords count) ∧
      ingested.pool.WellFormed ∧ (∀ id, pool.isLive id → Pool.Kept id pool ingested.pool) ∧
      ingested.pool.addRecord.1 = ⟨pool.addRecord.1.index + count⟩ := by
  intro ingested count
  have hclosed : StartTag.closedRecords [] document.events = count :=
    StartTag.closedRecords_fragment rfl document
  have hscript : IsScript document.events := ⟨document, List.prefix_refl _⟩
  have hnumbered := Context.numbered_run settings pool hscript
  have hnone := Context.record_run_closed settings pool (openNames_fragment document [])
  rw [hclosed] at hnumbered
  obtain ⟨hlive, hnext⟩ := hnumbered.finish hnone settings
  refine ⟨congrArg Except.ok hnumbered.completed, hlive, ?_,
    settings.wellFormed_finish (Context.sound_run settings hpool hscript).pool, ?_, hnext⟩
  · refine pool.forall₂_nextRecords fun index application happlication => ?_
    have hplace : (document.recorded.take (StartTag.closedRecords [] document.events))[index]? =
        some application := by
      rw [hclosed, List.take_length]
      exact happlication
    obtain ⟨owners, hdepicts, hnames⟩ :=
      exists_depicts_of_prefix (List.prefix_refl _) hplace settings hpool none
    rw [← howners.ownerNames_eq, ← hnames fun owner howner => (howners owner howner).2]
    exact hdepicts
  · intro id hid
    have hsettled : ((Context.initial pool).run settings []).Settled id :=
      ⟨hpool, hid, by simp [Context.initial, Context.run_nil]⟩
    exact kept_ingestReading settings pool none hscript hsettled

theorem ingestAll_portraits (settings : IngestSettings) {pool : Pool} (hpool : pool.WellFormed)
    (howners : settings.OwnersLive pool) (documents : List Fragment) :
    let ingested := ingestAll settings pool documents
    let recorded := documents.flatMap Fragment.recorded
    let records := pool.nextRecords recorded.length
    ingested.1 = .ok records ∧
      (∀ id, ingested.2.isLive id ↔ pool.isLive id ∨ id ∈ records) ∧
      recorded.Forall₂ (fun application record => ingested.2.Depicts record
        (application.portrait settings (settings.ownerNames pool []))) records ∧
      ∀ id, pool.isLive id → Pool.Kept id pool ingested.2 := by
  induction documents generalizing pool with
  | nil =>
      refine ⟨rfl, fun id => ?_, .nil, fun id hid => .refl id pool⟩
      change pool.isLive id ↔ pool.isLive id ∨ id ∈ []
      simp
  | cons document documents ih =>
      intro ingested recorded records
      obtain ⟨hresult, hlive, hdepicts, hwell, hkept, hnext⟩ :=
        ingestReading_portraits settings hpool howners document
      obtain ⟨hlater, hnames⟩ := howners.kept hkept
      obtain ⟨hresults, hlives, hportraits, hstays⟩ := ih hwell hlater
      have hrecorded : recorded = document.recorded ++ documents.flatMap Fragment.recorded :=
        List.flatMap_cons
      have hrecords : records = pool.nextRecords document.recorded.length ++
          (ingestReading settings pool ⟨document.events, none⟩).pool.nextRecords
            (documents.flatMap Fragment.recorded).length := by
        rw [← Pool.nextRecords_add hnext, ← List.length_append, ← hrecorded]
      rw [hrecorded, hrecords]
      refine ⟨?_, ?_, ?_, ?_⟩
      · change (do return (← _) ++ (← _)) = _
        rw [hresult, hresults]
        rfl
      · intro id
        rw [List.mem_append, ← or_assoc, ← hlive]
        exact hlives id
      · rw [hnames] at hportraits
        refine List.rel_append (hdepicts.imp fun application record hdepicted => ?_) hportraits
        exact hdepicted.kept (hstays record hdepicted.isLive)
      · intro id hid
        exact (hkept id hid).trans (hstays id ((hlive id).mpr (Or.inl hid)))

/-- Elements that are applications give the same records whatever documents they come in: each for
all languages the one that it gives alone, but for the number, and each for one language none. They
may stand in one document, in containers nested in any way, or in several, and in any order. -/
theorem ingestAll_independent (settings : IngestSettings) (pool : Pool)
    (elements : List Application) (hpool : pool.Reachable) (hclosed : pool.Closed)
    (howners : ∀ owner ∈ settings.owners, pool.isLive owner)
    (helements : ∀ element ∈ elements, element.tag.namesApplication) :
    (elements.map Application.document).flatMap Fragment.applications = elements ∧
      ∃ portrait : Application → PlainRecord,
        (∀ element ∈ elements,
          let alone := ingestReading settings pool ⟨element.document.events, none⟩
          let records := if element.tag.isLocalized then [] else [pool.addRecord.1]
          alone.result = .ok records ∧
            (∀ id, alone.pool.isLive id ↔ pool.isLive id ∨ id ∈ records) ∧
            ∀ record ∈ records, alone.pool.view record = .ok ((portrait element).view record)) ∧
        ∀ documents : List Fragment,
          (documents.flatMap Fragment.applications).Perm elements →
            let ingested := ingestAll settings pool documents
            ∃ records ordered, ingested.1 = .ok records ∧ ordered.Perm records ∧
              (∀ id, ingested.2.isLive id ↔ pool.isLive id ∨ id ∈ records) ∧
              (elements.filter fun element => !element.tag.isLocalized).Forall₂
                (fun element record =>
                  ingested.2.view record = .ok ((portrait element).view record)) ordered := by
  have hlive := IngestSettings.OwnersLive.of_closed hclosed howners
  constructor
  · have hsingle (element : Application) (helement : element ∈ elements) :
        element.document.applications = [element] :=
      Application.applications_document (helements element helement)
    rw [List.flatMap_map, List.flatMap_congr hsingle, ← List.map_eq_flatMap, List.map_id']
  refine ⟨Application.portrait settings (settings.ownerNames pool []), ?_, ?_⟩
  · intro element helement alone records
    obtain ⟨hresult, halive, hportraits, -⟩ :=
      ingestReading_portraits settings hpool.wellFormed hlive element.document
    have hrecorded : element.document.recorded =
        if element.tag.isLocalized then [] else [element] := by
      rw [Fragment.recorded, Application.applications_document (helements element helement)]
      cases hlocalized : element.tag.isLocalized <;> simp [hlocalized]
    have hrecords : pool.nextRecords element.document.recorded.length = records := by
      rw [hrecorded]
      simp only [records]
      split <;> rfl
    rw [hrecords] at hresult halive hportraits
    refine ⟨hresult, halive, fun record hrecord => ?_⟩
    cases hlocalized : element.tag.isLocalized with
    | true => simp [records, hlocalized] at hrecord
    | false =>
        simp only [records, hrecorded, hlocalized, Bool.false_eq_true, if_false]
          at hportraits hrecord
        obtain rfl := List.mem_singleton.mp hrecord
        exact (List.forall₂_cons.mp hportraits).1.view
  · intro documents hdocuments ingested
    obtain ⟨hresult, halive, hportraits, -⟩ :=
      ingestAll_portraits settings hpool.wellFormed hlive documents
    have hrecorded : (elements.filter fun element => !element.tag.isLocalized).Perm
        (documents.flatMap Fragment.recorded) := by
      have hfilter := hdocuments.symm.filter fun element => !element.tag.isLocalized
      rw [List.filter_flatMap] at hfilter
      exact hfilter
    obtain ⟨ordered, hordered, hperm⟩ := List.perm_comp_forall₂ hrecorded hportraits
    exact ⟨_, ordered, hresult, hperm, halive,
      hordered.imp fun element record hdepicts => hdepicts.view⟩

/-- Three applications, one of them for one language, in one document in the reverse order. -/
theorem ingestAll_independent_reversed :
    let first : Application :=
      ⟨⟨"component", .empty⟩, .element "name" .empty (.text "One" .empty) .empty⟩
    let second : Application := ⟨⟨"application", ⟨[("xml:lang", "de")]⟩⟩, first.document⟩
    let third : Application :=
      ⟨⟨"application", .empty⟩, .element "summary" .empty (.text "Three" .empty) .empty⟩
    let document : Fragment :=
      .element "components" .empty
        (.element "applications" .empty (third.document.append second.document) first.document)
        .empty
    let settings : IngestSettings := ⟨.none, some "one.metainfo.xml", [⟨0⟩], none⟩
    let pool := Pool.empty.addRecord.2
    let alone (element : Application) :=
      ingestReading settings pool ⟨element.document.events, none⟩
    let ingested := ingestAll settings pool [document]
    ∃ records, ingested.1 = .ok records ∧ (alone second).result = .ok [] ∧
      (∃ record ∈ records, ∃ plain : PlainRecord,
        (alone first).pool.view ⟨1⟩ = .ok (plain.view ⟨1⟩) ∧
          ingested.2.view record = .ok (plain.view record)) ∧
      ∃ record ∈ records, ∃ plain : PlainRecord,
        (alone third).pool.view ⟨1⟩ = .ok (plain.view ⟨1⟩) ∧
          ingested.2.view record = .ok (plain.view record) := by
  intro first second third document settings pool alone ingested
  have hclosed : (Pool.empty.perform .addRecord).Closed :=
    Pool.closed_empty.perform (by simp [Operation.arguments])
  have helements : ∀ element ∈ [first, second, third], element.tag.namesApplication := by decide
  obtain ⟨-, portrait, halone, hall⟩ :=
    ingestAll_independent settings pool [first, second, third] ⟨[.addRecord], rfl⟩ hclosed
      (by decide) helements
  have hperm : ([document].flatMap Fragment.applications).Perm [first, second, third] :=
    List.reverse_perm [first, second, third]
  obtain ⟨records, ordered, hresult, hordered, -, hviews⟩ := hall [document] hperm
  have hrecorded : ([first, second, third].filter fun element => !element.tag.isLocalized) =
      [first, third] := by decide
  rw [hrecorded] at hviews
  obtain ⟨one, rest, hone, hrest, rfl⟩ := List.forall₂_cons_left_iff.mp hviews
  obtain ⟨three, nothing, hthree, -, rfl⟩ := List.forall₂_cons_left_iff.mp hrest
  obtain ⟨-, -, hfirst⟩ := halone first (by simp)
  obtain ⟨hsecond, -⟩ := halone second (by simp)
  obtain ⟨-, -, hthird⟩ := halone third (by simp)
  exact ⟨records, hresult, hsecond,
    ⟨one, hordered.subset (by simp), portrait first, hfirst ⟨1⟩ (by decide), hone⟩,
    three, hordered.subset (by simp), portrait third, hthird ⟨1⟩ (by decide), hthree⟩

end Metainfo
