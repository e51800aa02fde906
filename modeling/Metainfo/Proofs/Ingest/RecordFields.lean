import Mathlib
import Metainfo.Proofs.Ingest.Completed
import Metainfo.Proofs.Ingest.Drafts
import Metainfo.Proofs.Ingest.Fields
import Metainfo.Proofs.Naming

/-!
The fields of the records of a document, as far as its text goes: which children of an application
give them, and what stands in for a name or a summary that it does not have.
-/

namespace Metainfo

open Metainfo.Markup
open Metainfo.Naming

/-- Of one-valued fields the last value counts, of lists all do. -/
def Fields.ofDetails (details : List Detail) : Fields where
  name := (details.filterMap Detail.name?).getLast?
  text key := (details.filterMap (Detail.text? key)).getLast?
  list key := details.filterMap (Detail.item? key)

namespace Fields

variable (details : List Detail)

/-- A category that is said first yields to one that is said later. -/
theorem ofDetails_category (category : String) :
    ofDetails (.text .category category :: details) =
      { ofDetails details with
        text := fun key =>
          ((ofDetails details).text key).or
            (if key = .category then some category else none) } := by
  have htext : (ofDetails (.text .category category :: details)).text = fun key =>
      ((ofDetails details).text key).or (if key = .category then some category else none) := by
    funext key
    by_cases hkey : key = .category
    · subst hkey
      simp [ofDetails, Detail.text?, Option.or_some]
    · simp [ofDetails, List.filterMap_cons, Detail.text?, hkey, Ne.symm hkey]
  rw [← htext]
  simp [ofDetails, List.filterMap_cons, Detail.name?, Detail.item?]

/-- An id or a package is not among the fields. -/
theorem ofDetails_other {detail : Detail}
    (h : detail.id?.isSome ∨ detail.package?.isSome) :
    ofDetails (details ++ [detail]) = ofDetails details := by
  cases detail <;>
    simp_all [ofDetails, List.filterMap_cons, Detail.id?, Detail.package?, Detail.name?,
      Detail.text?, Detail.item?]

theorem ofDetails_name (value : String) :
    ofDetails (details ++ [.name value]) = { ofDetails details with name := some value } := by
  simp [ofDetails, List.filterMap_cons, Detail.name?, Detail.text?, Detail.item?]

theorem ofDetails_text (key : TextKey) (value : String) :
    ofDetails (details ++ [.text key value]) =
      { ofDetails details with
        text := Function.update (ofDetails details).text key (some value) } := by
  have htext : (ofDetails (details ++ [.text key value])).text =
      Function.update (ofDetails details).text key (some value) := by
    funext other
    by_cases hkey : key = other
    · subst hkey
      simp [ofDetails, Detail.text?]
    · simp [ofDetails, Detail.text?, hkey, Function.update_of_ne (Ne.symm hkey)]
  rw [← htext]
  simp [ofDetails, List.filterMap_cons, Detail.name?, Detail.item?]

theorem ofDetails_item (key : ListKey) (value : String) :
    ofDetails (details ++ [.item key value]) =
      { ofDetails details with
        list := Function.update (ofDetails details).list key
          ((ofDetails details).list key ++ [value]) } := by
  have hlist : (ofDetails (details ++ [.item key value])).list =
      Function.update (ofDetails details).list key ((ofDetails details).list key ++ [value]) := by
    funext other
    by_cases hkey : key = other
    · subst hkey
      simp [ofDetails, Detail.item?]
    · simp [ofDetails, Detail.item?, hkey, Function.update_of_ne (Ne.symm hkey)]
  rw [← hlist]
  simp [ofDetails, List.filterMap_cons, Detail.name?, Detail.text?]

end Fields

namespace Pool.Shows

variable {pool : Pool} {record : RecordId} {said : List Detail}

theorem write (h : pool.Shows record (.ofDetails said)) (detail : Detail) :
    (detail.write record pool).Shows record (.ofDetails (said ++ [detail])) := by
  cases detail with
  | id value =>
      rw [Fields.ofDetails_other said (Or.inl rfl)]
      exact h
  | package value =>
      rw [Fields.ofDetails_other said (Or.inr rfl)]
      exact h.linkPackage value
  | name value =>
      rw [Fields.ofDetails_name]
      exact h.setNameText value
  | text key value =>
      rw [Fields.ofDetails_text]
      exact h.setText key value
  | item key value =>
      rw [Fields.ofDetails_item]
      exact h.addToList key value

theorem foldl_write (h : pool.Shows record (.ofDetails said)) (details : List Detail) :
    (details.foldl (Detail.write record) pool).Shows record (.ofDetails (said ++ details)) := by
  induction details generalizing pool said with
  | nil => rwa [List.append_nil]
  | cons detail details ih =>
      rw [List.append_cons]
      exact ih (h.write detail)

end Pool.Shows

/-- Nothing is known of a new record. -/
theorem Pool.WellFormed.shows_addRecord {pool : Pool} (h : pool.WellFormed) :
    pool.addRecord.2.Shows pool.addRecord.1 (.ofDetails []) where
  wellFormed := h.addRecord
  isLive := (Pool.isLive_addRecord_iff pool _).mpr (Or.inr rfl)
  name := by
    rw [Pool.name?, Pool.record?_addRecord, if_pos (Pool.addRecord_fst pool)]
    rfl
  text := h.lookupText_of_not_isLive (Pool.isLive_size pool)
  list := h.lookupList_of_not_isLive (Pool.isLive_size pool)

namespace Markup.Fragment

/-- The children of an application give these fields of its record, and no others. -/
theorem ofDetails_details (fragment : Fragment) :
    let fields := Fields.ofDetails fragment.details
    fields.list .license = fragment.childValues "product_license" ∧
      fields.list .group = fragment.childValues "project_group" ∧
      fields.list .extensions = fragment.childValues "extends" ∧
      fields.list .keywords =
        ((fragment.contents "keywords").flatMap fun keywords => keywords.childValues "keyword") ∧
      fields.list .files = [] ∧
      fields.text .url = (fragment.childValues "url").getLast? ∧
      fields.text .summary = (fragment.childValues "summary").getLast? ∧
      fields.text .category = none ∧
      fields.text .description =
        ((fragment.contents "description").filterMap rendering?).getLast? ∧
      fields.name = (fragment.childValues "name").getLast?.map applicationName := by
  have hkeywords (content : Fragment) :
      (content.contents "keyword").map value = content.childValues "keyword" :=
    (content.childValues_eq "keyword").symm
  refine ⟨?_, ?_, ?_, ?_, ?_, ?_, ?_, ?_, ?_, ?_⟩
  · refine filterMap_details_value rfl (fun element content => ?_) fragment
    cases element <;> simp [Detail.ofChild, Detail.item?]
  · refine filterMap_details_value rfl (fun element content => ?_) fragment
    cases element <;> simp [Detail.ofChild, Detail.item?]
  · refine filterMap_details_value rfl (fun element content => ?_) fragment
    cases element <;> simp [Detail.ofChild, Detail.item?]
  · refine filterMap_details rfl (fun element content => ?_) fragment
    cases element <;> simp [Detail.ofChild, Detail.item?, Function.comp_def, hkeywords]
  · refine filterMap_details_none (fun element content => ?_) fragment
    cases element <;> simp [Detail.ofChild, Detail.item?]
  · refine congrArg List.getLast? (filterMap_details_value rfl (fun element content => ?_) fragment)
    cases element <;> simp [Detail.ofChild, Detail.text?]
  · refine congrArg List.getLast? (filterMap_details_value rfl (fun element content => ?_) fragment)
    cases element <;> simp [Detail.ofChild, Detail.text?]
  · refine congrArg List.getLast? (filterMap_details_none (fun element content => ?_) fragment)
    cases element <;> simp [Detail.ofChild, Detail.text?]
  · rw [List.filterMap_eq_flatMap_toList]
    refine congrArg List.getLast? (filterMap_details rfl (fun element content => ?_) fragment)
    cases element <;> simp [Detail.ofChild, Detail.text?, Function.comp_def]
  · rw [← List.getLast?_map, childValues_eq, List.map_map, List.map_eq_flatMap]
    refine congrArg List.getLast? (filterMap_details rfl (fun element content => ?_) fragment)
    cases element <;> simp [Detail.ofChild, Detail.name?]

/-- The name of an application is the last one among its children, else that of the desktop entry,
else that of the id. -/
theorem name_details (fragment : Fragment) (category : String) (entry : Option DesktopEntry)
    (id : Option String) :
    (((Fields.ofDetails (.text .category category :: fragment.details)).fillFrom entry).nameFrom
        id).name =
      (((fragment.childValues "name").getLast?.or (entry.bind DesktopEntry.name)).or
        (id.map idStem)).map fun name => "application:" ++ name := by
  obtain ⟨-, -, -, -, -, -, -, -, -, hname⟩ := fragment.ofDetails_details
  rw [Fields.ofDetails_category, ← map_or_nameFromId, Option.map_or, ← hname]
  rfl

end Markup.Fragment

namespace Context

variable {context : Context} {frames : List Frame} {name : String} {attributes : Attributes}

theorem categoryOf_eq (attributes : Attributes) :
    categoryOf attributes = ((attributes.get? "type").filter (· ≠ "")).getD "desktop" := by
  have hfilter : (fun value : String => !value.isEmpty) = fun value => decide (value ≠ "") := by
    funext value
    rw [Bool.eq_iff_iff]
    simp
  rw [categoryOf, hfilter, defaultCategory]

/-- When an application is about to close, its record gets what was said of it, with its gaps
filled. -/
theorem Follows.shows_named (h : context.Follows frames) (hwell : context.pool.WellFormed)
    (hopens : context.OpensRecord name attributes) (settings : IngestSettings)
    (children : Fragment) :
    let said : List Detail := .text .category (categoryOf attributes) :: children.details
    let id := (children.childValues "id").getLast?
    let inner := (context.start name attributes).run settings children.events
    (Completion.named settings inner.findings inner.pool context.pool.addRecord.1).Shows
      context.pool.addRecord.1
      (((Fields.ofDetails said).fillFrom (Completion.companion? settings id)).nameFrom id) := by
  intro said id inner
  obtain ⟨transition, -, hstart, -⟩ := h.start_of_opensRecord hopens
  obtain ⟨hdrafts, hat⟩ := h.drafts_start hwell hopens
  obtain ⟨description, content, captures, hinner⟩ :=
    hat.says_content hdrafts.isOpen settings children
  have hshows := (hwell.shows_addRecord.write (.text .category (categoryOf attributes))).foldl_write
    children.details
  have hid : (children.details.foldl Detail.note noFindings).id = id := by
    rw [Detail.id_foldl_note, children.ids_details, noFindings, Option.or_none]
  simp only [inner]
  rw [hinner, hstart, ← hid]
  refine Completion.shows_named hshows ?_
  rw [Detail.hasSummary_foldl_note]
  exact Bool.or_false _

/-- When an application closes, its record shows what was said of it, with its gaps filled. -/
theorem Follows.shows_stop (h : context.Follows frames) (hwell : context.pool.WellFormed)
    (hopens : context.OpensRecord name attributes) (settings : IngestSettings)
    (children : Fragment) :
    let said : List Detail := .text .category (categoryOf attributes) :: children.details
    let id := (children.childValues "id").getLast?
    (((context.start name attributes).run settings children.events).stop settings).pool.Shows
      context.pool.addRecord.1
      (((Fields.ofDetails said).fillFrom (Completion.companion? settings id)).nameFrom id) := by
  intro said id
  obtain ⟨hdrafts, hat⟩ := h.drafts_start hwell hopens
  obtain ⟨hpool, -⟩ :=
    (hdrafts.run_children hat settings children).stop_application (hat.run settings children)
      settings
  rw [hpool]
  exact Completion.shows_complete (h.shows_named hwell hopens settings children)

end Context

/-- In the end the record of an element shows what the element says of it, with its gaps filled. -/
theorem shows_element (settings : IngestSettings) {pool : Pool} (hpool : pool.WellFormed)
    {reading : Reading} (h : IsScript reading.events) {before rest : List Event} {name : String}
    {attributes : Attributes} {children : Fragment}
    (hevents : reading.events =
      before ++ .start name attributes :: (children.events ++ .stop name :: rest))
    (hopens : ((Context.initial pool).run settings before).OpensRecord name attributes) :
    let record := ((Context.initial pool).run settings before).pool.addRecord.1
    let said : List Detail := .text .category (Context.categoryOf attributes) :: children.details
    let id := (children.childValues "id").getLast?
    let entry := Completion.companion? settings id
    let fields := ((Fields.ofDetails said).fillFrom entry).nameFrom id
    let final := (ingestReading settings pool reading).pool
    record ∈ ((Context.initial pool).run settings reading.events).completed ∧
      (∀ key, final.lookupList record key = fields.list key) ∧
      (∀ key, final.lookupText record key = fields.text key) ∧
      (final.name? record).bind final.resolve? =
        (((children.childValues "name").getLast?.or (entry.bind DesktopEntry.name)).or
          (id.map idStem)).map fun name => "application:" ++ name := by
  intro record said id entry fields final
  obtain ⟨events, failure⟩ := reading
  obtain rfl : events = _ := hevents
  obtain ⟨hcompleted, hkept⟩ := kept_element settings hpool failure h hopens
  have hshows := (Context.follows_run settings pool h.of_append).shows_stop
    (Context.sound_run settings hpool h.of_append).pool hopens settings children
  refine ⟨hcompleted, fun key => ?_, fun key => ?_, ?_⟩
  · exact (hkept.lookupList key).trans (hshows.list key)
  · exact (hkept.lookupText key).trans (hshows.text key)
  · exact (hshows.resolved_name hkept).trans (children.name_details _ _ _)

/-- Each completed record is that of an element, and the children of the element give its fields:
of a list all values in their order, of any other field the last one. Only a summary and a name
that are missing come from elsewhere: from the desktop entry of the id, and the name from the id
itself. -/
theorem ingestReading_fields (settings : IngestSettings) (pool : Pool) (events : List Event)
    (failure : Option Failure) (hpool : pool.Reachable) (hscript : IsScript events) :
    let reading := (Context.initial pool).run settings
    let final := (ingestReading settings pool ⟨events, failure⟩).pool
    (∀ record ∈ (reading events).completed,
      ∃ before name attributes rest, ∃ children : Fragment,
        events = before ++ .start name attributes :: (children.events ++ .stop name :: rest) ∧
          (reading before).OpensRecord name attributes ∧
            (reading before).pool.addRecord.1 = record) ∧
      ∀ before name attributes rest (children : Fragment),
        events = before ++ .start name attributes :: (children.events ++ .stop name :: rest) →
        (reading before).OpensRecord name attributes →
          let record := (reading before).pool.addRecord.1
          let id := (children.childValues "id").getLast?
          let entry := Completion.companion? settings id
          record ∈ (reading events).completed ∧
            final.lookupList record .license = children.childValues "product_license" ∧
            final.lookupList record .group = children.childValues "project_group" ∧
            final.lookupList record .extensions = children.childValues "extends" ∧
            final.lookupList record .keywords =
              ((children.contents "keywords").flatMap fun keywords =>
                keywords.childValues "keyword") ∧
            final.lookupList record .files = [] ∧
            final.lookupText record .url = (children.childValues "url").getLast? ∧
            final.lookupText record .category =
              some (((attributes.get? "type").filter (· ≠ "")).getD "desktop") ∧
            final.lookupText record .description =
              ((children.contents "description").filterMap Fragment.rendering?).getLast? ∧
            final.lookupText record .summary =
              (children.childValues "summary").getLast?.or (entry.bind DesktopEntry.comment) ∧
            (final.name? record).bind final.resolve? =
              (((children.childValues "name").getLast?.or (entry.bind DesktopEntry.name)).or
                (id.map idStem)).map fun name => "application:" ++ name := by
  intro reading final
  constructor
  · exact fun record hrecord => Context.exists_element_of_completed settings pool hscript hrecord
  intro before name attributes rest children hevents hopens record id entry
  have hreading : IsScript (Reading.mk events failure).events := hscript
  obtain ⟨hcompleted, hlist, htext, hname⟩ :=
    shows_element settings hpool.wellFormed hreading hevents hopens
  simp only [Fields.ofDetails_category] at hlist htext
  obtain ⟨hlicense, hgroup, hextensions, hkeywords, hfiles, hurl, hsummary, hcategory,
    hdescription, -⟩ := children.ofDetails_details
  refine ⟨hcompleted, (hlist .license).trans hlicense, (hlist .group).trans hgroup,
    (hlist .extensions).trans hextensions, (hlist .keywords).trans hkeywords,
    (hlist .files).trans hfiles, (htext .url).trans ?_, (htext .category).trans ?_,
    (htext .description).trans ?_, (htext .summary).trans ?_, hname⟩
  · simp [Fields.nameFrom, Fields.fillFrom, hurl]
  · simp [Fields.nameFrom, Fields.fillFrom, hcategory, Context.categoryOf_eq]
  · simp [Fields.nameFrom, Fields.fillFrom, hdescription]
  · simp [Fields.nameFrom, Fields.fillFrom, hsummary, id, entry]

/-- Repeated and localized children, an empty type, an unknown element in a summary, a description
without text after another one, and a name after an id. -/
theorem ingestReading_fields_repeated :
    let german : Attributes := ⟨[("xml:lang", "de")]⟩
    let children : Fragment :=
      .element "summary" .empty
        (.text " One " (.element "em" german (.text "clock" .empty) .empty)) <|
      .element "summary" german (.text "Eine Uhr" .empty) <|
      .element "id" .empty (.text "clock.desktop" .empty) <|
      .element "name" .empty (.text " Clock" .empty) <|
      .element "name" german (.text "Uhr" .empty) <|
      .element "product_license" .empty (.text "MIT" .empty) <|
      .element "product_license" .empty (.text " MIT " .empty) <|
      .element "keywords" .empty (.element "keyword" .empty (.text "time" .empty) .empty) <|
      .element "keywords" .empty (.element "keyword" .empty .empty .empty) <|
      .element "description" .empty (.element "p" .empty (.text "Tells the time" .empty) .empty) <|
      .element "description" .empty .empty .empty
    let events := Event.start "component" ⟨[("type", "")]⟩ :: (children.events ++
      [.stop "component", .start "component" .empty])
    let final := (ingestReading (.ofFlags .none) .empty ⟨events, some .unreadable⟩).pool
    final.lookupList ⟨0⟩ .license = ["MIT", "MIT"] ∧
      final.lookupList ⟨0⟩ .keywords = ["time", ""] ∧
      final.lookupText ⟨0⟩ .category = some "desktop" ∧
      final.lookupText ⟨0⟩ .description = some "Tells the time" ∧
      final.lookupText ⟨0⟩ .summary = some "One clock" ∧
      final.lookupText ⟨0⟩ .url = none ∧
      (final.name? ⟨0⟩).bind final.resolve? = some "application:Clock" := by
  intro german children events final
  have hscript : IsScript events := isScript_iff.mpr ⟨["component"], rfl⟩
  obtain ⟨-, hfields⟩ :=
    ingestReading_fields (.ofFlags .none) .empty events (some .unreadable) ⟨[], rfl⟩ hscript
  obtain ⟨-, hlicense, -, -, hkeywords, -, hurl, hcategory, hdescription, hsummary, hname⟩ :=
    hfields [] "component" ⟨[("type", "")]⟩ [.start "component" .empty] children rfl
      ⟨rfl, by decide +kernel⟩
  refine ⟨hlicense.trans ?_, hkeywords.trans ?_, hcategory.trans ?_, hdescription.trans ?_,
    hsummary.trans ?_, hurl.trans ?_, hname.trans ?_⟩ <;> cbv

end Metainfo
