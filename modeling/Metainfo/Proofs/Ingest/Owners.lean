import Metainfo.Proofs.Ingest.Portrait

/-!
The names of the owners. A record that a document makes has as an owner the name that its
application gives it, any other record the name that it had beforehand.
-/

namespace Metainfo

open Metainfo.Markup
open Metainfo.Naming

/-- The application whose record is the given one, if the first records to be made are those of the
given applications. -/
def Pool.maker? (pool : Pool) (applications : List Application) (record : RecordId) :
    Option Application :=
  if pool.addRecord.1.index ≤ record.index then
    applications[record.index - pool.addRecord.1.index]?
  else none

/-- The name of an owner once the given applications are read. -/
def IngestSettings.ownerName? (settings : IngestSettings) (pool : Pool)
    (applications : List Application) (owner : RecordId) : Option String :=
  match pool.maker? applications owner with
  | some application => (application.fields settings).name
  | none => (pool.name? owner).bind pool.resolve?

def IngestSettings.ownerNames (settings : IngestSettings) (pool : Pool)
    (applications : List Application) : List String :=
  settings.owners.filterMap (settings.ownerName? pool applications)

/-- The numbers of the owners' names were given out by the pool. -/
def IngestSettings.OwnersKnown (settings : IngestSettings) (pool : Pool) : Prop :=
  ∀ owner ∈ settings.owners, ∀ name, pool.name? owner = some name → pool.Knows name

namespace Pool

variable {pool : Pool} {applications : List Application} {application : Application}
  {record : RecordId} {field : Option StringId} {text : Option String}

theorem maker?_eq_some (h : pool.maker? applications record = some application) :
    ∃ index, applications[index]? = some application ∧
      record = ⟨pool.addRecord.1.index + index⟩ := by
  rw [maker?] at h
  split at h
  · rename_i hle
    exact ⟨_, h, congrArg RecordId.mk (Nat.add_sub_of_le hle).symm⟩
  · contradiction

/-- A record without maker is none of those that the applications make. -/
theorem not_mem_of_maker?_eq_none (h : pool.maker? applications record = none) :
    record ∉ pool.nextRecords applications.length := by
  intro hmem
  obtain ⟨hle, hlt⟩ := mem_nextRecords.mp hmem
  rw [maker?, addRecord_fst, if_pos hle, List.getElem?_eq_none_iff] at h
  have hcount : applications.length ≤ record.index - pool.slots.size := h
  omega

theorem map_resolve?_of_knows (h : ∀ number, field = some number → pool.Knows number) :
    field.map pool.resolve? = (field.bind pool.resolve?).map some := by
  cases field with
  | none => rfl
  | some number =>
      obtain ⟨text, htext⟩ := h number rfl
      rw [Option.map_some, Option.bind_some, htext, Option.map_some]

theorem bind_resolve?_of_map (h : field.map pool.resolve? = text.map some) :
    field.bind pool.resolve? = text ∧ ∀ number, field = some number → pool.Knows number := by
  cases field with
  | none =>
      refine ⟨(Option.map_eq_none_iff.mp h.symm).symm, fun number hnumber => ?_⟩
      contradiction
  | some number =>
      obtain ⟨found, hfound, hsome⟩ := Option.map_eq_some_iff.mp h.symm
      rw [Option.bind_some, hfound, ← hsome]
      exact ⟨rfl, fun other hother => ⟨found, Option.some.inj hother ▸ hsome.symm⟩⟩

end Pool

/-- What is not among the records of a document keeps its name. -/
theorem Context.name?_run (settings : IngestSettings) {pool : Pool} (hpool : pool.WellFormed)
    {events : List Event} (h : IsScript events) {owner : RecordId}
    (howner : owner ∉ pool.nextRecords
      (StartTag.closedRecords [] events +
        ((Context.initial pool).run settings events).record.toList.length)) :
    ((Context.initial pool).run settings events).pool.name? owner = pool.name? owner := by
  cases hlive : pool.isLive owner with
  | true =>
      obtain ⟨names, hnames⟩ := isScript_iff.mp h
      have hsettled : (Context.initial pool).Settled owner :=
        ⟨hpool, hlive, by simp [Context.initial]⟩
      exact (hsettled.run (Context.follows_initial pool) settings rfl hnames).2.name?
  | false =>
      have hnumbered := Context.numbered_run settings pool h
      have hdead : ((Context.initial pool).run settings events).pool.isLive owner = false := by
        rw [Bool.eq_false_iff]
        intro hnew
        rcases (hnumbered.isLive owner).mp hnew with hold | hbounds
        · rw [hlive] at hold
          contradiction
        · rw [hnumbered.size, Nat.add_assoc] at hbounds
          exact howner (Pool.mem_nextRecords.mpr hbounds)
      rw [Pool.isLive, Option.isSome_eq_false_iff, Option.isNone_iff_eq_none] at hlive hdead
      rw [Pool.name?, Pool.name?, hlive, hdead]

namespace Application.Stands

variable {application : Application} {index : Nat} {before rest events : List Event}

/-- The record of an application that is closed has the name that the application gives it. -/
theorem name_run (h : application.Stands index [] before rest events)
    (happlication : application.tag.isApplication = true) (hscript : IsScript events)
    (settings : IngestSettings) {pool : Pool} (hpool : pool.WellFormed) :
    let later := (Context.initial pool).run settings events
    let record : RecordId := ⟨pool.addRecord.1.index + index⟩
    (later.pool.name? record).map later.pool.resolve? =
        (application.fields settings).name.map some ∧ later.record ≠ some record := by
  intro later record
  obtain ⟨hopens, hrecord⟩ := h.opensRecord happlication hscript settings pool
  have hevents : events = before ++ .start application.tag.name application.tag.attributes ::
      (application.content.events ++ [.stop application.tag.name]) ++ rest := by
    simp [h.events_eq]
  rw [hevents] at hscript
  have hbefore : IsScript before := hscript.of_append.of_append
  obtain ⟨hclosed, -, hsettled⟩ :=
    Context.settled_element settings hpool hscript.of_append hopens
  have hshows := (Context.follows_run settings pool hbefore).shows_stop
    (Context.sound_run settings hpool hbefore).pool hopens settings application.content
  rw [← hclosed] at hshows
  obtain ⟨hend, hkept⟩ := Context.kept_run settings pool hscript hsettled
  have hname := hshows.name_of_extends hkept.strings hkept.name?
  rw [hrecord, ← hevents] at hend hname
  exact ⟨hname, hend.notOpen⟩

/-- An application that is about to close has given its record its name. -/
theorem name_named (h : application.Stands index [] before rest events)
    (happlication : application.tag.isApplication = true) (hscript : IsScript events)
    (settings : IngestSettings) {pool : Pool} (hpool : pool.WellFormed) :
    let record : RecordId := ⟨pool.addRecord.1.index + index⟩
    let inner := (Context.initial pool).run settings (before ++
      .start application.tag.name application.tag.attributes :: application.content.events)
    let named := Completion.named settings inner.findings inner.pool record
    (named.name? record).map named.resolve? = (application.fields settings).name.map some := by
  intro record inner named
  obtain ⟨hopens, hrecord⟩ := h.opensRecord happlication hscript settings pool
  obtain ⟨hinner, -⟩ := h.run_opened happlication hscript settings pool
  rw [h.events_eq] at hscript
  have hshows := (Context.follows_run settings pool hscript.of_append).shows_named
    (Context.sound_run settings hpool hscript.of_append).pool hopens settings application.content
  rw [← hinner, hrecord] at hshows
  exact hshows.name

/-- The completion of a record keeps the name of any other record. -/
theorem kept_named (h : application.Stands index [] before rest events)
    (happlication : application.tag.isApplication = true) (hscript : IsScript events)
    (settings : IngestSettings) {pool : Pool} (hpool : pool.WellFormed) {owner : RecordId}
    (hother : owner ≠ ⟨pool.addRecord.1.index + index⟩) :
    let record : RecordId := ⟨pool.addRecord.1.index + index⟩
    let inner := (Context.initial pool).run settings (before ++
      .start application.tag.name application.tag.attributes :: application.content.events)
    Pool.Kept owner inner.pool
      (Completion.named settings inner.findings inner.pool record) := by
  intro record inner
  obtain ⟨-, hopened, -⟩ := h.run_opened happlication hscript settings pool
  exact .edited (Completion.editedTo_named settings inner.findings inner.pool record)
    (Context.sound_run settings hpool hopened).pool hother

/-- An owner that the document does not make has the name from before. -/
theorem name?_named (h : application.Stands index [] before rest events)
    (happlication : application.tag.isApplication = true) (hscript : IsScript events)
    (settings : IngestSettings) {pool : Pool} (hpool : pool.WellFormed) {owner : RecordId}
    (howner : owner ∉ pool.nextRecords (index + 1)) {text : Option String}
    (hname : (pool.name? owner).map pool.resolve? = text.map some) :
    let record : RecordId := ⟨pool.addRecord.1.index + index⟩
    let inner := (Context.initial pool).run settings (before ++
      .start application.tag.name application.tag.attributes :: application.content.events)
    let named := Completion.named settings inner.findings inner.pool record
    (named.name? owner).map named.resolve? = text.map some := by
  intro record inner named
  obtain ⟨-, hopened, hrecord⟩ := h.run_opened happlication hscript settings pool
  have hother : owner ≠ record := by
    rintro rfl
    exact howner (Pool.mem_nextRecords.mpr ⟨Nat.le_add_right _ _, Nat.lt_succ_self _⟩)
  have hsame : inner.pool.name? owner = pool.name? owner := by
    refine Context.name?_run settings hpool hopened ?_
    rw [h.closedRecords_open happlication, hrecord]
    exact howner
  have hkept := h.kept_named happlication hscript settings hpool hother
  rw [hkept.name?, hsame]
  exact Pool.map_resolve?_of_extends
    ((Context.strings_run_extends settings pool hopened).trans hkept.strings) hname

/-- An owner that the document has made before has the name that its application gives it. -/
theorem name_named_of_lt (h : application.Stands index [] before rest events)
    (happlication : application.tag.isApplication = true) {document : Fragment}
    (hevents : events <+: document.events) (settings : IngestSettings) {pool : Pool}
    (hpool : pool.WellFormed) {maker : Application} {place : Nat}
    (hmade : document.recorded[place]? = some maker) (hplace : place < index) :
    let record : RecordId := ⟨pool.addRecord.1.index + index⟩
    let owner : RecordId := ⟨pool.addRecord.1.index + place⟩
    let inner := (Context.initial pool).run settings (before ++
      .start application.tag.name application.tag.attributes :: application.content.events)
    let named := Completion.named settings inner.findings inner.pool record
    (named.name? owner).map named.resolve? = (maker.fields settings).name.map some := by
  intro record owner inner named
  have hscript : IsScript events := ⟨document, hevents⟩
  obtain ⟨-, hopened, hrecord⟩ := h.run_opened happlication hscript settings pool
  have hprefix : before ++ .start application.tag.name application.tag.attributes ::
      application.content.events <+: document.events := by
    refine List.IsPrefix.trans ?_ hevents
    rw [h.events_eq, ← List.cons_append, ← List.append_assoc]
    exact List.prefix_append _ _
  obtain ⟨hmakes, earlier, later, hstands⟩ := exists_stands_of_prefix hprefix
    (by rwa [h.closedRecords_open happlication, List.getElem?_take_of_lt hplace])
  obtain ⟨hname, hclosed⟩ := hstands.name_run hmakes hopened settings hpool
  have hother : owner ≠ record := fun heq => hclosed (hrecord.trans (congrArg some heq.symm))
  have hkept := h.kept_named happlication hscript settings hpool hother
  rw [hkept.name?]
  exact Pool.map_resolve?_of_extends hkept.strings hname

/-- While a record is completed, an owner has the name that its application gives it, or else the
name from before. -/
theorem ownerName?_named (h : application.Stands index [] before rest events)
    (happlication : application.tag.isApplication = true) {document : Fragment}
    (hevents : events <+: document.events) (hplace : document.recorded[index]? = some application)
    (settings : IngestSettings) {pool : Pool} (hpool : pool.WellFormed) {owner : RecordId}
    (howner : ∀ name, pool.name? owner = some name → pool.Knows name) :
    let record : RecordId := ⟨pool.addRecord.1.index + index⟩
    let inner := (Context.initial pool).run settings (before ++
      .start application.tag.name application.tag.attributes :: application.content.events)
    let named := Completion.named settings inner.findings inner.pool record
    (named.name? owner).map named.resolve? =
      (settings.ownerName? pool (document.recorded.take (index + 1)) owner).map some := by
  intro record inner named
  have hscript : IsScript events := ⟨document, hevents⟩
  rw [IngestSettings.ownerName?]
  cases hmaker : pool.maker? (document.recorded.take (index + 1)) owner with
  | none =>
      have hnew := Pool.not_mem_of_maker?_eq_none hmaker
      obtain ⟨hlt, -⟩ := List.getElem?_eq_some_iff.mp hplace
      rw [List.length_take, Nat.min_eq_left hlt] at hnew
      exact h.name?_named happlication hscript settings hpool hnew
        (Pool.map_resolve?_of_knows howner)
  | some maker =>
      obtain ⟨place, hmade, rfl⟩ := Pool.maker?_eq_some hmaker
      rw [List.getElem?_take] at hmade
      split at hmade
      · rename_i hle
        rcases Nat.lt_succ_iff_lt_or_eq.mp hle with hearlier | rfl
        · exact h.name_named_of_lt happlication hevents settings hpool hmade hearlier
        · obtain rfl := Option.some.inj (hplace.symm.trans hmade)
          exact h.name_named happlication hscript settings hpool
      · contradiction

end Application.Stands

/-- In the end the record of each application is as its portrait. The names of the owners that are
in it are known if those that they have beforehand are. -/
theorem exists_depicts_of_prefix {document : Fragment} {events : List Event} {index : Nat}
    {application : Application} (hevents : events <+: document.events)
    (happlication :
      (document.recorded.take (StartTag.closedRecords [] events))[index]? = some application)
    (settings : IngestSettings) {pool : Pool} (hpool : pool.WellFormed)
    (failure : Option Failure) :
    ∃ owners,
      (ingestReading settings pool ⟨events, failure⟩).pool.Depicts
        ⟨pool.addRecord.1.index + index⟩ (application.portrait settings owners) ∧
        (settings.OwnersKnown pool →
          owners = settings.ownerNames pool (document.recorded.take (index + 1))) := by
  have hscript : IsScript events := ⟨document, hevents⟩
  obtain ⟨hmakes, before, rest, hstands⟩ := exists_stands_of_prefix hevents happlication
  refine ⟨_, hstands.depicts hmakes hscript settings hpool failure, fun howners => ?_⟩
  have hplace : document.recorded[index]? = some application := by
    rw [List.getElem?_take] at happlication
    split at happlication
    · exact happlication
    · contradiction
  have hname (owner : RecordId) (howner : owner ∈ settings.owners) :=
    Pool.bind_resolve?_of_map (hstands.ownerName?_named hmakes hevents hplace settings hpool
      (howners owner howner))
  rw [Completion.ownerNames_of_knows (fun _ _ => rfl) (.refl _) fun owner howner =>
    (hname owner howner).2]
  exact List.filterMap_congr fun owner howner => (hname owner howner).1

/-! The name that a record gets last is the next text that the pool learns. An owner can have the
number of that text before it is given out, and then it has the same name. -/

namespace Completion

variable {settings : IngestSettings} {findings : Findings} {pool later last : Pool}
  {record : RecordId}

/-- The second pool knows the same texts as the first one, and the record has the same name. -/
structure SameName (record : RecordId) (pool later : Pool) : Prop where
  strings : later.strings = pool.strings
  name? : later.name? record = pool.name? record
  isLive : later.isLive record = pool.isLive record

namespace SameName

theorem refl (record : RecordId) (pool : Pool) : SameName record pool pool :=
  ⟨rfl, rfl, rfl⟩

theorem trans (h : SameName record pool later) (hlast : SameName record later last) :
    SameName record pool last :=
  ⟨hlast.strings.trans h.strings, hlast.name?.trans h.name?, hlast.isLive.trans h.isLive⟩

theorem update (record : RecordId) (pool : Pool) {change : Record → Record}
    (h : ∀ found, (change found).name = found.name) :
    SameName record pool (pool.update record change) :=
  ⟨Pool.strings_update .., Pool.name?_update h record, Pool.isLive_update ..⟩

theorem setText (record : RecordId) (pool : Pool) (key : TextKey) (value : String) :
    SameName record pool (pool.setText record key value) where
  strings := Pool.strings_stage ..
  name? := by rw [Pool.setText, Pool.name?, Pool.record?_stage, Pool.name?]
  isLive := Pool.isLive_congr (Pool.record?_stage ..)

theorem fillDefaults (pool : Pool) (record : RecordId) :
    SameName record pool (fillDefaults pool record) := by
  rw [Completion.fillDefaults]
  have harch : SameName record pool (pool.setArch record .noarch) := update record pool fun _ => rfl
  have hversion (pool : Pool) : SameName record pool (pool.setVersion record .empty) :=
    update record pool fun _ => rfl
  split <;> split
  · exact harch.trans (hversion _)
  · exact harch
  · exact hversion pool
  · exact refl record pool

theorem summaryFromEntry (findings : Findings) (entry : DesktopEntry) (pool : Pool)
    (record : RecordId) : SameName record pool (summaryFromEntry findings entry pool record) := by
  rw [Completion.summaryFromEntry]
  split
  · exact setText record pool _ _
  · exact refl record pool

end SameName

/-- The record is named, and the name is the one text that the second pool knows besides. -/
structure LearnsName (record : RecordId) (name : String) (pool later : Pool) : Prop where
  name? : later.name? record = some (pool.strings.intern name).1
  strings : later.strings = (pool.strings.intern name).2

namespace LearnsName

variable {name : String}

theorem trans (h : LearnsName record name pool later) (hlast : SameName record later last) :
    LearnsName record name pool last :=
  ⟨hlast.name?.trans h.name?, hlast.strings.trans h.strings⟩

theorem setNameText (h : SameName record pool later) (hlive : pool.isLive record = true)
    (name : String) : LearnsName record name pool (setNameText later record name) := by
  obtain ⟨found, hfound⟩ := Pool.isLive_iff.mp (h.isLive.trans hlive)
  rw [Completion.setNameText]
  constructor
  · rw [← h.strings]
    simp [Pool.setName, Pool.name?, Pool.record?_update, hfound]
  · rw [← h.strings]
    exact Pool.strings_update ..

/-- The id does not matter for a record that has a name. -/
theorem fillNameFromId (h : LearnsName record name pool later) (findings : Findings) :
    LearnsName record name pool (fillNameFromId findings later record) := by
  rw [Completion.fillNameFromId, h.name?]
  cases findings.id <;> exact h

theorem of_id (h : SameName record pool later) (hlive : pool.isLive record = true)
    (hnone : pool.name? record = none) (hname : findings.id.map nameFromId = some name) :
    LearnsName record name pool (Completion.fillNameFromId findings later record) := by
  obtain ⟨id, hid, rfl⟩ := Option.map_eq_some_iff.mp hname
  rw [Completion.fillNameFromId, hid, h.name?.trans hnone]
  exact setNameText h hlive (nameFromId id)

end LearnsName

/-- A record without a name gets its name from the desktop entry or from the id, as the one text
that the pool learns. -/
theorem learnsName_named (hlive : pool.isLive record = true) (hnone : pool.name? record = none)
    {name : String}
    (hname : (((companion? settings findings.id).bind DesktopEntry.name).map applicationName).or
      (findings.id.map nameFromId) = some name) :
    LearnsName record name pool (named settings findings pool record) := by
  have hdefaults := SameName.fillDefaults pool record
  have hmissing := hdefaults.name?.trans hnone
  have hgap : ((fillDefaults pool record).name? record).isNone || !findings.hasSummary := by
    rw [hmissing]
    rfl
  rw [named_eq, fillIfFound, entry?_eq hgap]
  cases hentry : companion? settings findings.id with
  | none =>
      rw [hentry] at hname
      exact .of_id hdefaults hlive hnone hname
  | some entry =>
      dsimp only
      rw [hentry, Option.bind_some] at hname
      rw [fillFromEntry_eq, nameFromEntry, hmissing]
      cases hsaid : entry.name with
      | none =>
          rw [hsaid] at hname
          exact .of_id (hdefaults.trans (.summaryFromEntry findings entry _ record)) hlive hnone
            hname
      | some text =>
          rw [hsaid] at hname
          obtain rfl := Option.some.inj hname
          exact ((LearnsName.setNameText hdefaults hlive _).trans
            (.summaryFromEntry findings entry _ record)).fillNameFromId findings

end Completion

/-- A record of which only an id is said gets as its name the next text that the pool learns. -/
theorem Context.Follows.learnsName_named {context : Context} {frames : List Frame}
    {application : Application} {id name : String} (h : context.Follows frames)
    (hopens : context.OpensRecord application.tag.name application.tag.attributes)
    (hdetails : application.content.details = [.id id]) (settings : IngestSettings)
    (hname : (((Completion.companion? settings (some id)).bind DesktopEntry.name).map
      applicationName).or (some (nameFromId id)) = some name) :
    let record := context.pool.addRecord.1
    let inner := (context.start application.tag.name application.tag.attributes).run settings
      application.content.events
    Completion.LearnsName record name context.pool
      (Completion.named settings inner.findings inner.pool record) := by
  intro record inner
  obtain ⟨transition, -, hstart, hat⟩ := h.start_of_opensRecord hopens
  obtain ⟨description, content, captures, hinner⟩ :=
    hat.says_content (by rw [hstart]) settings application.content
  rw [hdetails] at hinner
  have hpool : inner.pool = context.pool.addRecord.2.setText record .category
      (categoryOf application.tag.attributes) := by
    simp only [inner]
    rw [hinner, hstart]
    rfl
  have hfindings : inner.findings = ⟨some id, false⟩ := by
    simp only [inner]
    rw [hinner, hstart]
    rfl
  have hsame := Completion.SameName.setText record context.pool.addRecord.2 .category
    (categoryOf application.tag.attributes)
  rw [← hpool] at hsame
  have hlive : inner.pool.isLive record = true := by
    rw [hsame.isLive]
    exact (Pool.isLive_addRecord_iff context.pool record).mpr (Or.inr rfl)
  have hnone : inner.pool.name? record = none := by
    rw [hsame.name?, Pool.name?, Pool.record?_addRecord, if_pos (Pool.addRecord_fst _)]
    rfl
  have hlearns : Completion.LearnsName record name inner.pool
      (Completion.named settings inner.findings inner.pool record) := by
    refine Completion.learnsName_named hlive hnone ?_
    rw [hfindings]
    exact hname
  have hstrings : inner.pool.strings = context.pool.strings := hsame.strings
  exact ⟨hstrings ▸ hlearns.name?, hstrings ▸ hlearns.strings⟩

/-- If an owner is the record itself, or its name has the number that the pool gives out next, it
has the name of the record. -/
theorem Application.Stands.ownerNames_next {application : Application} {rest events : List Event}
    (h : application.Stands 0 [] [] rest events)
    (happlication : application.tag.isApplication = true) (hscript : IsScript events)
    {settings : IngestSettings} {pool : Pool} (hpool : pool.WellFormed) {id name : String}
    (hdetails : application.content.details = [.id id])
    (hname : (((Completion.companion? settings (some id)).bind DesktopEntry.name).map
      applicationName).or (some (nameFromId id)) = some name) {owner : RecordId}
    (howner : owner = pool.addRecord.1 ∨
      pool.isLive owner ∧ pool.name? owner = some (pool.strings.intern name).1) :
    let record := pool.addRecord.1
    let inner := (Context.initial pool).run settings
      (.start application.tag.name application.tag.attributes :: application.content.events)
    Completion.ownerNames (Completion.named settings inner.findings inner.pool record) [owner] =
      [name] := by
  intro record inner
  let named := Completion.named settings inner.findings inner.pool record
  obtain ⟨hopens, -⟩ := h.opensRecord happlication hscript settings pool
  obtain ⟨hinner, hopened, hrecord⟩ := h.run_opened happlication hscript settings pool
  have hlearns := (Context.follows_initial pool).learnsName_named hopens hdetails settings hname
  rw [List.nil_append, Context.run_nil] at hinner
  rw [← hinner] at hlearns
  change Completion.LearnsName record name pool named at hlearns
  have hnumber : named.name? owner = some (pool.strings.intern name).1 := by
    rcases howner with rfl | ⟨hlive, howner⟩
    · exact hlearns.name?
    · have hsettled : ((Context.initial pool).run settings []).Settled owner :=
        ⟨hpool, hlive, by simp [Context.initial, Context.run_nil]⟩
      obtain ⟨hlater, hkept⟩ := Context.kept_run settings pool hopened hsettled
      have hother : owner ≠ record := fun heq => hlater.notOpen (heq ▸ hrecord)
      have hnamed := h.kept_named happlication hscript settings hpool hother
      exact (hnamed.name?.trans hkept.name?).trans howner
  have hresolve : named.resolve? (pool.strings.intern name).1 = some name := by
    rw [Pool.resolve?, hlearns.strings]
    exact hpool.strings.resolve?_intern name
  rw [Completion.ownerNames, hnumber, Option.bind_some, hresolve]
  rfl

end Metainfo
