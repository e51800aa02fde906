import Metainfo.Proofs.Ingest.Completion

/-!
The name and the attributes of a record while it is completed. Its relations do not matter for
them, and what a desktop entry or the id adds only fills gaps.
-/

namespace Metainfo

open Metainfo.Naming

/-- The name and the attributes of a record. -/
structure Fields where
  name : Option String
  text : TextKey → Option String
  list : ListKey → List String

namespace Fields

/-- A desktop entry gives a missing name and a missing summary. -/
def fillFrom (fields : Fields) (entry : Option DesktopEntry) : Fields where
  name := fields.name.or ((entry.bind DesktopEntry.name).map applicationName)
  text key :=
    (fields.text key).or (if key = .summary then entry.bind DesktopEntry.comment else none)
  list := fields.list

/-- An id gives a name that is still missing. -/
def nameFrom (fields : Fields) (id : Option String) : Fields :=
  { fields with name := fields.name.or (id.map nameFromId) }

theorem fillFrom_none (fields : Fields) : fields.fillFrom none = fields := by
  simp [fillFrom]

theorem text_fillFrom_of_isSome {fields : Fields} (h : (fields.text .summary).isSome)
    (entry : Option DesktopEntry) : (fields.fillFrom entry).text = fields.text := by
  funext key
  by_cases hkey : key = .summary
  · subst hkey
    exact Option.or_of_isSome h
  · simp [fillFrom, hkey]

/-- Where there are no gaps the desktop entry does not matter. -/
theorem fillFrom_of_isSome {fields : Fields} (hname : fields.name.isSome)
    (hsummary : (fields.text .summary).isSome) (entry : Option DesktopEntry) :
    fields.fillFrom entry = fields := by
  have hnamed : (fields.fillFrom entry).name = fields.name := Option.or_of_isSome hname
  calc
    fields.fillFrom entry
      = ⟨(fields.fillFrom entry).name, (fields.fillFrom entry).text, fields.list⟩ := rfl
    _ = fields := by rw [hnamed, text_fillFrom_of_isSome hsummary]

end Fields

/-- What look-ups in the pool show of a record. -/
structure Pool.Shows (pool : Pool) (record : RecordId) (fields : Fields) : Prop where
  wellFormed : pool.WellFormed
  isLive : pool.isLive record = true
  name : (pool.name? record).map pool.resolve? = fields.name.map some
  text : ∀ key, pool.lookupText record key = fields.text key
  list : ∀ key, pool.lookupList record key = fields.list key

namespace Pool.Shows

variable {pool later : Pool} {record : RecordId} {fields : Fields}

theorem isNone_name? (h : pool.Shows record fields) :
    (pool.name? record).isNone = fields.name.isNone := by
  have hname := congrArg Option.isNone h.name
  simpa using hname

/-- A number that stands for a text still does so later. -/
theorem name_of_extends (h : pool.Shows record fields)
    (hstrings : pool.strings.Extends later.strings)
    (hname : later.name? record = pool.name? record) :
    (later.name? record).map later.resolve? = fields.name.map some := by
  rw [hname, ← h.name]
  have hnumber := h.name
  cases hfound : pool.name? record with
  | none => rfl
  | some number =>
      rw [hfound, Option.map_some] at hnumber
      cases htext : fields.name with
      | none => simp [htext] at hnumber
      | some text =>
          rw [htext] at hnumber
          have hresolve : pool.resolve? number = some text := Option.some.inj hnumber
          rw [Option.map_some, Option.map_some, hresolve]
          exact congrArg some (hstrings number text hresolve)

/-- Edits that do not concern the attributes show in the name only. -/
theorem rename (h : pool.Shows record fields) (hedited : EditedTo record pool later)
    {name : Option String} (hname : (later.name? record).map later.resolve? = name.map some)
    (hstaged : later.staged = pool.staged) (hattributes : later.attributes = pool.attributes) :
    later.Shows record { fields with name := name } where
  wellFormed := hedited.wellFormed h.wellFormed
  isLive := hedited.equalExcept.isLive.trans h.isLive
  name := hname
  text key := by rw [lookupText_of_same hstaged hattributes, h.text]
  list key := by
    rw [h.wellFormed.lookupList_of_extends hedited.equalExcept.strings hstaged hattributes, h.list]

theorem keep (h : pool.Shows record fields) (hedited : EditedTo record pool later)
    (hname : later.name? record = pool.name? record) (hstaged : later.staged = pool.staged)
    (hattributes : later.attributes = pool.attributes) : later.Shows record fields :=
  h.rename hedited (h.name_of_extends hedited.equalExcept.strings hname) hstaged hattributes

/-- The name still resolves where nothing has happened to the record. -/
theorem resolved_name (h : pool.Shows record fields) (hkept : Kept record pool later) :
    (later.name? record).bind later.resolve? = fields.name := by
  have hname := h.name_of_extends hkept.strings hkept.name?
  cases hfound : later.name? record with
  | none =>
      cases htext : fields.name with
      | none => rfl
      | some text => simp [hfound, htext] at hname
  | some number =>
      cases htext : fields.name with
      | none => simp [hfound, htext] at hname
      | some text => simpa [hfound, htext] using hname

theorem intern (h : pool.Shows record fields) (text : String) :
    (pool.intern text).2.Shows record fields :=
  h.keep (.intern pool text) rfl rfl rfl

theorem update (h : pool.Shows record fields) {change : Record → Record}
    (hname : ∀ found, (change found).name = found.name)
    (hedited : EditedTo record pool (pool.update record change)) :
    (pool.update record change).Shows record fields :=
  h.keep hedited (name?_update hname record) (staged_update ..) (attributes_update ..)

theorem setArch (h : pool.Shows record fields) (arch : StringId) :
    (pool.setArch record arch).Shows record fields :=
  h.update (fun _ => rfl) (.setArch pool arch)

theorem setVersion (h : pool.Shows record fields) (version : StringId) :
    (pool.setVersion record version).Shows record fields :=
  h.update (fun _ => rfl) (.setVersion pool version)

theorem addRequires (h : pool.Shows record fields) (relation : Relation) :
    (pool.addRequires record relation).Shows record fields :=
  h.update (fun _ => rfl) (.addRequires pool relation)

theorem addProvides (h : pool.Shows record fields) (relation : Relation) :
    (pool.addProvides record relation).Shows record fields :=
  h.update (fun _ => rfl) (.addProvides pool relation)

theorem setNameText (h : pool.Shows record fields) (name : String) :
    (Completion.setNameText pool record name).Shows record
      { fields with name := some name } := by
  obtain ⟨found, hfound⟩ := isLive_iff.mp h.isLive
  have hname : (Completion.setNameText pool record name).name? record =
      some (pool.intern name).1 := by
    simp [Completion.setNameText, setName, name?, record?_update, hfound]
  have hstrings : (Completion.setNameText pool record name).strings =
      (pool.strings.intern name).2 := strings_update ..
  apply h.rename (Completion.editedTo_setNameText pool record name)
  · rw [hname, Option.map_some, Pool.resolve?, hstrings]
    exact congrArg some (h.wellFormed.strings.resolve?_intern name)
  · exact staged_update ..
  · exact attributes_update ..

/-- A value that is written replaces the one before. -/
theorem setText (h : pool.Shows record fields) (key : TextKey) (value : String) :
    (pool.setText record key value).Shows record
      { fields with text := Function.update fields.text key (some value) } := by
  have hedited : EditedTo record pool (pool.setText record key value) := .setText pool key value
  refine ⟨hedited.wellFormed h.wellFormed, hedited.equalExcept.isLive.trans h.isLive,
    h.name_of_extends hedited.equalExcept.strings ?_, ?_, ?_⟩
  · rw [Pool.setText, name?, record?_stage, ← name?]
  · intro other
    rw [Pool.setText, lookupText_stage h.isLive, h.text]
    by_cases hkey : key = other
    · subst hkey
      simp [writtenText]
    · simp [writtenText, hkey, Function.update_of_ne (Ne.symm hkey)]
  · intro other
    rw [Pool.setText, lookupList_stage h.isLive, h.list]
    exact List.append_nil _

/-- A value that is added comes after those before. -/
theorem addToList (h : pool.Shows record fields) (key : ListKey) (value : String) :
    (pool.addToList record key value).Shows record
      { fields with list := Function.update fields.list key (fields.list key ++ [value]) } := by
  have hedited : EditedTo record pool (pool.addToList record key value) :=
    .addToList pool key value
  refine ⟨hedited.wellFormed h.wellFormed, hedited.equalExcept.isLive.trans h.isLive,
    h.name_of_extends hedited.equalExcept.strings ?_, ?_, ?_⟩
  · rw [Pool.addToList, name?, record?_stage, ← name?]
  · intro other
    rw [Pool.addToList, lookupText_stage h.isLive, h.text]
    rfl
  · intro other
    rw [Pool.addToList, lookupList_stage h.isLive, h.list]
    by_cases hkey : key = other
    · subst hkey
      simp [addedValue]
    · simp [addedValue, hkey, Function.update_of_ne (Ne.symm hkey)]

/-! The relations do not show. -/

theorem link (h : pool.Shows record fields) (requirement : StringId) (target : String) :
    (Completion.link pool record requirement target).Shows record fields :=
  ((h.intern (appdataLink target)).addRequires _).addProvides _

theorem linkPackage (h : pool.Shows record fields) (package : String) :
    (Completion.linkPackage pool record package).Shows record fields :=
  (h.intern package).link _ package

theorem linkOwners (h : pool.Shows record fields) (settings : IngestSettings) :
    (Completion.linkOwners settings pool record).Shows record fields := by
  have howner {pool : Pool} (h : pool.Shows record fields) (owner : RecordId) :
      (Completion.linkOwner record pool owner).Shows record fields := by
    rw [Completion.linkOwner]
    split
    · exact h
    · split
      · exact h
      · exact h.link _ _
  have hall (owners : List RecordId) {pool : Pool} (h : pool.Shows record fields) :
      (owners.foldl (Completion.linkOwner record) pool).Shows record fields := by
    induction owners generalizing pool with
    | nil => exact h
    | cons owner owners ih => exact ih (howner h owner)
  rw [Completion.linkOwners]
  split
  · exact h
  · exact hall settings.owners h

theorem linkFile (h : pool.Shows record fields) (settings : IngestSettings)
    (findings : Completion.Findings) :
    (Completion.linkFile settings findings pool record).Shows record fields := by
  rw [Completion.linkFile]
  split
  · exact h
  · split
    · exact h
    · exact (h.intern _).link _ _

theorem provideSelf (h : pool.Shows record fields) :
    (Completion.provideSelf pool record).Shows record fields := by
  rw [Completion.provideSelf]
  split
  · split
    · exact h
    · exact h.addProvides _
  · exact h

theorem fillDefaults (h : pool.Shows record fields) :
    (Completion.fillDefaults pool record).Shows record fields := by
  have harch : (if (pool.arch? record).isNone then pool.setArch record .noarch else pool).Shows
      record fields := by
    split
    · exact h.setArch _
    · exact h
  have hversion {pool : Pool} (h : pool.Shows record fields) :
      (if (pool.version? record).isNone then pool.setVersion record .empty else pool).Shows
        record fields := by
    split
    · exact h.setVersion _
    · exact h
  exact hversion harch

/-! Gaps in the name and the summary are filled. -/

theorem nameFromEntry (h : pool.Shows record fields) (entry : DesktopEntry) :
    (Completion.nameFromEntry entry pool record).Shows record
      { fields with name := fields.name.or (entry.name.map applicationName) } := by
  have hnone := h.isNone_name?
  rw [Completion.nameFromEntry]
  cases hfound : pool.name? record with
  | none =>
      rw [hfound] at hnone
      have hfields : fields.name = none := Option.isNone_iff_eq_none.mp hnone.symm
      cases hentry : entry.name with
      | none =>
          rw [Option.map_none, Option.or_none]
          exact h
      | some name => simpa [hfields] using h.setNameText (applicationName name)
  | some number =>
      rw [hfound] at hnone
      have hfields : fields.name.isSome := by simpa using hnone.symm
      rw [Option.or_of_isSome hfields]
      exact h

theorem summaryFromEntry (h : pool.Shows record fields) {findings : Completion.Findings}
    (hsummary : findings.hasSummary = (fields.text .summary).isSome) (entry : DesktopEntry) :
    (Completion.summaryFromEntry findings entry pool record).Shows record
      { fields with text := (fields.fillFrom (some entry)).text } := by
  rw [Completion.summaryFromEntry]
  cases hfound : fields.text .summary with
  | some summary =>
      have hsome : findings.hasSummary = true := by simp [hsummary, hfound]
      rw [hsome, Fields.text_fillFrom_of_isSome (by simp [hfound])]
      exact h
  | none =>
      have hmissing : findings.hasSummary = false := by simp [hsummary, hfound]
      rw [hmissing]
      cases hcomment : entry.comment with
      | none =>
          have hsame : (fields.fillFrom (some entry)).text = fields.text := by
            funext key
            simp [Fields.fillFrom, hcomment]
          rw [hsame]
          exact h
      | some comment =>
          have hupdate : (fields.fillFrom (some entry)).text =
              Function.update fields.text .summary (some comment) := by
            funext key
            by_cases hkey : key = .summary
            · subst hkey
              simp [Fields.fillFrom, hfound, hcomment]
            · simp [Fields.fillFrom, hkey]
          rw [hupdate]
          exact h.setText .summary comment

theorem fillFromEntry (h : pool.Shows record fields) {findings : Completion.Findings}
    (hsummary : findings.hasSummary = (fields.text .summary).isSome) (entry : DesktopEntry) :
    (Completion.fillFromEntry findings entry pool record).Shows record
      (fields.fillFrom (some entry)) := by
  rw [Completion.fillFromEntry_eq]
  exact (h.nameFromEntry entry).summaryFromEntry hsummary entry

theorem fillNameFromId (h : pool.Shows record fields) (findings : Completion.Findings) :
    (Completion.fillNameFromId findings pool record).Shows record
      (fields.nameFrom findings.id) := by
  have hnone := h.isNone_name?
  rw [Completion.fillNameFromId]
  cases hfound : pool.name? record with
  | none =>
      rw [hfound] at hnone
      have hfields : fields.name = none := Option.isNone_iff_eq_none.mp hnone.symm
      cases hid : findings.id with
      | none => simpa [Fields.nameFrom] using h
      | some id => simpa [Fields.nameFrom, hfields] using h.setNameText (nameFromId id)
  | some number =>
      rw [hfound] at hnone
      have hfields : fields.name.isSome := by simpa using hnone.symm
      rw [Fields.nameFrom, Option.or_of_isSome hfields]
      cases findings.id <;> exact h

end Pool.Shows

namespace Completion

variable {settings : IngestSettings} {findings : Findings} {pool : Pool} {record : RecordId}
  {fields : Fields}

/-- The desktop entry that stands beside an id, if entries are looked up at all. -/
def companion? (settings : IngestSettings) (id : Option String) : Option DesktopEntry :=
  if settings.flags.checkDesktopFile then do
    let id ← id
    let resolver ← settings.resolver
    resolver id settings.flags.useRoot
  else none

theorem entry?_eq (h : (pool.name? record).isNone || !findings.hasSummary) :
    entry? settings findings pool record = companion? settings findings.id := by
  rw [ entry?, query?, companion?, h]
  cases findings.id with
  | none => simp
  | some id =>
      cases settings.resolver with
      | none => simp
      | some resolver => cases settings.flags.checkDesktopFile <;> simp [Option.filter]

theorem entry?_eq_none (h : ((pool.name? record).isNone || !findings.hasSummary) = false) :
    entry? settings findings pool record = none := by
  rw [ entry?, query?, h]
  cases findings.id <;> simp

/-- A record gets its name and what fills its gaps before it is tied to anything. -/
theorem shows_named (h : pool.Shows record fields)
    (hsummary : findings.hasSummary = (fields.text .summary).isSome) :
    (named settings findings pool record).Shows record
      ((fields.fillFrom (companion? settings findings.id)).nameFrom findings.id) := by
  have hdefaults := h.fillDefaults
  rw [named_eq]
  apply Pool.Shows.fillNameFromId
  rw [fillIfFound]
  cases hgap : ((fillDefaults pool record).name? record).isNone || !findings.hasSummary with
  | true =>
      rw [entry?_eq hgap]
      cases companion? settings findings.id with
      | none => simpa [Fields.fillFrom_none] using hdefaults
      | some entry => exact hdefaults.fillFromEntry hsummary entry
  | false =>
      obtain ⟨hname, hfound⟩ := Bool.or_eq_false_iff.mp hgap
      rw [hdefaults.isNone_name?] at hname
      have hnamed : fields.name.isSome := by simpa using hname
      have hsummarized : (fields.text .summary).isSome := by simpa [hsummary] using hfound
      rw [entry?_eq_none hgap, Fields.fillFrom_of_isSome hnamed hsummarized]
      exact hdefaults

/-- What a record shows before it is tied to anything it shows when it is completed. -/
theorem shows_complete (h : (named settings findings pool record).Shows record fields) :
    (complete settings findings pool record).Shows record fields := by
  rw [complete_eq]
  exact ((h.linkOwners settings).linkFile settings findings).provideSelf

end Completion

end Metainfo
