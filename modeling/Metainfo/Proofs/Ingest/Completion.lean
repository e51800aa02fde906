import Metainfo.Proofs.Ingest.Links

/-!
The completion of a record. It is tied to the packages that it names, else to the named owners of
its document, else to its document, and at the very end provides itself.
-/

namespace Metainfo

open Metainfo.Naming

namespace Completion

open Metainfo.Pool

/-- The names of owners, each as it resolves when its turn comes: the link to an owner becomes a
known text before the next one is looked at. -/
def ownerNames (pool : Pool) : List RecordId → List String
  | [] => []
  | owner :: owners =>
      match (pool.name? owner).bind pool.resolve? with
      | none => ownerNames pool owners
      | some name =>
          name :: ownerNames (pool.intern ("application-appdata(" ++ name ++ ")")).2 owners

/-- The file name of a document: the one that is known, else the one guessed from an id. -/
def fileTarget (filename id : Option String) : Option String :=
  filename.or ((id.filter (· ≠ "")).bind guessFilename)

/-- The targets of a record: the packages that it names, else the owners of its document, else
its document. -/
def targets (packages owners : List String) (file : Option String) : List String :=
  if packages ≠ [] then packages.eraseDups
  else if owners ≠ [] then owners.eraseDups
  else file.toList

/-- What a record requires of a target. -/
def requirement (packages owners : List String) (target : String) : String :=
  if packages = [] ∧ owners = [] then "appdata(" ++ target ++ ")" else target

/-- A record with defaults and a name, before it is tied to owners or a file. -/
def named (settings : IngestSettings) (findings : Findings) (pool : Pool)
    (record : RecordId) : Pool :=
  let pool := fillDefaults pool record
  let pool :=
    match entry? settings findings pool record with
    | none => pool
    | some entry => fillFromEntry findings entry pool record
  fillNameFromId findings pool record

theorem named_eq (settings : IngestSettings) (findings : Findings) (pool : Pool)
    (record : RecordId) :
    named settings findings pool record =
      fillNameFromId findings (fillIfFound settings findings (fillDefaults pool record) record)
        record :=
  rfl

theorem complete_eq (settings : IngestSettings) (findings : Findings) (pool : Pool)
    (record : RecordId) :
    complete settings findings pool record =
      provideSelf
        (linkFile settings findings
          (linkOwners settings (named settings findings pool record) record) record) record :=
  rfl

theorem fileTarget_eq (filename id : Option String) :
    fileTarget filename id = filename.or (id.bind guessFilename) := by
  cases id with
  | none => rfl
  | some id =>
      by_cases hempty : id = ""
      · subst hempty
        rfl
      · simp [fileTarget, Option.filter, hempty]

theorem ownerNames_congr {pool later : Pool} (hname : ∀ owner, later.name? owner = pool.name? owner)
    (hstrings : later.strings = pool.strings) (owners : List RecordId) :
    ownerNames later owners = ownerNames pool owners := by
  induction owners generalizing pool later with
  | nil => rfl
  | cons owner owners ih =>
      have hresolve : later.resolve? = pool.resolve? := by
        funext number
        rw [resolve?, resolve?, hstrings]
      rw [ownerNames, ownerNames, hname, hresolve]
      cases (pool.name? owner).bind pool.resolve? with
      | none => exact ih hname hstrings
      | some name =>
          have hnext (text : String) :
              (later.intern text).2.strings = (pool.intern text).2.strings := by
            rw [strings_intern, strings_intern, hstrings]
          exact congrArg (name :: ·) (ih hname (hnext _))

/-- Where the names of all owners are known beforehand, neither what happens in between nor the
turn of an owner matters. -/
theorem ownerNames_of_knows {pool later : Pool} {owners : List RecordId}
    (hname : ∀ owner ∈ owners, later.name? owner = pool.name? owner)
    (hstrings : pool.strings.Extends later.strings)
    (hknown : ∀ owner ∈ owners, ∀ name, pool.name? owner = some name → pool.Knows name) :
    ownerNames later owners =
      owners.filterMap fun owner => (pool.name? owner).bind pool.resolve? := by
  induction owners generalizing later with
  | nil => rfl
  | cons owner owners ih =>
      have howner : (later.name? owner).bind later.resolve? =
          (pool.name? owner).bind pool.resolve? := by
        rw [hname owner List.mem_cons_self]
        cases hnumber : pool.name? owner with
        | none => rfl
        | some number =>
            obtain ⟨text, htext⟩ := hknown owner List.mem_cons_self number hnumber
            exact (hstrings number text htext).trans htext.symm
      have htail (other : RecordId) (hother : other ∈ owners) :
          later.name? other = pool.name? other :=
        hname other (List.mem_cons_of_mem _ hother)
      have hknown' (other : RecordId) (hother : other ∈ owners) (name : StringId)
          (hnumber : pool.name? other = some name) : pool.Knows name :=
        hknown other (List.mem_cons_of_mem _ hother) name hnumber
      rw [ownerNames, howner, List.filterMap_cons]
      cases (pool.name? owner).bind pool.resolve? with
      | none => exact ih htail hstrings hknown'
      | some name =>
          apply congrArg (name :: ·)
          exact ih htail (hstrings.trans (Interner.extends_intern _ _)) hknown'

theorem editedTo_named (settings : IngestSettings) (findings : Findings) (pool : Pool)
    (record : RecordId) : EditedTo record pool (named settings findings pool record) := by
  rw [named_eq]
  exact ((editedTo_fillDefaults pool record).trans
    (editedTo_fillIfFound settings findings _ record)).trans
      (editedTo_fillNameFromId findings _ record)

variable {pool : Pool} {record : RecordId} {arch version : Option StringId}
  {requirement : String → String} {targets : List String}

theorem linked_setNameText (h : pool.Linked record arch version requirement targets)
    (name : String) :
    (setNameText pool record name).Linked record arch version requirement targets := by
  have hintern := h.intern name
  exact hintern.setName ⟨name, h.wellFormed.strings.resolve?_intern name⟩

theorem linked_fillDefaults (h : pool.Linked record none none requirement targets) :
    (fillDefaults pool record).Linked record (some .noarch) (some .empty) requirement
      targets := by
  have hdefaults : fillDefaults pool record =
      (pool.setArch record .noarch).setVersion record .empty := by
    have harch := h.setArch .noarch
    rw [fillDefaults, h.arch]
    simp [harch.version]
  rw [hdefaults]
  exact (h.setArch .noarch).setVersion .empty

theorem linked_fillFromEntry (findings : Findings) (entry : DesktopEntry)
    (h : pool.Linked record arch version requirement targets) :
    (fillFromEntry findings entry pool record).Linked record arch version requirement
      targets := by
  have hname : (nameFromEntry entry pool record).Linked record arch version requirement
      targets := by
    rw [nameFromEntry]
    split
    · exact linked_setNameText h _
    · exact h
  rw [fillFromEntry_eq, summaryFromEntry]
  split
  · exact hname.setText _ _
  · exact hname

theorem linked_fillNameFromId (findings : Findings)
    (h : pool.Linked record arch version requirement targets) :
    (fillNameFromId findings pool record).Linked record arch version requirement targets := by
  rw [fillNameFromId]
  split
  · exact linked_setNameText h _
  · exact h

theorem linked_named (settings : IngestSettings) (findings : Findings)
    (h : pool.Linked record none none requirement targets) :
    (named settings findings pool record).Linked record (some .noarch) (some .empty)
      requirement targets := by
  have hdefaults := linked_fillDefaults h
  rw [named_eq]
  apply linked_fillNameFromId
  rw [fillIfFound]
  split
  · exact hdefaults
  · exact linked_fillFromEntry findings _ hdefaults

theorem linked_linkPackage (h : pool.Linked record arch version id targets) (package : String) :
    (linkPackage pool record package).Linked record arch version id
      (addNew targets package) := by
  have hintern := h.intern package
  exact hintern.link (h.wellFormed.strings.resolve?_intern package) fun _ _ heq => heq

/-- A record without requirements gets the named owners as its targets. -/
theorem linked_linkOwners (settings : IngestSettings)
    (h : pool.Linked record arch version id targets) :
    (linkOwners settings pool record).Linked record arch version id
      (if targets ≠ [] then targets else (ownerNames pool settings.owners).eraseDups) := by
  have hall (owners : List RecordId) (pool : Pool) (targets : List String)
      (h : pool.Linked record arch version id targets) :
      (owners.foldl (linkOwner record) pool).Linked record arch version id
        ((ownerNames pool owners).foldl addNew targets) := by
    induction owners generalizing pool targets with
    | nil => exact h
    | cons owner owners ih =>
        rw [List.foldl_cons, ownerNames, linkOwner]
        cases hname : pool.name? owner with
        | none => exact ih pool targets h
        | some number =>
            rw [Option.bind_some]
            dsimp only
            cases htext : pool.resolve? number with
            | none => exact ih pool targets h
            | some name =>
                have hlinked : (link pool record number name).Linked record arch version id
                    (addNew targets name) := h.link htext fun _ _ heq => heq
                have howners : ownerNames (link pool record number name) owners =
                    ownerNames (pool.intern (appdataLink name)).2 owners := by
                  apply ownerNames_congr
                  · exact name?_link number name
                  · exact strings_link pool record number name
                have hrest := ih _ _ hlinked
                rw [howners] at hrest
                exact hrest
  cases targets with
  | nil =>
      have hrequires := h.hasRequires
      rw [linkOwners, hrequires]
      have howners := hall settings.owners pool [] h
      rw [foldl_addNew] at howners
      exact howners
  | cons target targets =>
      rw [linkOwners, h.hasRequires]
      exact h

/-- A record that is still without requirements gets the file as its target. -/
theorem linked_linkFile (settings : IngestSettings) (findings : Findings)
    (h : pool.Linked record arch version id targets) :
    ∃ requirement, (linkFile settings findings pool record).Linked record arch version requirement
      (if targets ≠ [] then targets
        else (fileTarget settings.filename findings.id).toList) ∧
      requirement = if targets = [] then appdataRequirement else id := by
  rw [fileTarget_eq]
  cases targets with
  | cons target targets =>
      refine ⟨id, ?_, by simp⟩
      rw [linkFile, h.hasRequires]
      exact h
  | nil =>
      have hempty : pool.Linked record arch version appdataRequirement [] :=
        ⟨h.wellFormed, h.isLive, h.arch, h.version, h.name, h.requires, h.provides⟩
      refine ⟨appdataRequirement, ?_, by simp⟩
      rw [linkFile, h.hasRequires]
      cases settings.filename.or (findings.id.bind guessFilename) with
      | none => exact hempty
      | some filename =>
          have hintern := hempty.intern (appdataRequirement filename)
          exact hintern.link (h.wellFormed.strings.resolve?_intern _) (by simp)

/-- A record with a name provides itself once, after everything else. -/
theorem provides_provideSelf
    (h : pool.Linked record (some .noarch) (some .empty) requirement targets) :
    (provideSelf pool record).strings = pool.strings ∧
      (provideSelf pool record).name? record = pool.name? record ∧
      (provideSelf pool record).requires record = pool.requires record ∧
      (provideSelf pool record).provides record =
        pool.provides record ++
          (pool.name? record).toList.map fun name => .equals name .empty := by
  obtain ⟨found, hfound, -, -, -⟩ := h.exists_record
  cases hname : pool.name? record with
  | none =>
      have hself : provideSelf pool record = pool := by rw [provideSelf, hname]
      simp [hself, hname]
  | some name =>
      have hself : provideSelf pool record = pool.addProvides record (.equals name .empty) := by
        rw [provideSelf, h.arch, h.version, hname]
        rfl
      have hnew : Relation.equals name .empty ∉ found.provides := by
        intro hmem
        have hprovides := h.provides
        rw [Pool.provides, hfound] at hprovides
        have hspelled : pool.spell? (.equals name .empty) ∈
            targets.map fun target => some (PlainRelation.mk (appdataLink target) none) :=
          hprovides ▸ List.mem_map_of_mem hmem
        obtain ⟨target, -, htarget⟩ := List.mem_map.mp hspelled
        obtain ⟨text, htext, hrest⟩ := Option.bind_eq_some_iff.mp htarget.symm
        obtain ⟨version, hversion, heq⟩ := Option.map_eq_some_iff.mp hrest
        simp at heq
      have hupdated : (pool.addProvides record (.equals name .empty)).record? record =
          some { found with provides := found.provides ++ [.equals name .empty] } := by
        simp [addProvides, record?_update, hfound, Record.addProvides, addNew, hnew]
      rw [name?, hfound] at hname
      rw [hself]
      refine ⟨strings_update .., ?_, ?_, ?_⟩
      · rw [name?, hupdated]
        exact hname
      · rw [Pool.requires, Pool.requires, hupdated, hfound]
        rfl
      · rw [Pool.provides, Pool.provides, hupdated, hfound]
        rfl

theorem eraseDups_eq_nil_iff {elements : List String} :
    elements.eraseDups = [] ↔ elements = [] := by
  cases elements with
  | nil => simp
  | cons element elements => simp [List.eraseDups_cons]

/-- The targets of a record before its file is considered. -/
def linkedTargets (packages owners : List String) : List String :=
  if packages.eraseDups ≠ [] then packages.eraseDups else owners.eraseDups

theorem linkedTargets_eq_nil_iff {packages owners : List String} :
    linkedTargets packages owners = [] ↔ packages = [] ∧ owners = [] := by
  cases packages with
  | nil => simp [linkedTargets, eraseDups_eq_nil_iff]
  | cons package packages => simp [linkedTargets, eraseDups_eq_nil_iff]

theorem nodup_targets (packages owners : List String) (file : Option String) :
    (Completion.targets packages owners file).Nodup := by
  rw [Completion.targets]
  split
  · exact nodup_eraseDups packages
  · split
    · exact nodup_eraseDups owners
    · cases file <;> simp

theorem targets_eq (packages owners : List String) (file : Option String) :
    Completion.targets packages owners file =
      if linkedTargets packages owners ≠ [] then linkedTargets packages owners
      else file.toList := by
  cases packages with
  | nil => cases owners <;> simp [Completion.targets, linkedTargets, eraseDups_eq_nil_iff]
  | cons package packages => simp [Completion.targets, linkedTargets, eraseDups_eq_nil_iff]

theorem requirement_eq (packages owners : List String) :
    Completion.requirement packages owners =
      if linkedTargets packages owners = [] then appdataRequirement else id := by
  funext target
  simp only [Completion.requirement, linkedTargets_eq_nil_iff]
  split <;> rfl

/-- What the relations of a record come to when it is completed. -/
structure Completed (pool : Pool) (record : RecordId) (requirement : String → String)
    (targets : List String) : Prop where
  isLive : pool.isLive record = true
  name : ∀ name, pool.name? record = some name → pool.Knows name
  requires : (pool.requires record).map pool.spell? =
    targets.map fun target => some ⟨requirement target, none⟩
  provides : (pool.provides record).map pool.spell? =
    (targets.map fun target => some ⟨"application-appdata(" ++ target ++ ")", none⟩) ++
      ((pool.name? record).bind pool.resolve?).toList.map fun name => some ⟨name, some ""⟩

theorem Completed.kept {later : Pool} (h : Completed pool record requirement targets)
    (hkept : Kept record pool later) : Completed later record requirement targets where
  isLive := hkept.isLive.trans h.isLive
  name name hname := (h.name name (hkept.name?.symm.trans hname)).of_extends hkept.strings
  requires := by
    have hrequires : later.requires record = pool.requires record := by
      rw [Pool.requires, Pool.requires, hkept.record?]
    rw [hrequires, map_spell?_of_extends hkept.strings, h.requires]
    simp [h.requires]
  provides := by
    have hprovides : later.provides record = pool.provides record := by
      rw [Pool.provides, Pool.provides, hkept.record?]
    have hname : (pool.name? record).bind later.resolve? =
        (pool.name? record).bind pool.resolve? := by
      cases hnumber : pool.name? record with
      | none => rfl
      | some number =>
          obtain ⟨text, htext⟩ := h.name number hnumber
          exact (hkept.strings number text htext).trans htext.symm
    rw [hprovides, map_spell?_of_extends hkept.strings, h.provides, hkept.name?, hname]
    simp [h.provides]

theorem completed_complete (settings : IngestSettings) (findings : Findings)
    {packages : List String} (h : pool.Linked record none none id packages.eraseDups) :
    let owners := ownerNames (named settings findings pool record) settings.owners
    let file := fileTarget settings.filename findings.id
    Completed (complete settings findings pool record) record
      (Completion.requirement packages owners) (Completion.targets packages owners file) := by
  intro owners file
  have howners := linked_linkOwners settings (linked_named settings findings h)
  obtain ⟨requirement, hlinked, hrequirement⟩ := linked_linkFile settings findings howners
  change requirement = if linkedTargets packages owners = [] then appdataRequirement else id
    at hrequirement
  change (linkFile settings findings _ record).Linked record _ _ requirement
    (if linkedTargets packages owners ≠ [] then linkedTargets packages owners else file.toList)
    at hlinked
  rw [← targets_eq, hrequirement, ← requirement_eq] at hlinked
  obtain ⟨hstrings, hname, hrequires, hprovides⟩ := provides_provideSelf hlinked
  have hspell := spell?_of_same hstrings
  rw [complete_eq]
  generalize linkFile settings findings
    (linkOwners settings (named settings findings pool record) record) record = tied
    at hlinked hstrings hname hrequires hprovides hspell
  have hresolve : (provideSelf tied record).resolve? = tied.resolve? := by
    funext number
    rw [resolve?, resolve?, hstrings]
  constructor
  · exact (editedTo_provideSelf tied record).equalExcept.isLive.trans hlinked.isLive
  · intro name hname'
    rw [hname] at hname'
    rw [Knows, hresolve]
    exact hlinked.name name hname'
  · rw [hrequires, hspell, hlinked.requires]
  · rw [hprovides, hspell, List.map_append, hlinked.provides, hname, hresolve]
    congr 1
    cases hnumber : tied.name? record with
    | none => rfl
    | some name =>
        obtain ⟨text, htext⟩ := hlinked.name name hnumber
        have hempty : tied.resolve? .empty = some "" :=
          hlinked.wellFormed.strings.resolve?_empty
        simp [spell?, Relation.equals, htext, hempty]

end Completion

end Metainfo
