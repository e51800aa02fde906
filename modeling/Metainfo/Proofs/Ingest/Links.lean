import Metainfo.Proofs.Ingest.Edits
import Metainfo.Proofs.Pool.Spelling

/-!
How a record is tied to its targets. For each target it gets one requirement and one link, in the
same order and both without repetitions, whatever happens to it in between.
-/

namespace Metainfo

open Metainfo.Naming

theorem append_injective {left right first second : String}
    (h : left ++ first ++ right = left ++ second ++ right) : first = second := by
  have hlist := congrArg String.toList h
  simp only [String.toList_append] at hlist
  exact String.toList_inj.mp (List.append_cancel_left (List.append_cancel_right hlist))

theorem Naming.appdataLink_injective {first second : String}
    (h : appdataLink first = appdataLink second) : first = second :=
  append_injective h

namespace Pool
/-- A record as far as its completion is concerned: its architecture and version, and the targets
to which it is tied, with what it requires of each. -/
structure Linked (pool : Pool) (record : RecordId) (arch version : Option StringId)
    (requirement : String → String) (targets : List String) : Prop where
  wellFormed : pool.WellFormed
  isLive : pool.isLive record = true
  arch : pool.arch? record = arch
  version : pool.version? record = version
  name : ∀ name, pool.name? record = some name → pool.Knows name
  requires : (pool.requires record).map pool.spell? =
    targets.map fun target => some ⟨requirement target, none⟩
  provides : (pool.provides record).map pool.spell? =
    targets.map fun target => some ⟨appdataLink target, none⟩

namespace Linked

variable {pool later : Pool} {record : RecordId} {arch version : Option StringId}
  {requirement : String → String} {targets : List String}

/-- Edits that leave the relations alone keep a record linked. -/
theorem edited (h : pool.Linked record arch version requirement targets)
    (hedited : EditedTo record pool later)
    {arch' version' : Option StringId} (harch : later.arch? record = arch')
    (hversion : later.version? record = version')
    (hname : ∀ name, later.name? record = some name → later.Knows name)
    (hrequires : later.requires record = pool.requires record)
    (hprovides : later.provides record = pool.provides record) :
    later.Linked record arch' version' requirement targets where
  wellFormed := hedited.wellFormed h.wellFormed
  isLive := hedited.equalExcept.isLive.trans h.isLive
  arch := harch
  version := hversion
  name := hname
  requires := by
    rw [hrequires, map_spell?_of_extends hedited.equalExcept.strings, h.requires]
    simp [h.requires]
  provides := by
    rw [hprovides, map_spell?_of_extends hedited.equalExcept.strings, h.provides]
    simp [h.provides]

theorem keep (h : pool.Linked record arch version requirement targets)
    (hedited : EditedTo record pool later) (hrecord : later.record? record = pool.record? record) :
    later.Linked record arch version requirement targets := by
  apply h.edited hedited
  · rw [arch?, hrecord, ← arch?, h.arch]
  · rw [version?, hrecord, ← version?, h.version]
  · intro name hname
    rw [name?, hrecord, ← name?] at hname
    exact (h.name name hname).of_extends hedited.equalExcept.strings
  · rw [Pool.requires, hrecord, ← Pool.requires]
  · rw [Pool.provides, hrecord, ← Pool.provides]

theorem intern (h : pool.Linked record arch version requirement targets) (text : String) :
    (pool.intern text).2.Linked record arch version requirement targets :=
  h.keep (.intern pool text) rfl

theorem setText (h : pool.Linked record arch version requirement targets) (key : TextKey)
    (value : String) :
    (pool.setText record key value).Linked record arch version requirement targets :=
  h.keep (.setText pool key value) (record?_stage ..)

theorem addToList (h : pool.Linked record arch version requirement targets) (key : ListKey)
    (value : String) :
    (pool.addToList record key value).Linked record arch version requirement targets :=
  h.keep (.addToList pool key value) (record?_stage ..)

theorem exists_record (h : pool.Linked record arch version requirement targets) :
    ∃ found, pool.record? record = some found ∧ found.arch = arch ∧ found.version = version ∧
      ∀ name, found.name = some name → pool.Knows name := by
  obtain ⟨found, hfound⟩ := isLive_iff.mp h.isLive
  have harch := h.arch
  have hversion := h.version
  have hname := h.name
  rw [arch?, hfound] at harch
  rw [version?, hfound] at hversion
  rw [name?, hfound] at hname
  exact ⟨found, hfound, harch, hversion, hname⟩

/-- A change of a record may concern anything but its relations. -/
theorem update (h : pool.Linked record arch version requirement targets)
    {change : Record → Record} (hedited : EditedTo record pool (pool.update record change))
    {found : Record} (hfound : pool.record? record = some found)
    (hname : ∀ name, (change found).name = some name → pool.Knows name)
    (hrequires : (change found).requires = found.requires)
    (hprovides : (change found).provides = found.provides) :
    (pool.update record change).Linked record (change found).arch (change found).version
      requirement targets := by
  have hchanged : (pool.update record change).record? record = some (change found) := by
    simp [record?_update, hfound]
  apply h.edited hedited
  · rw [arch?, hchanged]
    rfl
  · rw [version?, hchanged]
    rfl
  · intro name hnumber
    rw [name?, hchanged] at hnumber
    exact (hname name hnumber).of_extends hedited.equalExcept.strings
  · rw [Pool.requires, Pool.requires, hchanged, hfound]
    exact hrequires
  · rw [Pool.provides, Pool.provides, hchanged, hfound]
    exact hprovides

theorem setArch (h : pool.Linked record arch version requirement targets) (number : StringId) :
    (pool.setArch record number).Linked record (some number) version requirement targets := by
  obtain ⟨found, hfound, -, rfl, hname⟩ := h.exists_record
  exact h.update (.setArch pool number) hfound hname rfl rfl

theorem setVersion (h : pool.Linked record arch version requirement targets)
    (number : StringId) :
    (pool.setVersion record number).Linked record arch (some number) requirement targets := by
  obtain ⟨found, hfound, rfl, -, hname⟩ := h.exists_record
  exact h.update (.setVersion pool number) hfound hname rfl rfl

theorem setName (h : pool.Linked record arch version requirement targets) {number : StringId}
    (hknown : pool.Knows number) :
    (pool.setName record number).Linked record arch version requirement targets := by
  obtain ⟨found, hfound, rfl, rfl, -⟩ := h.exists_record
  refine h.update (.setName pool number) hfound ?_ rfl rfl
  rintro name hname
  exact Option.some.inj hname ▸ hknown

theorem hasRequires (h : pool.Linked record arch version requirement targets) :
    pool.hasRequires record = !targets.isEmpty := by
  have hempty := congrArg List.isEmpty h.requires
  rw [List.isEmpty_map, List.isEmpty_map] at hempty
  rw [Pool.hasRequires, hempty]

end Linked

variable {pool : Pool} {record : RecordId} {arch version : Option StringId}
  {requirement : String → String} {targets : List String}

theorem link_eq (requirement : StringId) (target : String) :
    Completion.link pool record requirement target =
      ((pool.intern (appdataLink target)).2.addRequires record (.named requirement)).addProvides
        record (.named (pool.intern (appdataLink target)).1) :=
  rfl

theorem record?_link {found : Record} (h : pool.record? record = some found)
    (requirement : StringId) (target : String) :
    (Completion.link pool record requirement target).record? record =
      some ((found.addRequires (.named requirement)).addProvides
        (.named (pool.intern (appdataLink target)).1)) := by
  simp [link_eq, addProvides, addRequires, record?_update, h]

theorem name?_link (requirement : StringId) (target : String) (other : RecordId) :
    (Completion.link pool record requirement target).name? other = pool.name? other := by
  have hprovides (relation : Relation) (found : Record) :
      (found.addProvides relation).name = found.name := rfl
  have hrequires (relation : Relation) (found : Record) :
      (found.addRequires relation).name = found.name := rfl
  rw [link_eq, addProvides, name?_update (hprovides _), addRequires,
    name?_update (hrequires _)]
  rfl

theorem strings_link (pool : Pool) (record : RecordId) (requirement : StringId) (target : String) :
    (Completion.link pool record requirement target).strings =
      (pool.intern (appdataLink target)).2.strings := by
  rw [link_eq, addProvides, strings_update, addRequires, strings_update]

/-- Linking adds a target. -/
theorem Linked.link (h : pool.Linked record arch version requirement targets)
    {number : StringId} {target : String}
    (hnumber : pool.resolve? number = some (requirement target))
    (hinj : ∀ other ∈ targets, requirement other = requirement target → other = target) :
    (Completion.link pool record number target).Linked record arch version requirement
      (addNew targets target) := by
  have hedited := Completion.editedTo_link pool record number target
  have hintern := h.intern (appdataLink target)
  have hvalid := hintern.wellFormed.strings
  have hspell := spell?_of_same (strings_link pool record number target)
  obtain ⟨found, hfound, harch, hversion, -⟩ := h.exists_record
  have hlinked := record?_link hfound number target
  have hrequires := hintern.requires
  have hprovides := hintern.provides
  rw [Pool.requires, record?_intern, hfound] at hrequires
  rw [Pool.provides, record?_intern, hfound] at hprovides
  constructor
  · exact hedited.wellFormed h.wellFormed
  · exact hedited.equalExcept.isLive.trans h.isLive
  · rw [arch?, hlinked]
    exact harch
  · rw [version?, hlinked]
    exact hversion
  · intro name hname
    rw [name?_link] at hname
    exact (h.name name hname).of_extends hedited.equalExcept.strings
  · rw [Pool.requires, hlinked, hspell]
    refine map_spell?_addNew hvalid (fun target => ⟨requirement target, none⟩) hrequires ?_ ?_
    · exact Option.map_eq_some_iff.mpr
        ⟨_, Interner.extends_intern _ _ number _ hnumber, rfl⟩
    · exact fun other hother heq => hinj other hother (congrArg PlainRelation.name heq)
  · rw [Pool.provides, hlinked, hspell]
    refine map_spell?_addNew hvalid (fun target => ⟨appdataLink target, none⟩) hprovides ?_ ?_
    · exact Option.map_eq_some_iff.mpr
        ⟨_, h.wellFormed.strings.resolve?_intern (appdataLink target), rfl⟩
    · exact fun other _ heq => appdataLink_injective (congrArg PlainRelation.name heq)

end Pool

end Metainfo
