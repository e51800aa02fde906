import Mathlib.Data.List.Pairwise
import Metainfo.Program
import Metainfo.Proofs.Files.Components

/-!
The settings of a run, field by field. What the environment says of a field counts before what the
file says, that before the default, and nothing else in any of these layers is looked at. Switches
have the last word on three of the fields.
-/

namespace Metainfo

namespace Variable

open Metainfo.Affix

/-- The key that a variable sets, if it is one of the program's: what follows the beginning of its
name, without regard to case and to white space around it. -/
def key? (name : String) : Option String := do
  let name := lower (Blank.trim Blank.isWhiteSpace name.toList)
  let key ← withoutBeginning? name (lower beginning.toList)
  let key := Blank.trim Blank.isWhiteSpace key
  if key.isEmpty then none else some (String.ofList key)

/-- No key of the environment leads through tables, and each is set once at most. -/
structure Plain (environment : List (String × String)) : Prop where
  undotted : ∀ entry ∈ environment, ∀ key ∈ key? entry.1, '.' ∉ key.toList
  single : environment.Pairwise fun first second =>
    ∀ key ∈ key? first.1, key? second.1 ≠ some key

/-- What the environment says of a key. -/
def value? (environment : List (String × String)) (key : String) : Option Datum :=
  (environment.find? fun entry => key? entry.1 = some key).map fun entry => value entry.2

theorem member?_eq {name text : String} (h : ∀ key ∈ key? name, '.' ∉ key.toList) :
    member? name text = (key? name).map fun key => (key, value text) := by
  dsimp only [key?, member?, Option.bind_eq_bind] at h ⊢
  cases hkey : withoutBeginning? (lower (Blank.trim Blank.isWhiteSpace name.toList))
      (lower beginning.toList) with
  | none => rfl
  | some key =>
      rw [hkey] at h
      dsimp only [Option.bind_some] at h ⊢
      generalize Blank.trim Blank.isWhiteSpace key = key at h ⊢
      by_cases hempty : key.isEmpty
      · rw [if_pos hempty, List.isEmpty_iff.mp hempty]
        rfl
      · rw [if_neg hempty] at h ⊢
        have hdot : '.' ∉ key := by simpa using h
        have hopen : key.isEmpty = false := Bool.eq_false_iff.mpr hempty
        have hall : ([key].all fun key => !key.isEmpty) = true := by simp [hopen]
        rw [parts_of_not_mem hdot, guard, if_pos hall]
        rfl

theorem value?_cons (entry : String × String) (rest : List (String × String)) (key : String) :
    value? (entry :: rest) key =
      if key? entry.1 = some key then some (value entry.2) else value? rest key := by
  rw [value?, List.find?_cons]
  split <;> simp_all [value?]

theorem value?_eq_none {environment : List (String × String)} {key : String}
    (h : ∀ entry ∈ environment, key? entry.1 ≠ some key) : value? environment key = none := by
  rw [value?, List.find?_eq_none.mpr]
  · rfl
  · simpa using h

/-- In a plain environment a key has the value of the variable that sets it. -/
theorem lookupLast_members {environment : List (String × String)} (h : Plain environment)
    (key : String) : Datum.lookupLast (members environment) key = value? environment key := by
  obtain ⟨hundotted, hsingle⟩ := h
  have hmembers : members environment =
      environment.filterMap fun entry => (key? entry.1).map fun key => (key, value entry.2) :=
    List.filterMap_congr fun entry hentry => member?_eq (hundotted entry hentry)
  rw [hmembers, Datum.lookupLast]
  clear hmembers hundotted
  induction environment with
  | nil => rfl
  | cons entry rest ih =>
      obtain ⟨hfirst, hrest⟩ := List.pairwise_cons.mp hsingle
      have hlater := ih hrest
      rw [value?_cons]
      cases hkey : key? entry.1 with
      | none =>
          rw [List.filterMap_cons_none (by rw [hkey]; rfl), hlater, if_neg (by simp)]
      | some other =>
          rw [List.filterMap_cons_some (by rw [hkey]; rfl), List.reverse_cons, List.lookup_append,
            hlater, List.lookup_cons, List.lookup_nil]
          by_cases hsame : other = key
          · have hnone : value? rest key = none :=
              value?_eq_none fun entry hentry => hfirst entry hentry key (hsame ▸ hkey)
            rw [hnone, hsame, beq_self_eq_true, if_pos rfl]
            rfl
          · rw [beq_false_of_ne (Ne.symm hsame), if_neg (by simpa using hsame)]
            exact Option.or_none

end Variable

namespace Datum

/-! The types of the fields. -/

def toPath? : Datum → Option Path
  | .text value => some (.ofString value)
  | _ => none

/-- No root may be written out. -/
def toRoot? : Datum → Option (Option Path)
  | .null => some none
  | datum => datum.toPath?.map some

def toBool? : Datum → Option Bool
  | .bool value => some value
  | _ => none

end Datum

namespace Config

/-- A field has the value that is given for it, which must be of its type, or else the default. -/
def Sets {α : Type} (read : Datum → Option α) (default : α) (given : Option Datum) (value : α) :
    Prop :=
  match given with
  | none => value = default
  | some datum => read datum = some value

/-- Every field has the value that is given by its name. -/
structure Takes (given : String → Option Datum) (config : Config) : Prop where
  root : Sets Datum.toRoot? default.root (given "root") config.root
  appdataDir : Sets Datum.toPath? default.appdataDir (given "appdata_dir") config.appdataDir
  applicationsDir :
    Sets Datum.toPath? default.applicationsDir (given "applications_dir") config.applicationsDir
  checkDesktopFiles :
    Sets Datum.toBool? default.checkDesktopFiles (given "check_desktop_files")
      config.checkDesktopFiles
  searchFileLists :
    Sets Datum.toBool? default.searchFileLists (given "search_filelist") config.searchFileLists
  deferWrites :
    Sets Datum.toBool? default.deferWrites (given "defer_internalize") config.deferWrites

def fieldNames : List String :=
  ["root", "appdata_dir", "applications_dir", "check_desktop_files", "search_filelist",
    "defer_internalize"]

variable {values other : String → Option Datum} {config : Config}

theorem Takes.congr (h : ∀ name ∈ fieldNames, other name = values name) :
    config.Takes other ↔ config.Takes values := by
  have hsame {name : String} (hname : name ∈ fieldNames) : other name = values name := h name hname
  constructor
  · rintro ⟨hroot, hdirectory, happlications, hcheck, hsearch, hdefer⟩
    rw [hsame (by decide)] at hroot hdirectory happlications hcheck hsearch hdefer
    exact ⟨hroot, hdirectory, happlications, hcheck, hsearch, hdefer⟩
  · rintro ⟨hroot, hdirectory, happlications, hcheck, hsearch, hdefer⟩
    rw [← hsame (by decide)] at hroot hdirectory happlications hcheck hsearch hdefer
    exact ⟨hroot, hdirectory, happlications, hcheck, hsearch, hdefer⟩

theorem optionalPath?_eq_some_iff {datum : Option Datum} {root : Option Path} :
    optionalPath? datum = some root ↔ Sets Datum.toRoot? none datum root := by
  cases datum with
  | none => simp [optionalPath?, Sets, eq_comm]
  | some datum => cases datum <;> simp [optionalPath?, Sets, Datum.toRoot?, Datum.toPath?]

theorem path?_eq_some_iff {datum : Option Datum} {default path : Path} :
    path? datum default = some path ↔ Sets Datum.toPath? default datum path := by
  cases datum with
  | none => simp [path?, Sets, eq_comm]
  | some datum => cases datum <;> simp [path?, Sets, Datum.toPath?]

theorem bool?_eq_some_iff {datum : Option Datum} {default value : Bool} :
    bool? datum default = some value ↔ Sets Datum.toBool? default datum value := by
  cases datum with
  | none => simp [bool?, Sets, eq_comm]
  | some datum => cases datum <;> simp [bool?, Sets, Datum.toBool?]

theorem ofMembers?_eq_some_iff (members : List (String × Datum)) (config : Config) :
    ofMembers? members = some config ↔ config.Takes (Datum.lookupLast members) := by
  simp only [ofMembers?, Option.bind_eq_bind, Option.bind_eq_some_iff, optionalPath?_eq_some_iff,
    path?_eq_some_iff, bool?_eq_some_iff]
  constructor
  · rintro ⟨root, hroot, directory, hdirectory, applications, happlications, check, hcheck,
      search, hsearch, defer, hdefer, hconfig⟩
    obtain rfl := Option.some.inj hconfig
    exact ⟨hroot, hdirectory, happlications, hcheck, hsearch, hdefer⟩
  · rintro ⟨hroot, hdirectory, happlications, hcheck, hsearch, hdefer⟩
    exact ⟨_, hroot, _, hdirectory, _, happlications, _, hcheck, _, hsearch, _, hdefer, rfl⟩

theorem lookupLast_layers (lower upper : List (String × Datum)) (name : String) :
    Datum.lookupLast [lower, upper].flatten name =
      (Datum.lookupLast upper name).or (Datum.lookupLast lower name) := by
  simp only [Datum.lookupLast, List.flatten_cons, List.flatten_nil, List.append_nil,
    List.reverse_append, List.lookup_append]

section

variable (files : Files) (configurations : Path) (named : Option Path)

/-- What the file holds that is read: a map written in the format that its name tells; nothing if
there is no file. -/
inductive FileHolds : List (String × Datum) → Prop where
  | nothing (hchosen : chooseFile files configurations named = .ok none) : FileHolds []
  | members {path : Path} {format : ConfigFormat} {bytes : List UInt8} {text : String}
      {members : List (String × Datum)}
      (hchosen : chooseFile files configurations named = .ok (some path))
      (hformat : ConfigFormat.ofExtension? ((path.extension?.bind Utf8.strict).getD "") =
        some format)
      (hread : files.read path = .ok (.ofBytes bytes))
      (htext : Utf8.strict bytes = some text)
      (hmembers : format.parse text = some members) : FileHolds members

variable {files configurations named}

theorem FileHolds.fileLayer_eq {members : List (String × Datum)}
    (h : FileHolds files configurations named members) :
    fileLayer files configurations named = .ok members := by
  cases h with
  | nothing hchosen =>
      rw [fileLayer, hchosen]
      rfl
  | members hchosen hformat hread htext hmembers =>
      rw [fileLayer, hchosen]
      change readFile files _ = _
      simp only [readFile, hformat, hread, Source.ofBytes, htext, Option.bind_some, hmembers,
        Option.elim_some]

/-- What is given for a field: by the environment, else by the file. -/
def given (members : List (String × Datum)) (environment : List (String × String))
    (name : String) : Option Datum :=
  (Variable.value? environment name).or (Datum.lookupLast members name)

theorem load_eq {members : List (String × Datum)} {environment : List (String × String)}
    (h : FileHolds files configurations named members) :
    load files configurations named environment =
      (ofMembers? [members, Variable.members environment].flatten).elim (.error .invalid) .ok := by
  rw [load, h.fileLayer_eq]
  rfl

theorem load_eq_ok_iff {members : List (String × Datum)} {environment : List (String × String)}
    (h : FileHolds files configurations named members) (hplain : Variable.Plain environment)
    (config : Config) :
    load files configurations named environment = .ok config ↔
      config.Takes (given members environment) := by
  have hgiven : Datum.lookupLast [members, Variable.members environment].flatten =
      given members environment := by
    funext name
    rw [lookupLast_layers, Variable.lookupLast_members hplain, given]
  rw [load_eq h, ← hgiven, ← ofMembers?_eq_some_iff]
  cases ofMembers? [members, Variable.members environment].flatten <;> simp

theorem load_eq_invalid {members : List (String × Datum)} {environment : List (String × String)}
    (h : FileHolds files configurations named members) (hplain : Variable.Plain environment)
    (hnone : ¬ ∃ config, Takes (given members environment) config) :
    load files configurations named environment = .error .invalid := by
  cases hload : load files configurations named environment with
  | ok config => exact absurd ⟨config, (load_eq_ok_iff h hplain config).mp hload⟩ hnone
  | error error =>
      rw [load_eq h] at hload
      cases hmembers : ofMembers? [members, Variable.members environment].flatten with
      | none =>
          rw [hmembers] at hload
          exact congrArg Except.error (Except.error.inj hload).symm
      | some config =>
          rw [hmembers] at hload
          contradiction

end

end Config

namespace Program

/-- Each field of the settings is taken from the environment if that has its key, else from the
file, else from the defaults; loading succeeds if what is taken has the types of the fields, and only
then. Nothing else matters: not what a value is that another one takes the place of, nor any other
key, nor in which format or where a file says the same. Of a loaded configuration the switches
change the root if one is named, turn desktop files off and turn file lists on. -/
theorem settings_layered (machine : Machine) (switches : Switches)
    (hplain : Variable.Plain machine.environment) {members : List (String × Datum)}
    (hfile : Config.FileHolds machine.files machine.configurations switches.config members) :
    let loaded := Config.load machine.files machine.configurations switches.config
      machine.environment
    let given := Config.given members machine.environment
    (∀ config, loaded = .ok config ↔ config.Takes given) ∧
    ((¬ ∃ config : Config, config.Takes given) → loaded = .error .invalid) ∧
    (∀ (files : Files) (configurations : Path) (named : Option Path)
        (environment : List (String × String)) (others : List (String × Datum)),
      Variable.Plain environment → Config.FileHolds files configurations named others →
      (∀ name ∈ Config.fieldNames, Config.given others environment name = given name) →
      Config.load files configurations named environment = loaded) ∧
    settings machine switches = loaded.map fun config => {
      config with
      root := if switches.root.isSome then switches.root else config.root
      checkDesktopFiles := if switches.noDesktop then false else config.checkDesktopFiles
      searchFileLists := if switches.searchFileLists then true else config.searchFileLists } := by
  intro loaded given
  have hloaded (config : Config) : loaded = .ok config ↔ config.Takes given :=
    Config.load_eq_ok_iff hfile hplain config
  have hinvalid (hnone : ¬ ∃ config : Config, config.Takes given) : loaded = .error .invalid :=
    Config.load_eq_invalid hfile hplain hnone
  refine ⟨hloaded, hinvalid, ?_, ?_⟩
  · intro files configurations named environment others hother hholds hsame
    by_cases hsome : ∃ config : Config, config.Takes given
    · obtain ⟨config, hconfig⟩ := hsome
      rw [(hloaded config).mpr hconfig, Config.load_eq_ok_iff hholds hother,
        Config.Takes.congr hsame]
      exact hconfig
    · rw [hinvalid hsome]
      refine Config.load_eq_invalid hholds hother ?_
      rintro ⟨config, hconfig⟩
      exact hsome ⟨config, (Config.Takes.congr hsame).mp hconfig⟩
  · change loaded.map (fun config => configure config switches) = _
    congr 1
    funext config
    rw [configure]
    congr 1
    · cases switches.root <;> rfl
    · cases switches.noDesktop <;> simp
    · cases switches.searchFileLists <;> simp

/-- A root of the wrong type is hidden by the environment, which also has a variable of others. -/
theorem settings_layered_shadowed :
    let text := "root = true\nsearch_filelist = true\ncolour = false\n"
    let path : Path := .ofString "c.toml"
    let machine : Machine := {
      files := { Files.none with
        read := fun _ => .ok (.ofBytes (Utf8.encode text)), isFile := fun other => other = path }
      configurations := .ofString ".config"
      environment := [("HOME", "/root"), ("Appdata_Root", "/sysroot")]
      input := .ofBytes [] }
    let switches := { Switches.none with config := some path, noDesktop := true }
    let members : List (String × Datum) :=
      [("root", .bool true), ("search_filelist", .bool true), ("colour", .bool false)]
    Variable.Plain machine.environment ∧
      Config.FileHolds machine.files machine.configurations switches.config members ∧
      settings machine switches = .ok { Config.default with
        root := some (.ofString "/sysroot"), checkDesktopFiles := false, searchFileLists := true } := by
  intro text path machine switches members
  have hplain : Variable.Plain machine.environment := ⟨by decide +kernel, by decide +kernel⟩
  have hfile : Config.FileHolds machine.files machine.configurations switches.config members :=
    .members rfl rfl rfl rfl rfl
  obtain ⟨hloaded, -, -, hsettings⟩ := settings_layered machine switches hplain hfile
  refine ⟨hplain, hfile, ?_⟩
  rw [hsettings, (hloaded { Config.default with
    root := some (.ofString "/sysroot"), searchFileLists := true }).mpr]
  · rfl
  · exact ⟨rfl, rfl, rfl, rfl, rfl, rfl⟩

end Program

end Metainfo
