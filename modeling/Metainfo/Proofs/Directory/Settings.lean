import Mathlib.Data.List.Induction
import Metainfo.Directory.Basic

/-!
How a directory is ingested after any series of settings. Of each kind the last one counts, whatever
stands between them; the root, which is kept for the directory and for desktop files, is the same in
both places.
-/

namespace Metainfo.DirectoryIngest

/-- One thing to be set before a directory is ingested. -/
inductive Setting where
  | root (root : Path)
  | applicationsDir (directory : Path)
  | fallback (enabled : Bool)
  | resolver (resolver : DesktopResolver)

inductive Setting.Kind where
  | root
  | applicationsDir
  | fallback
  | resolver
  deriving DecidableEq

namespace Setting

def kind : Setting → Kind
  | root _ => .root
  | applicationsDir _ => .applicationsDir
  | fallback _ => .fallback
  | resolver _ => .resolver

def root? : Setting → Option Path
  | root path => some path
  | _ => none

def applicationsDir? : Setting → Option Path
  | applicationsDir directory => some directory
  | _ => none

def fallback? : Setting → Option Bool
  | fallback enabled => some enabled
  | _ => none

def resolver? : Setting → Option DesktopResolver
  | resolver desktopEntries => some desktopEntries
  | _ => none

/-- The last setting of a kind. -/
def last? (kind : Kind) (series : List Setting) : Option Setting :=
  (series.filter (·.kind = kind)).getLast?

theorem last?_concat (kind : Kind) (series : List Setting) (setting : Setting) :
    last? kind (series ++ [setting]) =
      if setting.kind = kind then some setting else last? kind series := by
  rw [last?, List.filter_append]
  by_cases h : setting.kind = kind <;> simp [h, last?]

end Setting

def set (settings : DirectoryIngest) : Setting → DirectoryIngest
  | .root root => settings.withRoot root
  | .applicationsDir directory => settings.withApplicationsDir directory
  | .fallback enabled => settings.withFallback enabled
  | .resolver resolver => settings.withResolver resolver

def setAll (settings : DirectoryIngest) (series : List Setting) : DirectoryIngest :=
  series.foldl set settings

/-- The settings told by the last one of each kind. -/
def settled (flags : Flags) (series : List Setting) : DirectoryIngest :=
  let root := (Setting.last? .root series).bind Setting.root?
  let applicationsDir := (Setting.last? .applicationsDir series).bind Setting.applicationsDir?
  { flags
    root
    fallback := ((Setting.last? .fallback series).bind Setting.fallback?).getD true
    desktopFiles := ⟨applicationsDir.getD DesktopFiles.defaultApplicationsDir, root⟩
    resolver := (Setting.last? .resolver series).bind Setting.resolver? }

/-- One more setting keeps both roots in step. -/
theorem set_settled (flags : Flags) (series : List Setting) (setting : Setting) :
    (settled flags series).set setting = settled flags (series ++ [setting]) := by
  simp only [settled, Setting.last?_concat]
  cases setting with
  | root path => rfl
  | applicationsDir directory =>
      have hinStep (root : Option Path) :
          root.elim (DesktopFiles.inDirectory directory)
            (DesktopFiles.inDirectory directory).withRoot = ⟨directory, root⟩ := by
        cases root <;> rfl
      rw [set, withApplicationsDir, hinStep]
      rfl
  | fallback enabled => rfl
  | resolver desktopEntries => rfl

theorem setAll_ofFlags (flags : Flags) (series : List Setting) :
    (ofFlags flags).setAll series = settled flags series := by
  induction series using List.reverseRecOn with
  | nil => rfl
  | append_singleton series setting ih =>
      rw [← set_settled, ← ih]
      exact List.foldl_append

/-- Only the order among the settings of one kind matters. -/
theorem settled_congr (flags : Flags) {series others : List Setting}
    (h : ∀ kind : Setting.Kind, others.filter (·.kind = kind) = series.filter (·.kind = kind)) :
    settled flags others = settled flags series := by
  simp only [settled, Setting.last?, h]

/-- Whatever is set, and in whatever order, a directory is ingested with what was set last of each
kind, or else with the default. The root of the last call is the one below which the directory is
looked for and the desktop files are too, and settings of different kinds may change places. -/
theorem run_setAll_congr (flags : Flags) (series : List Setting) :
    let settings := (ofFlags flags).setAll series
    let root := (Setting.last? .root series).bind Setting.root?
    let applicationsDir := ((Setting.last? .applicationsDir series).bind
      Setting.applicationsDir?).getD DesktopFiles.defaultApplicationsDir
    settings =
      { flags
        root
        fallback := ((Setting.last? .fallback series).bind Setting.fallback?).getD true
        desktopFiles := ⟨applicationsDir, root⟩
        resolver := (Setting.last? .resolver series).bind Setting.resolver? } ∧
    (∀ directory, settings.lookupPath directory =
      if flags.useRoot then Path.below root directory else directory) ∧
    (∀ id useRoot, settings.desktopFiles.path id useRoot =
      if useRoot then Path.below root (applicationsDir.join (.ofString id))
      else applicationsDir.join (.ofString id)) ∧
    ∀ others : List Setting,
      (∀ kind : Setting.Kind, others.filter (·.kind = kind) = series.filter (·.kind = kind)) →
      ∀ files pool directory,
        ((ofFlags flags).setAll others).run files pool directory =
          settings.run files pool directory := by
  intro settings root applicationsDir
  have hsettings : settings = settled flags series := setAll_ofFlags flags series
  refine ⟨hsettings, fun directory => ?_, fun id useRoot => ?_, ?_⟩
  · rw [hsettings]
    rfl
  · rw [hsettings]
    rfl
  · intro others hsame files pool directory
    rw [setAll_ofFlags, settled_congr flags hsame, hsettings]

/-- The directory of applications set before a root and its replacement, or behind both. -/
theorem run_setAll_congr_replaced :
    let flags : Flags := { Flags.none with useRoot := true }
    let series : List Setting :=
      [.applicationsDir (.ofString "/apps"), .root (.ofString "/old"), .fallback false,
        .root (.ofString "/new")]
    let others : List Setting :=
      [.root (.ofString "/old"), .root (.ofString "/new"), .fallback false,
        .applicationsDir (.ofString "/apps")]
    (∀ kind : Setting.Kind, others.filter (·.kind = kind) = series.filter (·.kind = kind)) ∧
      ((ofFlags flags).setAll series).lookupPath (.ofString "/m") = .ofString "/new/m" ∧
      ((ofFlags flags).setAll series).desktopFiles.path "a.desktop" true =
        .ofString "/new/apps/a.desktop" ∧
      ((ofFlags flags).setAll others).run .none .empty (.ofString "/m") =
        ((ofFlags flags).setAll series).run .none .empty (.ofString "/m") := by
  intro flags series others
  have hsame (kind : Setting.Kind) :
      others.filter (·.kind = kind) = series.filter (·.kind = kind) := by
    cases kind <;> rfl
  obtain ⟨-, hlookup, hpath, hrun⟩ := run_setAll_congr flags series
  refine ⟨hsame, ?_, ?_, hrun others hsame _ _ _⟩
  · rw [hlookup]
    decide +kernel
  · rw [hpath]
    decide +kernel

end Metainfo.DirectoryIngest
