import Metainfo.Files.DesktopFiles
import Metainfo.Proofs.Files.Components

/-!
Where paths below a root lead when the way up is followed. Nothing keeps the way up below the root:
a path leads where it would if the root were the top of the tree only as long as it does not climb
above its own start.
-/

namespace Metainfo

namespace Path

/-- The place that one more component leads to, told by the names on the way from the top. The way
up takes the last of them away; above the top there is nothing. -/
def follow (place : List (List UInt8)) : Component → List (List UInt8)
  | .root => []
  | .current => place
  | .parent => place.dropLast
  | .name bytes => place ++ [bytes]

/-- Where a path leads from the top. -/
def place (path : Path) : List (List UInt8) :=
  path.components.foldl follow []

/-- Going up at some component leads out of a start that is so many names above. -/
def climbs : (depth : Nat) → List Component → Bool
  | _, [] => false
  | 0, .parent :: _ => true
  | depth + 1, .parent :: components => climbs depth components
  | depth, .name _ :: components => climbs (depth + 1) components
  | depth, _ :: components => climbs depth components

section

variable {components : List Component} {place inside base : List (List UInt8)}

/-- On the way from a place that is nearer to the top one stays nearer. -/
theorem length_foldl_follow_lt (hroot : .root ∉ components) (hbase : base ≠ [])
    (h : place.length < base.length + inside.length) :
    (components.foldl follow place).length <
      base.length + (components.foldl follow inside).length := by
  induction components generalizing place inside with
  | nil => exact h
  | cons component components ih =>
      have hpositive := List.length_pos_of_ne_nil hbase
      refine ih (List.not_mem_of_not_mem_cons hroot) ?_
      cases component with
      | root => exact absurd List.mem_cons_self hroot
      | current => exact h
      | parent =>
          simp only [follow, List.length_dropLast]
          omega
      | name bytes =>
          simp only [follow, List.length_append, List.length_singleton]
          omega

/-- What lies above the start makes no difference if the way does not lead out of it, and only
then. -/
theorem foldl_follow_append_iff (hroot : .root ∉ components) (hbase : base ≠ []) :
    components.foldl follow (base ++ inside) = base ++ components.foldl follow inside ↔
      climbs inside.length components = false := by
  induction components generalizing inside with
  | nil => simp [climbs]
  | cons component components ih =>
      have hrest := List.not_mem_of_not_mem_cons hroot
      rw [List.foldl_cons, List.foldl_cons]
      cases component with
      | root => exact absurd List.mem_cons_self hroot
      | current =>
          rw [climbs.eq_def]
          exact ih hrest
      | name bytes =>
          rw [follow, follow, List.append_assoc, ih hrest, List.length_append]
          cases inside <;> rfl
      | parent =>
          cases hlength : inside.length with
          | zero =>
              -- The last name of the base goes, and nothing inside goes for it.
              obtain rfl := List.length_eq_zero_iff.mp hlength
              have hnearer : base.dropLast.length < base.length + 0 := by
                rw [List.length_dropLast]
                exact Nat.sub_lt (List.length_pos_of_ne_nil hbase) Nat.one_pos
              have hlt := @length_foldl_follow_lt _ _ [] base hrest hbase hnearer
              refine iff_of_false (fun hsame => ?_) (by simp [climbs])
              rw [List.append_nil] at hsame
              exact Nat.ne_of_lt hlt ((congrArg List.length hsame).trans List.length_append)
          | succ depth =>
              have hinside : inside ≠ [] := by
                rintro rfl
                contradiction
              rw [follow, follow, List.dropLast_append_of_ne_nil hinside, ih hrest,
                List.length_dropLast, hlength]
              rfl

end

theorem root_not_mem_inner (path : Path) : .root ∉ path.inner := fun hmem =>
  (isInner_of_mem_inner hmem).ne_root rfl

theorem place_eq (path : Path) : path.place = path.inner.foldl follow [] := by
  rw [place, components, List.foldl_append]
  congr 1
  split
  · rfl
  · split <;> rfl

/-- A path below a root is followed from where the root leads. -/
theorem place_below {root : Path} (hroot : root.bytes ≠ []) (path : Path) :
    (below (some root) path).place = path.inner.foldl follow root.place := by
  rw [place, components_below hroot, List.foldl_append, place]

/-- A path leads below a root to where it leads from the top if it does not climb above its start,
and only then unless the root is the top itself. -/
theorem place_below_eq_iff {root : Path} (hroot : root.isAbsolute) (path : Path) :
    (below (some root) path).place = root.place ++ path.place ↔
      root.place = [] ∨ climbs 0 path.inner = false := by
  rw [place_below (bytes_ne_nil_of_isAbsolute hroot), place_eq path]
  by_cases hbase : root.place = []
  · simp [hbase]
  · have hsame := @foldl_follow_append_iff _ [] root.place (root_not_mem_inner path) hbase
    rw [List.append_nil] at hsame
    rw [hsame, or_iff_right hbase]
    rfl

/-- Without a way up a path does not climb. -/
theorem climbs_eq_false {components : List Component} (h : .parent ∉ components) (depth : Nat) :
    climbs depth components = false := by
  induction components generalizing depth with
  | nil => cases depth <;> rfl
  | cons component components ih =>
      have hrest := List.not_mem_of_not_mem_cons h
      cases component with
      | parent => exact absurd List.mem_cons_self h
      | root => cases depth <;> exact ih hrest _
      | current => cases depth <;> exact ih hrest _
      | name bytes => cases depth <;> exact ih hrest _

theorem inner_join (base path : Path) :
    (base.join path).inner = if path.isAbsolute then path.inner else base.inner ++ path.inner := by
  cases h : path.isAbsolute with
  | true => rw [join, if_pos h, if_pos rfl]
  | false =>
      rw [inner, segments_join h, List.filterMap_append, if_neg Bool.false_ne_true, inner, inner]

end Path

namespace DesktopFiles

open Metainfo.Path

/-- The desktop file of an id that names no way up lies below the root, in the directory of
applications or, if the id is an absolute path, where this leads. -/
theorem place_path_of_not_mem {desktopFiles : DesktopFiles} {root : Path}
    (hroot : desktopFiles.root = some root) (habsolute : root.isAbsolute)
    (hdirectory : .parent ∉ desktopFiles.applicationsDir.inner) {id : String}
    (hid : .parent ∉ (Path.ofString id).inner) :
    (desktopFiles.path id true).place = root.place ++ (desktopFiles.path id false).place := by
  have hpath : desktopFiles.path id true = below (some root) (desktopFiles.path id false) := by
    rw [path, path, hroot]
    rfl
  rw [hpath, place_below_eq_iff habsolute]
  refine Or.inr (climbs_eq_false ?_ 0)
  rw [path, if_neg Bool.false_ne_true, inner_join]
  split
  · exact hid
  · exact fun hmem => (List.mem_append.mp hmem).elim hdirectory hid

end DesktopFiles

/-- What is looked up below a root is found where it would be if the root were the top of the tree,
as long as the way to it does not climb above the start. Where it does it leads out of the root,
whether the path was given as one or as the id of a desktop file. -/
theorem lookups_below_root_iff {root : Path} (hroot : root.isAbsolute) :
    (∀ path : Path, (Path.below (some root) path).place = root.place ++ path.place ↔
      root.place = [] ∨ Path.climbs 0 path.inner = false) ∧
    ∀ (applicationsDir : Path) (id : String),
      let desktopFiles : DesktopFiles := ⟨applicationsDir, some root⟩
      (desktopFiles.path id true).place = root.place ++ (desktopFiles.path id false).place ↔
        root.place = [] ∨ Path.climbs 0 (desktopFiles.path id false).inner = false :=
  ⟨Path.place_below_eq_iff hroot, fun _ _ => Path.place_below_eq_iff hroot _⟩

/-- An id that climbs, and leads out of the root. -/
theorem lookups_below_root_iff_climbing :
    let root := Path.ofString "/sysroot"
    let desktopFiles := DesktopFiles.default.withRoot root
    root.isAbsolute ∧
      (desktopFiles.path "../../../../etc/x" true).place = ["etc", "x"].map Utf8.encode ∧
      (desktopFiles.path "../../../../etc/x" true).place ≠
        root.place ++ (desktopFiles.path "../../../../etc/x" false).place := by
  intro root desktopFiles
  have hroot : root.isAbsolute := by decide
  obtain ⟨-, hdesktop⟩ := lookups_below_root_iff hroot
  refine ⟨hroot, by decide +kernel, fun hsame => ?_⟩
  have hclimbs := (hdesktop DesktopFiles.defaultApplicationsDir "../../../../etc/x").mp hsame
  revert hclimbs
  decide +kernel

end Metainfo
