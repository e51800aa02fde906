import Mathlib.Data.List.Basic
import Metainfo.Files.Path

/-!
The components of paths that are put together. A path below a root has the components of the root
and then its own, in order, but for the root and the current directory among these.
-/

namespace Metainfo

namespace Affix

variable {α : Type} [BEq α]

theorem parts_ne_nil (separator : α) (text : List α) : parts separator text ≠ [] := by
  cases text with
  | nil => exact List.cons_ne_nil _ _
  | cons a rest =>
      rw [parts]
      split
      · exact List.cons_ne_nil _ _
      · split <;> exact List.cons_ne_nil _ _

variable [LawfulBEq α] {separator : α}

theorem parts_append (before after : List α) :
    parts separator (before ++ separator :: after) =
      parts separator before ++ parts separator after := by
  induction before with
  | nil => simp [parts]
  | cons a before ih =>
      obtain ⟨part, others, hparts⟩ :=
        List.exists_cons_of_ne_nil (parts_ne_nil separator before)
      rw [List.cons_append, parts, parts, ih, hparts]
      split <;> rfl

theorem parts_of_not_mem {text : List α} (h : separator ∉ text) :
    parts separator text = [text] := by
  induction text with
  | nil => rfl
  | cons a rest ih =>
      have hne : ¬ a == separator := fun heq => h (beq_iff_eq.mp heq ▸ List.mem_cons_self)
      rw [parts, if_neg hne, ih (List.not_mem_of_not_mem_cons h)]

theorem not_mem_of_mem_parts {text part : List α} (h : part ∈ parts separator text) :
    separator ∉ part := by
  induction text generalizing part with
  | nil =>
      obtain rfl := List.mem_singleton.mp h
      exact List.not_mem_nil
  | cons a rest ih =>
      obtain ⟨first, others, hparts⟩ := List.exists_cons_of_ne_nil (parts_ne_nil separator rest)
      rw [parts, hparts] at h
      rw [hparts] at ih
      split at h
      · rcases List.mem_cons.mp h with rfl | hmem
        · exact List.not_mem_nil
        · exact ih hmem
      · rename_i hne
        rcases List.mem_cons.mp h with rfl | hmem
        · exact List.not_mem_cons_of_ne_of_not_mem
            (fun heq => hne (beq_iff_eq.mpr heq.symm)) (ih List.mem_cons_self)
        · exact ih (List.mem_cons_of_mem _ hmem)

end Affix

namespace Path

open Metainfo.Affix
open Metainfo.Utf8

variable {base path : Path}

theorem bytes_ne_nil_of_isAbsolute (h : path.isAbsolute) : path.bytes ≠ [] := by
  intro hnil
  rw [isAbsolute, hnil] at h
  contradiction

/-! A relative path behind another one. -/

theorem parts_join (h : path.isAbsolute = false) (hbase : base.bytes ≠ []) :
    ∃ front, front ≠ [] ∧
      parts slash (base.join path).bytes = front ++ parts slash path.bytes ∧
        (parts slash base.bytes = front ∨ parts slash base.bytes = front ++ [[]]) := by
  rw [join, if_neg (by simp [h])]
  cases hlast : base.bytes.getLast? with
  | none => exact absurd (List.getLast?_eq_none_iff.mp hlast) hbase
  | some last =>
      obtain ⟨before, hbytes⟩ := List.getLast?_eq_some_iff.mp hlast
      dsimp only
      split
      · rename_i hslash
        refine ⟨parts slash before, parts_ne_nil slash before, ?_, Or.inr ?_⟩
        · rw [hbytes, hslash, List.append_assoc, List.singleton_append, parts_append]
        · rw [hbytes, hslash, parts_append, parts]
      · exact ⟨parts slash base.bytes, parts_ne_nil slash _, parts_append _ _, Or.inl rfl⟩

theorem segments_join (h : path.isAbsolute = false) :
    (base.join path).segments = base.segments ++ path.segments := by
  by_cases hbase : base.bytes = []
  · rw [join, if_neg (by simp [h])]
    simp [segments, hbase, parts]
  · obtain ⟨front, -, hjoin, hparts⟩ := parts_join h hbase
    rcases hparts with hparts | hparts <;> simp [segments, hjoin, hparts]

theorem isAbsolute_join (h : path.isAbsolute = false) :
    (base.join path).isAbsolute = base.isAbsolute := by
  rw [join, if_neg (by simp [h])]
  cases hlast : base.bytes.getLast? with
  | none =>
      rw [List.getLast?_eq_none_iff] at hlast
      rw [h, isAbsolute, hlast]
      rfl
  | some last =>
      obtain ⟨first, rest, hbytes⟩ := List.exists_cons_of_ne_nil
        (List.ne_nil_of_mem (List.mem_of_getLast? hlast))
      simp only [isAbsolute, hbytes]
      split <;> rfl

/-- The components of a path that lead somewhere: names and the way up. -/
def inner (path : Path) : List Component :=
  path.segments.filterMap component?

theorem components_join (h : path.isAbsolute = false) (hbase : base.bytes ≠ []) :
    (base.join path).components = base.components ++ path.inner := by
  obtain ⟨front, hfront, hjoin, hparts⟩ := parts_join h hbase
  have hhead : (parts slash (base.join path).bytes).head? = (parts slash base.bytes).head? := by
    obtain ⟨first, rest, rfl⟩ := List.exists_cons_of_ne_nil hfront
    rcases hparts with hparts | hparts <;> rw [hjoin, hparts] <;> rfl
  rw [components, components, isAbsolute_join h, hhead, segments_join h, List.filterMap_append,
    List.append_assoc, inner]

/-! The components of a path. -/

/-- A component that can be told from its bytes, which stand between two slashes. -/
structure IsInner (component : Component) : Prop where
  component? : component? component.bytes = some component
  ne_nil : component.bytes ≠ []
  not_mem : slash ∉ component.bytes

theorem IsInner.ne_current {component : Component} (h : IsInner component) :
    component ≠ .current := by
  rintro rfl
  exact absurd h.component? (by decide)

theorem IsInner.ne_root {component : Component} (h : IsInner component) : component ≠ .root := by
  rintro rfl
  exact h.not_mem (by decide)

theorem isInner_of_mem_inner {component : Component} (h : component ∈ path.inner) :
    IsInner component := by
  obtain ⟨segment, hsegment, hcomponent⟩ := List.mem_filterMap.mp h
  obtain ⟨hpart, hne⟩ := List.mem_filter.mp hsegment
  have hbytes : component.bytes = segment := by
    rw [Path.component?] at hcomponent
    split at hcomponent
    · contradiction
    · split at hcomponent
      · rename_i hparent
        rw [hparent, ← Option.some.inj hcomponent]
        rfl
      · rw [← Option.some.inj hcomponent]
        rfl
  rw [← hbytes] at hcomponent hpart hne
  exact ⟨hcomponent, by simpa using hne, not_mem_of_mem_parts hpart⟩

theorem mem_components {component : Component} (h : component ∈ path.components) :
    component = .root ∨ component = .current ∨ component ∈ path.inner := by
  rw [components] at h
  rcases List.mem_append.mp h with hfirst | hinner
  · split at hfirst
    · exact Or.inl (List.mem_singleton.mp hfirst)
    · split at hfirst
      · exact Or.inr (Or.inl (List.mem_singleton.mp hfirst))
      · contradiction
  · exact Or.inr (Or.inr hinner)

theorem filter_components (path : Path) :
    path.components.filter (fun component => component != .root && component != .current) =
      path.inner := by
  rw [components, List.filter_append]
  have hinner : (path.segments.filterMap component?).filter
      (fun component => component != .root && component != .current) = path.inner := by
    refine List.filter_eq_self.mpr fun component hmem => ?_
    have hcomponent : IsInner component := isInner_of_mem_inner hmem
    simp [hcomponent.ne_root, hcomponent.ne_current]
  rw [hinner]
  split
  · rfl
  · split <;> rfl

/-! Paths that are put together from components. -/

section

variable {components : List Component}
  (h : ∀ component ∈ components, component.bytes ≠ [] ∧ slash ∉ component.bytes)

include h

theorem foldl_join (base : Path) :
    let joined := components.foldl (fun path component => path.join ⟨component.bytes⟩) base
    joined.isAbsolute = base.isAbsolute ∧
      joined.segments = base.segments ++ components.map Component.bytes := by
  induction components generalizing base with
  | nil => exact ⟨rfl, (List.append_nil _).symm⟩
  | cons component components ih =>
      obtain ⟨⟨hne, hslash⟩, hrest⟩ := List.forall_mem_cons.mp h
      have hrelative : (⟨component.bytes⟩ : Path).isAbsolute = false := by
        rw [isAbsolute, decide_eq_false_iff_not]
        exact fun hhead => hslash (List.mem_of_mem_head? hhead)
      have hsegments : (⟨component.bytes⟩ : Path).segments = [component.bytes] := by
        rw [segments, parts_of_not_mem hslash]
        simpa using hne
      obtain ⟨habsolute, hjoined⟩ := ih hrest (base.join ⟨component.bytes⟩)
      refine ⟨habsolute.trans (isAbsolute_join hrelative), hjoined.trans ?_⟩
      rw [segments_join hrelative, hsegments, List.append_assoc]
      rfl

end

/-- A path below a root leads through the root and then where it leads itself. -/
theorem components_below {root : Path} (hroot : root.bytes ≠ []) (path : Path) :
    (below (some root) path).components = root.components ++ path.inner := by
  let kept := path.components.filter (· != .root)
  have hkept {component : Component} (h : component ∈ kept) :
      component = .current ∨ IsInner component := by
    obtain ⟨hmem, hne⟩ := List.mem_filter.mp h
    rcases mem_components hmem with rfl | rfl | hinner
    · contradiction
    · exact Or.inl rfl
    · exact Or.inr (isInner_of_mem_inner hinner)
  have hplain : ∀ component ∈ kept, component.bytes ≠ [] ∧ slash ∉ component.bytes := by
    intro component hmem
    rcases hkept hmem with rfl | hinner
    · decide
    · exact ⟨hinner.ne_nil, hinner.not_mem⟩
  obtain ⟨habsolute, hsegments⟩ := foldl_join hplain ⟨[]⟩
  have hrelative : (ofComponents kept).isAbsolute = false := habsolute
  have hinner : (ofComponents kept).inner = kept.filter (· != .current) := by
    rw [inner, show (ofComponents kept).segments = kept.map Component.bytes from hsegments,
      List.filterMap_map, ← List.filterMap_eq_filter]
    refine List.filterMap_congr fun component hmem => ?_
    rcases hkept hmem with rfl | hinner
    · decide
    · simp [hinner.component?, hinner.ne_current]
  rw [below, components_join hrelative hroot, hinner,
    List.filter_filter, ← filter_components]
  simp only [Bool.and_comm]

/-! Roots within roots. -/

theorem bytes_join_ne_nil (hbase : base.bytes ≠ []) : (base.join path).bytes ≠ [] := by
  rw [join]
  split
  · rename_i habsolute
    exact bytes_ne_nil_of_isAbsolute habsolute
  · split
    · split <;> exact List.append_ne_nil_of_left_ne_nil hbase _
    · rename_i hlast
      exact absurd (List.getLast?_eq_none_iff.mp hlast) hbase

theorem inner_below {root : Path} (hroot : root.bytes ≠ []) (path : Path) :
    (below (some root) path).inner = root.inner ++ path.inner := by
  rw [← filter_components, components_below hroot, List.filter_append, filter_components,
    ← filter_components path, List.filter_filter]
  simp only [Bool.and_self]

theorem inner_cons_slash (path : Path) : (⟨slash :: path.bytes⟩ : Path).inner = path.inner := by
  simp [inner, segments, parts]

/-- A path below a root has the components of the root and then those of the path in their order,
but for the root directory and the current one. So a root within a root may be put before a path at
once or one after the other, and a slash in front of a path makes no difference. -/
theorem components_below_below {root : Path} (hroot : root.bytes ≠ []) :
    (∀ path : Path, (below (some root) path).components =
      root.components ++
        path.components.filter fun component => component != .root && component != .current) ∧
      (∀ nested : Path, nested.bytes ≠ [] → ∀ path : Path,
        (below (some root) (below (some nested) path)).components =
          (below (some (below (some root) nested)) path).components) ∧
      ∀ path : Path, (below (some root) path).components =
        (below (some root) ⟨slash :: path.bytes⟩).components := by
  refine ⟨fun path => ?_, fun nested hnested path => ?_, fun path => ?_⟩
  · rw [components_below hroot, filter_components]
  · have hboth : (below (some root) nested).bytes ≠ [] := bytes_join_ne_nil hroot
    rw [components_below hroot, inner_below hnested, components_below hboth,
      components_below hroot, List.append_assoc]
  · rw [components_below hroot, components_below hroot, inner_cons_slash]

theorem components_below_below_slashes :
    let root := ofString "./sysroot//"
    let nested := ofString "/.chroot"
    let path := ofString "./usr/.//share/../"
    root.bytes ≠ [] ∧ nested.bytes ≠ [] ∧
      (below (some (below (some root) nested)) path).components =
        .current :: ["sysroot", ".chroot", "usr", "share"].map (.name ∘ encode) ++ [.parent] := by
  intro root nested path
  have hroot : root.bytes ≠ [] := by decide
  have hnested : nested.bytes ≠ [] := by decide
  obtain ⟨hcomponents, hbelow, -⟩ := components_below_below hroot
  refine ⟨hroot, hnested, ?_⟩
  rw [← hbelow nested hnested path, hcomponents]
  decide +kernel

end Path

end Metainfo
