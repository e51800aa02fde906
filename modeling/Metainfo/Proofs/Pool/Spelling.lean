import Mathlib.Data.List.Induction
import Metainfo.Proofs.Pool.Refinement

/-!
Relations as the texts behind their numbers. A pool that learns more texts spells a relation as it
did before, and relations are the same where their texts are.
-/

namespace Metainfo

theorem nodup_addNew {α : Type} [DecidableEq α] {elements : List α} (h : elements.Nodup)
    (element : α) : (addNew elements element).Nodup := by
  rw [addNew]
  split
  · exact h
  · rename_i hnew
    rw [List.contains_iff_mem] at hnew
    rw [List.nodup_append]
    refine ⟨h, by simp, ?_⟩
    rintro other hother _ hsingle rfl
    exact hnew (List.mem_singleton.mp hsingle ▸ hother)

theorem foldl_addNew {α : Type} [DecidableEq α] (elements : List α) :
    elements.foldl addNew [] = elements.eraseDups := by
  induction elements using List.reverseRecOn with
  | nil => rfl
  | append_singleton elements element ih =>
      rw [List.foldl_append, ih, List.eraseDups_append]
      by_cases hmem : element ∈ elements <;>
        simp [addNew, hmem, List.removeAll, List.eraseDups_cons]

theorem nodup_eraseDups {α : Type} [DecidableEq α] (elements : List α) :
    elements.eraseDups.Nodup := by
  have hfold (kept : List α) (hkept : kept.Nodup) : (elements.foldl addNew kept).Nodup := by
    induction elements generalizing kept with
    | nil => exact hkept
    | cons element elements ih => exact ih _ (nodup_addNew hkept element)
  rw [← foldl_addNew]
  exact hfold [] List.nodup_nil

namespace Pool

/-- The texts of a relation, if the pool knows them all. -/
def spell? (pool : Pool) (relation : Relation) : Option PlainRelation :=
  match relation.version with
  | none => (pool.resolve? relation.name).map fun name => ⟨name, none⟩
  | some version =>
      (pool.resolve? relation.name).bind fun name =>
        (pool.resolve? version).map fun version => ⟨name, some version⟩

theorem spell?_of_extends {pool later : Pool} (h : pool.strings.Extends later.strings)
    {relation : Relation} {plain : PlainRelation} (hplain : pool.spell? relation = some plain) :
    later.spell? relation = some plain := by
  obtain ⟨name, version⟩ := relation
  cases version with
  | none =>
      obtain ⟨text, htext, rfl⟩ := Option.map_eq_some_iff.mp hplain
      exact Option.map_eq_some_iff.mpr ⟨text, h name text htext, rfl⟩
  | some version =>
      obtain ⟨text, htext, hrest⟩ := Option.bind_eq_some_iff.mp hplain
      obtain ⟨number, hnumber, rfl⟩ := Option.map_eq_some_iff.mp hrest
      refine Option.bind_eq_some_iff.mpr ⟨text, h name text htext, ?_⟩
      exact Option.map_eq_some_iff.mpr ⟨number, h version number hnumber, rfl⟩

theorem spell?_of_same {pool later : Pool} (h : later.strings = pool.strings) :
    later.spell? = pool.spell? := by
  funext relation
  simp only [spell?, resolve?, h]

theorem spell?_injective {pool : Pool} (h : pool.strings.Valid) {first second : Relation}
    {plain : PlainRelation} (hfirst : pool.spell? first = some plain)
    (hsecond : pool.spell? second = some plain) : first = second := by
  obtain ⟨name, version⟩ := first
  obtain ⟨name', version'⟩ := second
  cases version with
  | none =>
      obtain ⟨text, htext, rfl⟩ := Option.map_eq_some_iff.mp hfirst
      cases version' with
      | none =>
          obtain ⟨text', htext', heq⟩ := Option.map_eq_some_iff.mp hsecond
          obtain rfl : text' = text := congrArg PlainRelation.name heq
          obtain rfl : name = name' := h.resolve?_injective htext htext'
          rfl
      | some version' =>
          obtain ⟨text', htext', hrest⟩ := Option.bind_eq_some_iff.mp hsecond
          obtain ⟨number, hnumber, heq⟩ := Option.map_eq_some_iff.mp hrest
          simp at heq
  | some version =>
      obtain ⟨text, htext, hrest⟩ := Option.bind_eq_some_iff.mp hfirst
      obtain ⟨number, hnumber, rfl⟩ := Option.map_eq_some_iff.mp hrest
      cases version' with
      | none =>
          obtain ⟨text', htext', heq⟩ := Option.map_eq_some_iff.mp hsecond
          simp at heq
      | some version' =>
          obtain ⟨text', htext', hrest'⟩ := Option.bind_eq_some_iff.mp hsecond
          obtain ⟨number', hnumber', heq⟩ := Option.map_eq_some_iff.mp hrest'
          obtain ⟨rfl, hversion⟩ := PlainRelation.mk.inj heq
          obtain rfl : number' = number := Option.some.inj hversion
          obtain rfl : name = name' := h.resolve?_injective htext htext'
          rw [h.resolve?_injective hnumber hnumber']

/-- Relations keep their texts. -/
theorem map_spell?_of_extends {pool later : Pool} (h : pool.strings.Extends later.strings)
    {relations : List Relation} (hknown : none ∉ relations.map pool.spell?) :
    relations.map later.spell? = relations.map pool.spell? := by
  apply List.map_congr_left
  intro relation hrelation
  cases hplain : pool.spell? relation with
  | none => exact absurd (hplain ▸ List.mem_map_of_mem hrelation) hknown
  | some plain => exact spell?_of_extends h hplain
/-- One more relation is one more text, unless the text is there already. -/
theorem map_spell?_addNew {pool : Pool} (h : pool.strings.Valid) (text : String → PlainRelation)
    {relations : List Relation} {relation : Relation} {targets : List String} {target : String}
    (hrelations : relations.map pool.spell? = targets.map fun target => some (text target))
    (hrelation : pool.spell? relation = some (text target))
    (hinj : ∀ other ∈ targets, text other = text target → other = target) :
    (addNew relations relation).map pool.spell? =
      (addNew targets target).map fun target => some (text target) := by
  rw [addNew_map, addNew_map, hrelations, hrelation]
  · rintro other hother heq
    exact hinj other hother (Option.some.inj heq)
  · rintro other hother heq
    exact spell?_injective h (heq.trans hrelation) hrelation

end Pool

end Metainfo
