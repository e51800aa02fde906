import Metainfo.Proofs.Pool.Observation

/-!
Histories of a pool. After any series of operations a pool shows what the plain store shows that
has gone through the same series; interning and carrying writes out leave no trace in it, and a
new record is empty whatever its slot held before.
-/

namespace Metainfo

/-- The operations that change what can be seen. -/
def Operation.isVisible {τ : Type} : Operation τ → Bool
  | .intern _ | .internalize => false
  | _ => true

theorem Operation.map_congr {τ υ : Type} {f g : τ → υ} {operation : Operation τ}
    (h : ∀ argument ∈ operation.arguments, f argument = g argument) :
    operation.map f = operation.map g := by
  cases operation with
  | addRequires id name version => cases version <;> simp_all [map, arguments]
  | addProvides id name version => cases version <;> simp_all [map, arguments]
  | _ => simp_all [map, arguments]

theorem PlainStore.performAll_filter_isVisible (store : PlainStore)
    (operations : List (Operation String)) :
    store.performAll (operations.filter Operation.isVisible) = store.performAll operations := by
  induction operations generalizing store with
  | nil => rfl
  | cons operation rest ih =>
      rw [List.filter_cons]
      split
      · exact ih (store.perform operation)
      · rename_i hvisible
        have hsame : store.perform operation = store := by
          cases operation <;> simp_all [Operation.isVisible, perform]
        change _ = (store.perform operation).performAll rest
        rw [hsame, ih]

namespace Pool

/-- The operations are only given numbers that the pool has given out before. -/
def OwnNumbers : Pool → List (Operation StringId) → Prop
  | _, [] => True
  | pool, operation :: rest =>
      (∀ number ∈ operation.arguments, pool.Knows number) ∧
        (pool.perform operation).OwnNumbers rest

/-- The operations with the texts for which their numbers stand. -/
def spell : Pool → List (Operation StringId) → List (Operation String)
  | _, [] => []
  | pool, operation :: rest =>
      operation.map pool.textOf :: (pool.perform operation).spell rest

theorem performAll_append (pool : Pool) (first second : List (Operation StringId)) :
    pool.performAll (first ++ second) = (pool.performAll first).performAll second :=
  List.foldl_append

theorem strings_performAll_extends (pool : Pool) (operations : List (Operation StringId)) :
    pool.strings.Extends (pool.performAll operations).strings := by
  induction operations generalizing pool with
  | nil => exact Interner.Extends.refl _
  | cons operation rest ih => exact (strings_perform_extends pool operation).trans (ih _)

/-- The numbers keep their texts to the end. -/
theorem spell_eq_map {pool : Pool} {operations : List (Operation StringId)}
    (hown : pool.OwnNumbers operations) :
    pool.spell operations =
      operations.map (Operation.map (pool.performAll operations).textOf) := by
  induction operations generalizing pool with
  | nil => rfl
  | cons operation rest ih =>
      obtain ⟨harguments, hrest⟩ := hown
      rw [spell, List.map_cons, ih hrest]
      congr 1
      apply Operation.map_congr
      intro number hnumber
      exact (textOf_of_extends (strings_performAll_extends pool (operation :: rest))
        (harguments number hnumber)).symm

theorem plain_performAll {pool : Pool} (h : pool.WellFormed) (hclosed : pool.Closed)
    {operations : List (Operation StringId)} (hown : pool.OwnNumbers operations) :
    (pool.performAll operations).Closed ∧
      (pool.performAll operations).plain = pool.plain.performAll (pool.spell operations) := by
  induction operations generalizing pool with
  | nil => exact ⟨hclosed, rfl⟩
  | cons operation rest ih =>
      obtain ⟨harguments, hrest⟩ := hown
      have hstep := plain_perform h hclosed harguments
      obtain ⟨hlater, hplain⟩ := ih (h.perform operation) (hclosed.perform harguments) hrest
      refine ⟨hlater, ?_⟩
      change ((pool.perform operation).performAll rest).plain =
        (pool.plain.perform (operation.map pool.textOf)).performAll
          ((pool.perform operation).spell rest)
      rw [hplain, hstep]

theorem observe_performAll_eq {operations : List (Operation StringId)}
    (hown : empty.OwnNumbers operations) :
    (empty.performAll operations).observe =
      (PlainStore.empty.performAll (empty.spell operations)).observe := by
  obtain ⟨hclosed, hplain⟩ := plain_performAll wellFormed_empty closed_empty hown
  have hempty : empty.plain = PlainStore.empty := by
    ext1
    · rfl
    · funext id
      simp [plain_record?, record?, empty, PlainStore.empty]
  rw [observe_eq (wellFormed_empty.performAll operations) hclosed, hplain, hempty]

/-- A pool refines the plain store, series of operations that differ only in what they intern and
when they carry writes out cannot be told apart, and a new record is empty. -/
theorem observe_performAll (operations : List (Operation StringId))
    (hown : empty.OwnNumbers operations) :
    (empty.performAll operations).observe =
        (PlainStore.empty.performAll (empty.spell operations)).observe ∧
      (∀ others, empty.OwnNumbers others →
        (empty.spell others).filter Operation.isVisible =
          (empty.spell operations).filter Operation.isVisible →
        (empty.performAll others).observe = (empty.performAll operations).observe) ∧
      ∀ id pool, (empty.performAll operations).addRecord = (id, pool) →
        pool.view id = .ok (PlainRecord.empty.view id) := by
  refine ⟨observe_performAll_eq hown, ?_, ?_⟩
  · intro others hothers hvisible
    rw [observe_performAll_eq hothers, observe_performAll_eq hown,
      ← PlainStore.performAll_filter_isVisible, hvisible,
      PlainStore.performAll_filter_isVisible]
  · rintro id pool hadd
    obtain ⟨hclosed, -⟩ := plain_performAll wellFormed_empty closed_empty hown
    have hwell := wellFormed_empty.performAll operations
    have hpool : pool = (empty.performAll operations).perform .addRecord := by
      rw [perform, hadd]
    have hid : id = ⟨(empty.performAll operations).slots.size⟩ := by
      rw [← addRecord_fst, hadd]
    rw [view_eq (hpool ▸ hclosed.perform (by simp [Operation.arguments])), hpool,
      perform, plain_addRecord hwell hclosed, hid]
    simp [PlainStore.observe, PlainStore.perform, plain]

theorem observe_performAll_reused :
    let foo := (empty.addRecord.2.intern "foo").1
    let start : List (Operation StringId) := [.addRecord, .intern "foo"]
    let eager : List (Operation StringId) :=
      [.setName ⟨0⟩ foo, .addToList ⟨0⟩ .license "MIT", .internalize, .discard ⟨0⟩, .addRecord,
        .addProvides ⟨0⟩ foo none]
    let lazy : List (Operation StringId) :=
      [.setName ⟨0⟩ foo, .addToList ⟨0⟩ .license "MIT", .discard ⟨0⟩, .addRecord,
        .addProvides ⟨0⟩ foo none]
    (empty.OwnNumbers (start ++ eager) ∧ empty.OwnNumbers (start ++ lazy)) ∧
      (empty.performAll (start ++ eager)).observe =
        (PlainStore.empty.performAll (empty.spell (start ++ eager))).observe ∧
      (empty.performAll (start ++ lazy)).observe =
        (empty.performAll (start ++ eager)).observe := by
  intro foo start eager lazy
  have hfoo (rest : List (Operation StringId)) :
      ((empty.performAll start).performAll rest).resolve? foo = some "foo" :=
    strings_performAll_extends _ rest foo "foo"
      (wellFormed_empty.addRecord.strings.resolve?_intern "foo")
  have htext (rest : List (Operation StringId)) :
      (empty.performAll (start ++ rest)).textOf foo = "foo" := by
    rw [performAll_append, textOf, hfoo rest]
    rfl
  have heager : empty.OwnNumbers (start ++ eager) := by
    simp only [start, eager, List.cons_append, List.nil_append, OwnNumbers,
      Operation.arguments, Option.toList_none, List.not_mem_nil, List.mem_singleton, forall_eq,
      false_implies, implies_true, true_and, and_true]
    exact ⟨⟨"foo", hfoo []⟩, ⟨"foo", hfoo (eager.take 5)⟩⟩
  have hlazy : empty.OwnNumbers (start ++ lazy) := by
    simp only [start, lazy, List.cons_append, List.nil_append, OwnNumbers,
      Operation.arguments, Option.toList_none, List.not_mem_nil, List.mem_singleton, forall_eq,
      false_implies, implies_true, true_and, and_true]
    exact ⟨⟨"foo", hfoo []⟩, ⟨"foo", hfoo (lazy.take 4)⟩⟩
  have hvisible : (empty.spell (start ++ lazy)).filter Operation.isVisible =
      (empty.spell (start ++ eager)).filter Operation.isVisible := by
    rw [spell_eq_map heager, spell_eq_map hlazy]
    have hf := htext eager
    have hg := htext lazy
    revert hf hg
    generalize (empty.performAll (start ++ eager)).textOf = f
    generalize (empty.performAll (start ++ lazy)).textOf = g
    intro hf hg
    simp only [start, eager, lazy, List.cons_append, List.nil_append, List.map_cons,
      List.map_nil, Operation.map, Option.map_none, hf, hg]
    rfl
  obtain ⟨hobserve, hothers, -⟩ := observe_performAll _ heager
  exact ⟨⟨heager, hlazy⟩, hobserve, hothers _ hlazy hvisible⟩

end Pool

end Metainfo
