import Metainfo.Proofs.Pool.Refinement

/-!
Whatever the operations on a pool, it can be observed only as far as the plain store that has gone
through the same operations.
-/

namespace Metainfo

theorem mem_addNew {α : Type} [BEq α] [LawfulBEq α] {elements : List α} {element other : α} :
    other ∈ addNew elements element ↔ other ∈ elements ∨ other = element := by
  rw [addNew]
  split
  · rename_i hmem
    constructor
    · exact .inl
    · rintro (h | rfl)
      · exact h
      · exact List.contains_iff_mem.mp hmem
  · simp

namespace Pool

theorem strings_applyAll_extends (pool : Pool) (writes : List (RecordId × Write)) :
    pool.strings.Extends (pool.applyAll writes).strings := by
  induction writes generalizing pool with
  | nil => exact Interner.Extends.refl _
  | cons entry rest ih =>
      exact (strings_apply_extends pool entry.1 entry.2).trans (ih (pool.apply entry.1 entry.2))

theorem strings_internalize_extends (pool : Pool) :
    pool.strings.Extends pool.internalize.strings := by
  rw [internalize_eq_applyAll]
  exact strings_applyAll_extends { pool with staged := #[] } _

/-- A number once given out stands for the same text after any operation. -/
theorem strings_perform_extends (pool : Pool) (operation : Operation StringId) :
    pool.strings.Extends (pool.perform operation).strings := by
  have hrefl {later : Pool} (h : later.strings = pool.strings) :
      pool.strings.Extends later.strings := by
    rw [h]
    exact Interner.Extends.refl _
  cases operation with
  | addRecord => exact hrefl (strings_addRecord pool)
  | discard id => exact hrefl (strings_discard pool id)
  | intern text => exact pool.strings.extends_intern text
  | setName id name => exact hrefl (strings_update pool id _)
  | setArch id arch => exact hrefl (strings_update pool id _)
  | setVersion id version => exact hrefl (strings_update pool id _)
  | addRequires id name version => exact hrefl (strings_update pool id _)
  | addProvides id name version => exact hrefl (strings_update pool id _)
  | setText id key value => exact hrefl (strings_stage pool id _)
  | addToList id key value => exact hrefl (strings_stage pool id _)
  | internalize => exact strings_internalize_extends pool

namespace Closed

variable {pool later : Pool} (h : pool.Closed)

include h

theorem of_extends (hextends : pool.strings.Extends later.strings)
    (hrecords : ∀ id record, later.record? id = some record →
      pool.record? id = some record ∨ ∀ number ∈ record.numbers, later.Knows number) :
    later.Closed := by
  intro id record hrecord number hnumber
  rcases hrecords id record hrecord with hold | hnew
  · exact (h id record hold number hnumber).of_extends hextends
  · exact hnew number hnumber

theorem update {id : RecordId} {change : Record → Record} {arguments : List StringId}
    (harguments : ∀ number ∈ arguments, pool.Knows number)
    (hchange : ∀ record, ∀ number ∈ (change record).numbers,
      number ∈ record.numbers ∨ number ∈ arguments) : (pool.update id change).Closed := by
  have hknows (number : StringId) :
      (pool.update id change).Knows number ↔ pool.Knows number := by
    rw [Knows, Knows, resolve?, strings_update, resolve?]
  intro other record hrecord number hnumber
  rw [record?_update] at hrecord
  rw [hknows]
  split at hrecord
  · obtain ⟨old, hold, rfl⟩ := Option.map_eq_some_iff.mp hrecord
    rcases hchange old number hnumber with hmem | harg
    · exact h id old hold number hmem
    · exact harguments number harg
  · exact h other record hrecord number hnumber

theorem perform {operation : Operation StringId}
    (harguments : ∀ number ∈ operation.arguments, pool.Knows number) :
    (pool.perform operation).Closed := by
  have hextends := strings_perform_extends pool operation
  cases operation with
  | addRecord =>
      apply h.of_extends hextends
      intro id record hrecord
      rw [Pool.perform, record?_addRecord] at hrecord
      split at hrecord
      · right
        rw [← Option.some.inj hrecord]
        simp [Record.numbers, Record.empty]
      · exact .inl hrecord
  | discard id =>
      apply h.of_extends hextends
      intro other record hrecord
      rw [Pool.perform, record?_discard] at hrecord
      split at hrecord
      · simp at hrecord
      · exact .inl hrecord
  | intern text => exact h.of_extends hextends fun _ _ hrecord => .inl hrecord
  | setName id name =>
      apply h.update harguments
      intro record number hnumber
      simp [Record.numbers, Operation.arguments] at hnumber ⊢
      grind
  | setArch id arch =>
      apply h.update harguments
      intro record number hnumber
      simp [Record.numbers, Operation.arguments] at hnumber ⊢
      grind
  | setVersion id version =>
      apply h.update harguments
      intro record number hnumber
      simp [Record.numbers, Operation.arguments] at hnumber ⊢
      grind
  | addRequires id name version =>
      apply h.update harguments
      intro record number hnumber
      simp [Record.numbers, Record.addRequires, mem_addNew, Operation.arguments,
        Relation.numbers] at hnumber ⊢
      grind
  | addProvides id name version =>
      apply h.update harguments
      intro record number hnumber
      simp [Record.numbers, Record.addProvides, mem_addNew, Operation.arguments,
        Relation.numbers] at hnumber ⊢
      grind
  | setText id key value =>
      apply h.of_extends hextends
      exact fun other record hrecord => .inl ((record?_stage ..).symm.trans hrecord)
  | addToList id key value =>
      apply h.of_extends hextends
      exact fun other record hrecord => .inl ((record?_stage ..).symm.trans hrecord)
  | internalize =>
      apply h.of_extends hextends
      exact fun other record hrecord => .inl ((record?_internalize pool other).symm.trans hrecord)

end Closed

theorem closed_empty : empty.Closed := by
  intro id record hrecord
  simp [record?, empty] at hrecord

theorem plain_perform {pool : Pool} (h : pool.WellFormed) (hclosed : pool.Closed)
    {operation : Operation StringId}
    (harguments : ∀ number ∈ operation.arguments, pool.Knows number) :
    (pool.perform operation).plain = pool.plain.perform (operation.map pool.textOf) := by
  cases operation with
  | addRecord => exact plain_addRecord h hclosed
  | discard id => exact plain_discard hclosed id
  | intern text => exact plain_intern h hclosed text
  | setName id name => exact plain_update h id _ _ fun _ _ => rfl
  | setArch id arch => exact plain_update h id _ _ fun _ _ => rfl
  | setVersion id version => exact plain_update h id _ _ fun _ _ => rfl
  | addRequires id name version =>
      apply plain_update h
      intro record hrecord
      have hknown : ∀ relation ∈ record.requires, ∀ number ∈ relation.numbers,
          pool.Knows number := fun relation hrelation number hnumber =>
        hclosed id record hrecord number (by simp [Record.numbers]; grind)
      simp only [plainRecord, Record.addRequires]
      congr 1
      apply addNew_map pool.plainRelation
      intro other hother heq
      exact plainRelation_injective h.strings (hknown other hother)
        (by simpa [Relation.numbers, Operation.arguments] using harguments) heq
  | addProvides id name version =>
      apply plain_update h
      intro record hrecord
      have hknown : ∀ relation ∈ record.provides, ∀ number ∈ relation.numbers,
          pool.Knows number := fun relation hrelation number hnumber =>
        hclosed id record hrecord number (by simp [Record.numbers]; grind)
      simp only [plainRecord, Record.addProvides]
      congr 1
      apply addNew_map pool.plainRelation
      intro other hother heq
      exact plainRelation_injective h.strings (hknown other hother)
        (by simpa [Relation.numbers, Operation.arguments] using harguments) heq
  | setText id key value =>
      apply plain_stage hclosed
      intro record hrecord
      have hlive : pool.isLive id = true := isLive_iff.mpr ⟨record, hrecord⟩
      simp only [plainRecord, plainRelation_of_same (strings_stage pool id _),
        textOf_of_same (strings_stage pool id _)]
      congr 1
      · funext other
        rw [lookupText_stage hlive]
        by_cases hkey : key = other
        · simp [writtenText, hkey]
        · simp [writtenText, hkey, Ne.symm hkey]
      · funext other
        rw [lookupList_stage hlive]
        exact List.append_nil _
  | addToList id key value =>
      apply plain_stage hclosed
      intro record hrecord
      have hlive : pool.isLive id = true := isLive_iff.mpr ⟨record, hrecord⟩
      simp only [plainRecord, plainRelation_of_same (strings_stage pool id _),
        textOf_of_same (strings_stage pool id _)]
      congr 1
      · funext other
        rw [lookupText_stage hlive]
        rfl
      · funext other
        rw [lookupList_stage hlive]
        by_cases hkey : key = other
        · simp [addedValue, hkey]
        · simp [addedValue, hkey, Ne.symm hkey]
  | internalize =>
      ext1
      · simp [Pool.perform, plain, PlainStore.perform, Operation.map]
      · funext id
        apply plain_record?_of_extends hclosed (strings_internalize_extends pool)
          (record?_internalize pool id)
        · funext key
          exact lookupText_internalize pool id key
        · funext key
          exact h.lookupList_internalize id key

theorem size_eq_length_records (pool : Pool) : pool.size = pool.records.length := by
  have hslots : pool.slots.toList.map (fun slot => slot.isSome) =
      (List.range pool.slots.size).map fun index => pool.isLive ⟨index⟩ := by
    apply List.ext_getElem
    · simp
    · intro index hindex hindex'
      have hlt : index < pool.slots.size := by simpa using hindex
      simp [isLive, record?, Array.getElem?_eq_getElem hlt]
  have hcount := congrArg (List.countP id) hslots
  rw [List.countP_map, List.countP_map] at hcount
  rw [size, records, ← List.countP_eq_length_filter, List.countP_map, ← Array.countP_toList]
  exact hcount

theorem render_eq {pool : Pool} (relation : Relation) :
    pool.render relation = (pool.plainRelation relation).render := by
  obtain ⟨name, version⟩ := relation
  cases version <;> rfl

theorem bind_resolve?_eq {pool : Pool} {field : Option StringId}
    (h : ∀ number ∈ field, pool.Knows number) :
    field.bind pool.resolve? = field.map pool.textOf := by
  cases field with
  | none => rfl
  | some number => exact resolve?_eq_some_textOf (h number rfl)

theorem resolveField_eq {pool : Pool} {field : Option StringId}
    (h : ∀ number ∈ field, pool.Knows number) :
    pool.resolveField field = .ok (field.map pool.textOf) := by
  cases field with
  | none => rfl
  | some number => simp [resolveField, resolve?_eq_some_textOf (h number rfl)]

theorem viewAttributes_eq (pool : Pool) (id : RecordId) (record : Record) :
    pool.viewAttributes id = (pool.plainRecord id record).attributes := by
  have htext (key : TextKey) : pool.textAttribute id key =
      ((pool.plainRecord id record).textAttribute key).toList := rfl
  have hlist (key : ListKey) : pool.listAttribute id key =
      ((pool.plainRecord id record).listAttribute key).toList := by
    rw [listAttribute, PlainRecord.listAttribute, plainRecord]
    split <;> simp_all
  simp only [viewAttributes, PlainRecord.attributes, htext, hlist, List.flatMap_cons,
    List.flatMap_nil, List.append_nil, List.append_assoc]

theorem resolved_eq {pool : Pool} (hclosed : pool.Closed) (id : RecordId)
    {field : Record → Option StringId} {plainField : PlainRecord → Option String}
    (hnumbers : ∀ record, ∀ number ∈ field record, number ∈ record.numbers)
    (hplain : ∀ record, plainField (pool.plainRecord id record) = (field record).map pool.textOf) :
    ((pool.record? id).bind field).bind pool.resolve? =
      (pool.plain.record? id).bind plainField := by
  rw [plain_record?]
  cases hrecord : pool.record? id with
  | none => rfl
  | some record =>
      simp only [Option.map_some, Option.bind_some, hplain]
      exact bind_resolve?_eq fun number hnumber =>
        hclosed id record hrecord number (hnumbers record number hnumber)

theorem rendered_eq (pool : Pool) (id : RecordId) {relations : Record → List Relation}
    {plainRelations : PlainRecord → List PlainRelation}
    (hplain : ∀ record,
      plainRelations (pool.plainRecord id record) = (relations record).map pool.plainRelation) :
    ((pool.record? id).elim [] relations).map pool.render =
      ((pool.plain.record? id).elim [] plainRelations).map PlainRelation.render := by
  rw [plain_record?]
  cases pool.record? id with
  | none => rfl
  | some record => simp [hplain, render_eq]

theorem view_eq {pool : Pool} (hclosed : pool.Closed) (id : RecordId) :
    pool.view id = pool.plain.observe.view id := by
  simp only [PlainStore.observe, plain_record?]
  cases hrecord : pool.record? id with
  | none => simp [view, hrecord]
  | some record =>
      have hresolve (field : Option StringId)
          (hfield : ∀ number ∈ field, number ∈ record.numbers) :
          pool.resolveField field = .ok (field.map pool.textOf) :=
        resolveField_eq fun number hnumber =>
          hclosed id record hrecord number (hfield number hnumber)
      have hname := hresolve record.name (by simp [Record.numbers]; grind)
      have harch := hresolve record.arch (by simp [Record.numbers]; grind)
      have hversion := hresolve record.version (by simp [Record.numbers]; grind)
      have hrequires : pool.renderRequires id =
          (record.requires.map pool.plainRelation).map PlainRelation.render := by
        simp [renderRequires, requires, hrecord, render_eq]
      have hprovides : pool.renderProvides id =
          (record.provides.map pool.plainRelation).map PlainRelation.render := by
        simp [renderProvides, provides, hrecord, render_eq]
      simp only [view, hrecord, hname, harch, hversion, hrequires, hprovides,
        viewAttributes_eq pool id record]
      rfl

theorem observe_eq {pool : Pool} (h : pool.WellFormed) (hclosed : pool.Closed) :
    pool.observe = pool.plain.observe := by
  have hlive (id : RecordId) : (pool.plain.record? id).isSome = pool.isLive id := by
    simp [plain_record?, isLive]
  have hrecords : pool.records = pool.plain.records := by
    simp only [records, PlainStore.records, hlive]
    rfl
  simp only [observe, PlainStore.observe, Observation.mk.injEq]
  refine ⟨rfl, hrecords, ?_, ?_, ?_, ?_, ?_, ?_, ?_, ?_, ?_, ?_⟩
  · rw [size_eq_length_records, hrecords]
  · funext id
    exact resolved_eq hclosed id (by simp [Record.numbers]; grind) fun _ => rfl
  · funext id
    exact resolved_eq hclosed id (by simp [Record.numbers]; grind) fun _ => rfl
  · funext id
    exact resolved_eq hclosed id (by simp [Record.numbers]; grind) fun _ => rfl
  · funext id
    exact rendered_eq pool id fun _ => rfl
  · funext id
    exact rendered_eq pool id fun _ => rfl
  · funext id
    rw [hasRequires, requires, plain_record?]
    cases pool.record? id <;> simp [plainRecord]
  · funext id key
    rw [plain_record?]
    cases hrecord : pool.record? id with
    | none => exact h.lookupText_of_not_isLive (by simp [isLive, hrecord]) key
    | some record => rfl
  · funext id key
    rw [plain_record?]
    cases hrecord : pool.record? id with
    | none => exact h.lookupList_of_not_isLive (by simp [isLive, hrecord]) key
    | some record => rfl
  · funext id
    exact view_eq hclosed id

end Pool

end Metainfo
