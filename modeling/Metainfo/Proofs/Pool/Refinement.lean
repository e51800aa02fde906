import Metainfo.Proofs.Pool.PlainStore

/-!
A pool shows what the plain store shows that stands for it: each operation on the pool is the same
operation on the store. So neither the numbering of texts nor the staging of writes can be
observed.
-/

namespace Metainfo

theorem addNew_map {α β : Type} [DecidableEq α] [DecidableEq β] (f : α → β)
    (elements : List α) (element : α)
    (hinj : ∀ other ∈ elements, f other = f element → other = element) :
    (addNew elements element).map f = addNew (elements.map f) (f element) := by
  have hmem : f element ∈ elements.map f ↔ element ∈ elements := by
    constructor
    · intro h
      obtain ⟨other, hother, heq⟩ := List.mem_map.mp h
      exact hinj other hother heq ▸ hother
    · exact List.mem_map_of_mem
  simp only [addNew, List.contains_iff_mem, hmem]
  split
  · rfl
  · simp

namespace Relation

def numbers (relation : Relation) : List StringId :=
  relation.name :: relation.version.toList

end Relation

/-- The numbers that a record holds. -/
def Record.numbers (record : Record) : List StringId :=
  record.name.toList ++ record.arch.toList ++ record.version.toList ++
    (record.requires ++ record.provides).flatMap Relation.numbers

namespace Pool

/-- A number that the pool has given out. -/
def Knows (pool : Pool) (number : StringId) : Prop :=
  ∃ text, pool.resolve? number = some text

/-- All numbers that the records of a pool hold were given out by it. -/
def Closed (pool : Pool) : Prop :=
  ∀ id record, pool.record? id = some record → ∀ number ∈ record.numbers, pool.Knows number

def textOf (pool : Pool) (number : StringId) : String :=
  (pool.resolve? number).getD ""

def plainRelation (pool : Pool) (relation : Relation) : PlainRelation :=
  ⟨pool.textOf relation.name, relation.version.map pool.textOf⟩

def plainRecord (pool : Pool) (id : RecordId) (record : Record) : PlainRecord where
  name := record.name.map pool.textOf
  arch := record.arch.map pool.textOf
  version := record.version.map pool.textOf
  requires := record.requires.map pool.plainRelation
  provides := record.provides.map pool.plainRelation
  text? := pool.lookupText id
  list := pool.lookupList id

/-- The plain store that a pool stands for. -/
def plain (pool : Pool) : PlainStore where
  slots := pool.slots.size
  record? id := (pool.record? id).map (pool.plainRecord id)

theorem plain_record? (pool : Pool) (id : RecordId) :
    pool.plain.record? id = (pool.record? id).map (pool.plainRecord id) := rfl

theorem resolve?_eq_some_textOf {pool : Pool} {number : StringId} (h : pool.Knows number) :
    pool.resolve? number = some (pool.textOf number) := by
  obtain ⟨text, htext⟩ := h
  simp [textOf, htext]

theorem textOf_injective {pool : Pool} (h : pool.strings.Valid) {first second : StringId}
    (hfirst : pool.Knows first) (hsecond : pool.Knows second)
    (heq : pool.textOf first = pool.textOf second) : first = second := by
  apply h.resolve?_injective (resolve?_eq_some_textOf hfirst)
  rw [heq]
  exact resolve?_eq_some_textOf hsecond

theorem plainRelation_injective {pool : Pool} (h : pool.strings.Valid)
    {first second : Relation} (hfirst : ∀ number ∈ first.numbers, pool.Knows number)
    (hsecond : ∀ number ∈ second.numbers, pool.Knows number)
    (heq : pool.plainRelation first = pool.plainRelation second) : first = second := by
  obtain ⟨name, version⟩ := first
  obtain ⟨name', version'⟩ := second
  simp only [plainRelation, PlainRelation.mk.injEq, Relation.numbers, List.mem_cons,
    Option.mem_toList, forall_eq_or_imp] at heq hfirst hsecond
  have hname := textOf_injective h hfirst.1 hsecond.1 heq.1
  cases version <;> cases version' <;> simp at heq hfirst hsecond ⊢
  · exact hname
  · exact ⟨hname, textOf_injective h hfirst.2 hsecond.2 heq.2⟩

theorem textOf_of_same {pool later : Pool} (h : later.strings = pool.strings) :
    later.textOf = pool.textOf := by
  funext number
  rw [textOf, resolve?, h, textOf, resolve?]

theorem plainRelation_of_same {pool later : Pool} (h : later.strings = pool.strings) :
    later.plainRelation = pool.plainRelation := by
  funext relation
  rw [plainRelation, textOf_of_same h, plainRelation]

theorem textOf_of_extends {pool later : Pool} (h : pool.strings.Extends later.strings)
    {number : StringId} (hknown : pool.Knows number) :
    later.textOf number = pool.textOf number := by
  obtain ⟨text, htext⟩ := hknown
  have hlater : later.resolve? number = some text := h number text htext
  rw [textOf, textOf, htext, hlater]

theorem Knows.of_extends {pool later : Pool} (h : pool.strings.Extends later.strings)
    {number : StringId} (hknown : pool.Knows number) : later.Knows number := by
  obtain ⟨text, htext⟩ := hknown
  exact ⟨text, h number text htext⟩

theorem plainRelation_of_extends {pool later : Pool} (h : pool.strings.Extends later.strings)
    {relation : Relation} (hknown : ∀ number ∈ relation.numbers, pool.Knows number) :
    later.plainRelation relation = pool.plainRelation relation := by
  obtain ⟨name, version⟩ := relation
  rw [plainRelation, plainRelation, textOf_of_extends h (hknown name List.mem_cons_self)]
  cases version with
  | none => rfl
  | some version =>
      have hversion : pool.Knows version := hknown version (by simp [Relation.numbers])
      simp [textOf_of_extends h hversion]

/-- The plain record does not change as long as the look-ups do not and texts keep their
numbers. -/
theorem plainRecord_of_extends {pool later : Pool} (h : pool.strings.Extends later.strings)
    {id : RecordId} {record : Record} (hknown : ∀ number ∈ record.numbers, pool.Knows number)
    (htext : later.lookupText id = pool.lookupText id)
    (hlist : later.lookupList id = pool.lookupList id) :
    later.plainRecord id record = pool.plainRecord id record := by
  have hfield {field : Option StringId} (hfield : ∀ number ∈ field, pool.Knows number) :
      field.map later.textOf = field.map pool.textOf := by
    cases field with
    | none => rfl
    | some number => simp [textOf_of_extends h (hfield number rfl)]
  have hrelations {relations : List Relation}
      (hrelations : ∀ relation ∈ relations, ∀ number ∈ relation.numbers, pool.Knows number) :
      relations.map later.plainRelation = relations.map pool.plainRelation :=
    List.map_congr_left fun relation hrelation =>
      plainRelation_of_extends h (hrelations relation hrelation)
  simp only [Record.numbers, List.mem_append, List.mem_flatMap, Option.mem_toList] at hknown
  rw [plainRecord, plainRecord, htext, hlist]
  congr 1
  · exact hfield fun number hnumber => hknown number (by simp [Option.mem_def.mp hnumber])
  · exact hfield fun number hnumber => hknown number (by simp [Option.mem_def.mp hnumber])
  · exact hfield fun number hnumber => hknown number (by simp [Option.mem_def.mp hnumber])
  · exact hrelations fun relation hrelation number hnumber =>
      hknown number (.inr ⟨relation, .inl hrelation, hnumber⟩)
  · exact hrelations fun relation hrelation number hnumber =>
      hknown number (.inr ⟨relation, .inr hrelation, hnumber⟩)

theorem plain_record?_of_extends {pool later : Pool} (hclosed : pool.Closed)
    (h : pool.strings.Extends later.strings) {id : RecordId}
    (hrecord : later.record? id = pool.record? id)
    (htext : later.lookupText id = pool.lookupText id)
    (hlist : later.lookupList id = pool.lookupList id) :
    later.plain.record? id = pool.plain.record? id := by
  simp only [plain, hrecord]
  cases hid : pool.record? id with
  | none => rfl
  | some record =>
      simp only [Option.map_some]
      rw [plainRecord_of_extends h (hclosed id record hid) htext hlist]

/-! Each operation on the pool is the operation on the plain store. -/

theorem plain_addRecord {pool : Pool} (h : pool.WellFormed) (hclosed : pool.Closed) :
    pool.addRecord.2.plain = pool.plain.perform .addRecord := by
  have htext : pool.addRecord.2.lookupText = pool.lookupText := lookupText_of_same rfl rfl
  have hlist : pool.addRecord.2.lookupList = pool.lookupList :=
    h.lookupList_of_extends (Interner.Extends.refl _) rfl rfl
  ext1
  · exact size_addRecord pool
  · funext id
    simp only [PlainStore.perform]
    by_cases hid : id = ⟨pool.slots.size⟩
    · subst hid
      simp only [plain, record?_addRecord, if_true, Option.map_some, plainRecord, htext, hlist]
      congr 2
      · funext key
        exact h.lookupText_of_not_isLive (isLive_size pool) key
      · funext key
        exact h.lookupList_of_not_isLive (isLive_size pool) key
    · rw [if_neg (by exact hid)]
      have hextends : pool.strings.Extends pool.addRecord.2.strings := Interner.Extends.refl _
      apply plain_record?_of_extends hclosed hextends
      · rw [record?_addRecord, if_neg hid]
      · rw [htext]
      · rw [hlist]

theorem plain_discard {pool : Pool} (hclosed : pool.Closed) (id : RecordId) :
    (pool.discard id).plain = pool.plain.discard id := by
  have hlive : (pool.plain.record? id).isSome = pool.isLive id := by simp [plain, isLive]
  cases hid : pool.isLive id with
  | false => simp [discard_of_not_isLive hid, PlainStore.discard, hlive, hid]
  | true =>
      simp only [PlainStore.discard, hlive, hid, if_true]
      ext1
      · exact size_discard hid
      · funext other
        simp only
        by_cases hother : other = id
        · rw [if_pos hother]
          simp [plain, record?_discard, hother]
        · rw [if_neg hother]
          apply plain_record?_of_extends hclosed
          · rw [strings_discard]
            exact Interner.Extends.refl _
          · rw [record?_discard, if_neg hother]
          · exact lookupText_discard_of_ne hother
          · exact lookupList_discard_of_ne hother

theorem plain_intern {pool : Pool} (h : pool.WellFormed) (hclosed : pool.Closed)
    (text : String) : (pool.intern text).2.plain = pool.plain := by
  have hextends : pool.strings.Extends (pool.intern text).2.strings :=
    pool.strings.extends_intern text
  have htext : (pool.intern text).2.lookupText = pool.lookupText := lookupText_of_same rfl rfl
  have hlist : (pool.intern text).2.lookupList = pool.lookupList :=
    h.lookupList_of_extends hextends rfl rfl
  ext1
  · rfl
  · funext id
    apply plain_record?_of_extends hclosed hextends rfl
    · rw [htext]
    · rw [hlist]

theorem plainRecord_update {pool : Pool} (h : pool.WellFormed) (id : RecordId)
    (change : Record → Record) : (pool.update id change).plainRecord = pool.plainRecord := by
  have hstrings := strings_update pool id change
  have htext := lookupText_of_same (staged_update pool id change)
    (attributes_update pool id change)
  have hextends : pool.strings.Extends (pool.update id change).strings := by
    rw [hstrings]
    exact Interner.Extends.refl _
  have hlist := h.lookupList_of_extends hextends (staged_update pool id change)
    (attributes_update pool id change)
  funext other record
  simp only [plainRecord, plainRelation_of_same hstrings, textOf_of_same hstrings, htext, hlist]

theorem plain_update {pool : Pool} (h : pool.WellFormed) (id : RecordId)
    (change : Record → Record) (plainChange : PlainRecord → PlainRecord)
    (hchange : ∀ record, pool.record? id = some record →
      pool.plainRecord id (change record) = plainChange (pool.plainRecord id record)) :
    (pool.update id change).plain = pool.plain.update id plainChange := by
  ext1
  · exact size_update pool id change
  · funext other
    simp only [PlainStore.update, plain, record?_update, plainRecord_update h]
    by_cases hother : other = id
    · subst hother
      cases hrecord : pool.record? other with
      | none => simp
      | some record => simp [hchange record hrecord]
    · simp [hother]

theorem plain_stage {pool : Pool} (hclosed : pool.Closed) (id : RecordId) (write : Write)
    (plainChange : PlainRecord → PlainRecord)
    (hchange : ∀ record, pool.record? id = some record →
      (pool.stage id write).plainRecord id record = plainChange (pool.plainRecord id record)) :
    (pool.stage id write).plain = pool.plain.update id plainChange := by
  have hextends : pool.strings.Extends (pool.stage id write).strings := by
    rw [strings_stage]
    exact Interner.Extends.refl _
  ext1
  · simp [plain, PlainStore.update]
  · funext other
    simp only [PlainStore.update]
    by_cases hother : other = id
    · subst hother
      simp only [plain, record?_stage, if_true]
      cases hrecord : pool.record? other with
      | none => rfl
      | some record => simp [hchange record hrecord]
    · rw [if_neg hother]
      apply plain_record?_of_extends hclosed hextends (record?_stage ..)
      · funext key
        cases hlive : pool.isLive id with
        | false => simp [stage, hlive]
        | true => rw [lookupText_stage hlive, writtenText_of_ne (Ne.symm hother), Option.none_or]
      · funext key
        cases hlive : pool.isLive id with
        | false => simp [stage, hlive]
        | true =>
            rw [lookupList_stage hlive, addedValue_of_ne (Ne.symm hother)]
            exact List.append_nil _

end Pool

end Metainfo
