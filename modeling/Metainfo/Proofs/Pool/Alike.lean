import Metainfo.Proofs.Pool.FileList
import Metainfo.Proofs.Pool.History

/-!
Pools that stand for the same plain store. They may number texts differently and hold different
writes staged, but no series of operations that get the same texts tells them apart.
-/

namespace Metainfo.Pool

/-- A pool that holds only numbers that it has given out. -/
structure Coherent (pool : Pool) : Prop where
  wellFormed : pool.WellFormed
  closed : pool.Closed

theorem coherent_empty : empty.Coherent :=
  ⟨wellFormed_empty, closed_empty⟩

theorem Coherent.perform {pool : Pool} (h : pool.Coherent) {operation : Operation StringId}
    (harguments : ∀ number ∈ operation.arguments, pool.Knows number) :
    (pool.perform operation).Coherent :=
  ⟨h.wellFormed.perform operation, h.closed.perform harguments⟩

/-- Two pools stand for the same plain store. -/
structure Alike (pool other : Pool) : Prop where
  left : pool.Coherent
  right : other.Coherent
  plain : other.plain = pool.plain

/-- A number of the one pool and a number of the other stand for the same text. -/
def SameText (pool other : Pool) (number counterpart : StringId) : Prop :=
  ∃ text, pool.resolve? number = some text ∧ other.resolve? counterpart = some text

namespace SameText

variable {pool other : Pool} {number counterpart : StringId}

theorem knows (h : pool.SameText other number counterpart) :
    pool.Knows number ∧ other.Knows counterpart := by
  obtain ⟨text, hnumber, hcounterpart⟩ := h
  exact ⟨⟨text, hnumber⟩, text, hcounterpart⟩

theorem textOf (h : pool.SameText other number counterpart) :
    other.textOf counterpart = pool.textOf number := by
  obtain ⟨text, hnumber, hcounterpart⟩ := h
  rw [Pool.textOf, Pool.textOf, hnumber, hcounterpart]

/-- Whatever is done to the pools, numbers keep their texts. -/
theorem perform (h : pool.SameText other number counterpart)
    (operation operationCounterpart : Operation StringId) :
    (pool.perform operation).SameText (other.perform operationCounterpart) number counterpart := by
  obtain ⟨text, hnumber, hcounterpart⟩ := h
  exact ⟨text, strings_perform_extends pool operation number text hnumber,
    strings_perform_extends other operationCounterpart counterpart text hcounterpart⟩

end SameText

namespace Alike

variable {pool other third : Pool}

theorem refl (h : pool.Coherent) : pool.Alike pool :=
  ⟨h, h, rfl⟩

theorem trans (h : pool.Alike other) (h' : other.Alike third) : pool.Alike third :=
  ⟨h.left, h'.right, h'.plain.trans h.plain⟩

theorem symm (h : pool.Alike other) : other.Alike pool :=
  ⟨h.right, h.left, h.plain.symm⟩

/-! What is seen of the one pool is seen of the other. -/

theorem observe (h : pool.Alike other) : other.observe = pool.observe := by
  rw [observe_eq h.left.wellFormed h.left.closed, observe_eq h.right.wellFormed h.right.closed,
    h.plain]

theorem size (h : pool.Alike other) : other.slots.size = pool.slots.size :=
  congrArg PlainStore.slots h.plain

theorem addRecord_fst (h : pool.Alike other) : other.addRecord.1 = pool.addRecord.1 :=
  congrArg RecordId.mk h.size

theorem view (h : pool.Alike other) : other.view = pool.view :=
  congrArg Observation.view h.observe

theorem records (h : pool.Alike other) : other.records = pool.records :=
  congrArg Observation.records h.observe

theorem views (h : pool.Alike other) : other.views = pool.views := by
  rw [Pool.views, Pool.views, h.records, h.view]

theorem hasRequires (h : pool.Alike other) (id : RecordId) :
    other.hasRequires id = pool.hasRequires id :=
  congrFun (congrArg Observation.hasRequires h.observe) id

theorem searchFiles (h : pool.Alike other) : other.searchFiles = pool.searchFiles := by
  have hlist : other.lookupList = pool.lookupList := congrArg Observation.list h.observe
  funext directory
  rw [searchFiles_eq, searchFiles_eq, h.size, hlist]

/-- A field of a record is set in both pools, and then to the same text, or in none. -/
theorem field (h : pool.Alike other) (id : RecordId) {field : Record → Option StringId}
    (plainField : PlainRecord → Option String)
    (hnumbers : ∀ record, ∀ number ∈ field record, number ∈ record.numbers)
    (hplain : ∀ (pool : Pool) (record : Record),
      plainField (pool.plainRecord id record) = (field record).map pool.textOf) :
    Option.Rel (pool.SameText other) ((pool.record? id).bind field)
      ((other.record? id).bind field) := by
  have hknows {found : Pool} (hclosed : found.Closed) {number : StringId}
      (hnumber : (found.record? id).bind field = some number) : found.Knows number := by
    obtain ⟨record, hrecord, hfield⟩ := Option.bind_eq_some_iff.mp hnumber
    exact hclosed id record hrecord number (hnumbers record number hfield)
  have htexts : ((other.record? id).bind field).bind other.resolve? =
      ((pool.record? id).bind field).bind pool.resolve? := by
    rw [resolved_eq h.left.closed id hnumbers (hplain pool),
      resolved_eq h.right.closed id hnumbers (hplain other), h.plain]
  cases hnumber : (pool.record? id).bind field with
  | none =>
      cases hcounterpart : (other.record? id).bind field with
      | none => exact .none
      | some counterpart =>
          obtain ⟨text, htext⟩ := hknows h.right.closed hcounterpart
          rw [hnumber, hcounterpart, Option.bind_some, htext] at htexts
          contradiction
  | some number =>
      obtain ⟨text, htext⟩ := hknows h.left.closed hnumber
      rw [hnumber, Option.bind_some, htext] at htexts
      obtain ⟨counterpart, hcounterpart, hsame⟩ := Option.bind_eq_some_iff.mp htexts
      rw [hcounterpart]
      exact .some ⟨text, htext, hsame⟩

theorem name? (h : pool.Alike other) (id : RecordId) :
    Option.Rel (pool.SameText other) (pool.name? id) (other.name? id) :=
  h.field id PlainRecord.name (by simp [Record.numbers]; grind) fun _ _ => rfl

theorem arch? (h : pool.Alike other) (id : RecordId) :
    Option.Rel (pool.SameText other) (pool.arch? id) (other.arch? id) :=
  h.field id PlainRecord.arch (by simp [Record.numbers]; grind) fun _ _ => rfl

theorem version? (h : pool.Alike other) (id : RecordId) :
    Option.Rel (pool.SameText other) (pool.version? id) (other.version? id) :=
  h.field id PlainRecord.version (by simp [Record.numbers]; grind) fun _ _ => rfl

theorem sameText_predefined (h : pool.Alike other) {index : Nat} {text : String}
    (htext : Interner.predefined[index]? = some text) : pool.SameText other ⟨index⟩ ⟨index⟩ :=
  ⟨text, h.left.wellFormed.strings.resolve?_of_predefined htext,
    h.right.wellFormed.strings.resolve?_of_predefined htext⟩

/-- Numbers for the same text are both the one of a predefined text, or none of them is. -/
theorem eq_predefined_iff (h : pool.Alike other) {number counterpart : StringId}
    (hsame : pool.SameText other number counterpart) {index : Nat} {text : String}
    (htext : Interner.predefined[index]? = some text) :
    counterpart = ⟨index⟩ ↔ number = ⟨index⟩ := by
  obtain ⟨found, hnumber, hcounterpart⟩ := hsame
  obtain ⟨predefined, hleft, hright⟩ := h.sameText_predefined htext
  constructor
  · rintro rfl
    obtain rfl : predefined = found := Option.some.inj (hright.symm.trans hcounterpart)
    exact h.left.wellFormed.strings.resolve?_injective hnumber hleft
  · rintro rfl
    obtain rfl : predefined = found := Option.some.inj (hleft.symm.trans hnumber)
    exact h.right.wellFormed.strings.resolve?_injective hcounterpart hright

theorem isSourceArch (h : pool.Alike other) {number counterpart : StringId}
    (hsame : pool.SameText other number counterpart) :
    counterpart.isSourceArch = number.isSourceArch := by
  have hsrc : counterpart = .src ↔ number = .src := h.eq_predefined_iff hsame rfl
  have hnosrc : counterpart = .nosrc ↔ number = .nosrc := h.eq_predefined_iff hsame rfl
  simp only [StringId.isSourceArch, hsrc, hnosrc]

/-! Operations that get the same texts keep the pools alike. -/

theorem perform (h : pool.Alike other) {operation counterpart : Operation StringId}
    (hoperation : ∀ number ∈ operation.arguments, pool.Knows number)
    (hcounterpart : ∀ number ∈ counterpart.arguments, other.Knows number)
    (hsame : counterpart.map other.textOf = operation.map pool.textOf) :
    (pool.perform operation).Alike (other.perform counterpart) where
  left := h.left.perform hoperation
  right := h.right.perform hcounterpart
  plain := by
    rw [plain_perform h.left.wellFormed h.left.closed hoperation,
      plain_perform h.right.wellFormed h.right.closed hcounterpart, h.plain, hsame]

/-- Operations that get no numbers are the same for both pools. -/
theorem perform_same (h : pool.Alike other) {operation : Operation StringId}
    (hnone : operation.arguments = []) :
    (pool.perform operation).Alike (other.perform operation) := by
  have harguments {condition : StringId → Prop} :
      ∀ number ∈ operation.arguments, condition number := by simp [hnone]
  exact h.perform harguments harguments (Operation.map_congr harguments)

theorem addRecord (h : pool.Alike other) : pool.addRecord.2.Alike other.addRecord.2 :=
  @perform_same _ _ h .addRecord rfl

theorem discard (h : pool.Alike other) (id : RecordId) :
    (pool.discard id).Alike (other.discard id) :=
  @perform_same _ _ h (.discard id) rfl

theorem setText (h : pool.Alike other) (id : RecordId) (key : TextKey) (value : String) :
    (pool.setText id key value).Alike (other.setText id key value) :=
  @perform_same _ _ h (.setText id key value) rfl

theorem addToList (h : pool.Alike other) (id : RecordId) (key : ListKey) (value : String) :
    (pool.addToList id key value).Alike (other.addToList id key value) :=
  @perform_same _ _ h (.addToList id key value) rfl

theorem internalize (h : pool.Alike other) : pool.internalize.Alike other.internalize :=
  @perform_same _ _ h .internalize rfl

/-- Both pools give the text a number, and these stand for the same. -/
theorem intern (h : pool.Alike other) (text : String) :
    (pool.intern text).2.Alike (other.intern text).2 ∧
      (pool.intern text).2.SameText (other.intern text).2 (pool.intern text).1
        (other.intern text).1 :=
  ⟨@perform_same _ _ h (.intern text) rfl, text,
    h.left.wellFormed.strings.resolve?_intern text,
    h.right.wellFormed.strings.resolve?_intern text⟩

section

variable {number counterpart : StringId} (h : pool.Alike other)
  (hsame : pool.SameText other number counterpart)

include h hsame

/-- Operations that get one number each are the same if their numbers stand for the same text. -/
theorem perform_number {operation : StringId → Operation StringId}
    {spelled : String → Operation String}
    (harguments : ∀ number, (operation number).arguments = [number])
    (hspelled : ∀ (text : StringId → String) number,
      (operation number).map text = spelled (text number)) :
    (pool.perform (operation number)).Alike (other.perform (operation counterpart)) := by
  refine h.perform ?_ ?_ ?_
  · rw [harguments]
    exact List.forall_mem_singleton.mpr hsame.knows.1
  · rw [harguments]
    exact List.forall_mem_singleton.mpr hsame.knows.2
  · rw [hspelled, hspelled, hsame.textOf]

theorem setName (id : RecordId) : (pool.setName id number).Alike (other.setName id counterpart) :=
  @perform_number _ _ _ _ h hsame (.setName id) (.setName id) (fun _ => rfl) fun _ _ => rfl

theorem setArch (id : RecordId) : (pool.setArch id number).Alike (other.setArch id counterpart) :=
  @perform_number _ _ _ _ h hsame (.setArch id) (.setArch id) (fun _ => rfl) fun _ _ => rfl

theorem setVersion (id : RecordId) :
    (pool.setVersion id number).Alike (other.setVersion id counterpart) :=
  @perform_number _ _ _ _ h hsame (.setVersion id) (.setVersion id) (fun _ => rfl) fun _ _ => rfl

theorem addRequires (id : RecordId) :
    (pool.addRequires id (.named number)).Alike (other.addRequires id (.named counterpart)) :=
  @perform_number _ _ _ _ h hsame (.addRequires id · none) (.addRequires id · none) (fun _ => rfl)
    fun _ _ => rfl

theorem addProvides (id : RecordId) :
    (pool.addProvides id (.named number)).Alike (other.addProvides id (.named counterpart)) :=
  @perform_number _ _ _ _ h hsame (.addProvides id · none) (.addProvides id · none) (fun _ => rfl)
    fun _ _ => rfl

theorem addProvides_equals {version versionCounterpart : StringId}
    (hversion : pool.SameText other version versionCounterpart) (id : RecordId) :
    (pool.addProvides id (.equals number version)).Alike
      (other.addProvides id (.equals counterpart versionCounterpart)) := by
  refine @perform _ _ h (.addProvides id number (some version))
    (.addProvides id counterpart (some versionCounterpart)) ?_ ?_ ?_
  · simpa [Operation.arguments] using ⟨hsame.knows.1, hversion.knows.1⟩
  · simpa [Operation.arguments] using ⟨hsame.knows.2, hversion.knows.2⟩
  · simp [Operation.map, hsame.textOf, hversion.textOf]

end

end Alike

/-- Carrying the staged writes out leaves a pool that stands for the same store. -/
theorem Coherent.alike_internalize {pool : Pool} (h : pool.Coherent) :
    pool.Alike pool.internalize where
  left := h
  right := @Coherent.perform _ h .internalize (by simp [Operation.arguments])
  plain := @plain_perform _ h.wellFormed h.closed .internalize (by simp [Operation.arguments])

/-- Whether or not each of them has its staged writes carried out, pools stay alike. -/
theorem Alike.carriedOut {pool other : Pool} (h : pool.Alike other) (defer deferOther : Bool) :
    (if defer then pool else pool.internalize).Alike
      (if deferOther then other else other.internalize) := by
  have hcarried {found : Pool} (hfound : found.Coherent) (defer : Bool) :
      found.Alike (if defer then found else found.internalize) := by
    split
    · exact .refl hfound
    · exact hfound.alike_internalize
  exact ((hcarried h.left defer).symm.trans h).trans (hcarried h.right deferOther)

end Metainfo.Pool
