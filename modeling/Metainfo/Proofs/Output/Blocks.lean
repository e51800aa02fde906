import Metainfo.Output.Text
import Metainfo.Proofs.Files.Components
import Metainfo.Proofs.Ingest.Deferral

/-!
Records as blocks of lines. Every record begins with a line of its number, and what is said of it
is indented, unless a text that is shown on one line goes on in another one.
-/

namespace Metainfo

open Metainfo.Affix

/-- The lines of a text, each of which ends in a line feed. -/
def endedLines (text : String) : List (List Char) :=
  (parts '\n' text.toList).dropLast

/-- The lines of a text but the first. -/
def overhang (text : String) : List (List Char) :=
  (parts '\n' text.toList).tail

def IsIndented (line : List Char) : Prop :=
  "  ".toList <+: line

instance (line : List Char) : Decidable (IsIndented line) :=
  inferInstanceAs (Decidable ("  ".toList <+: line))

def isHead (line : List Char) : Bool :=
  line.head? = some '#'

/-- The lines of a record: one with its number and indented ones. -/
def IsBlock (id : RecordId) (lines : List (List Char)) : Prop :=
  ∃ head others, lines = head :: others ∧
    ("#" ++ toString id.index ++ " ").toList <+: head ∧ ∀ line ∈ others, IsIndented line

/-- A text that consists of one block for each record. -/
def KeepsApart (ids : List RecordId) (text : String) : Prop :=
  ∃ blocks, endedLines text = blocks.flatten ∧ ids.Forall₂ IsBlock blocks

/-- The text that is shown on one line, if a value is. -/
def AttributeValue.phrase? : AttributeValue → Option String
  | .text _ => none
  | .list values => some (String.intercalate ", " values)

def RecordView.title (view : RecordView) : String :=
  view.name.getD "<unnamed>" ++ view.arch.elim "" fun arch => " (" ++ arch ++ ")"

/-- The texts that are shown on one line each, whatever they hold: a name with its architecture, a
version, the values of a list, and relations. -/
def RecordView.phrases (view : RecordView) : List String :=
  view.title ::
    ((view.version.filter (!·.isEmpty)).toList ++
      view.attributes.filterMap (fun entry => entry.2.phrase?) ++
      view.requires ++ view.provides)

theorem not_isHead_of_isIndented {line : List Char} (h : IsIndented line) :
    isHead line = false := by
  obtain ⟨rest, rfl⟩ := h
  rfl

theorem isHead_of_number {number : String} {line : List Char}
    (h : ("#" ++ number ++ " ").toList <+: line) : isHead line = true := by
  obtain ⟨rest, rfl⟩ := h
  simp [isHead, String.toList_append]

theorem isIndented_append {label : List Char} (h : IsIndented label) (rest : List Char) :
    IsIndented (label ++ rest) :=
  h.trans (List.prefix_append label rest)

/-- Of a record with its lines each record has one head, or some lines more are heads. -/
theorem countP_flatMap_eq_length_iff {α β : Type} {isFirst : β → Bool} {lines : α → List β}
    {elements : List α}
    (h : ∀ element ∈ elements, ∃ first rest, lines element = first :: rest ∧
      isFirst first = true) :
    elements.length ≤ (elements.flatMap lines).countP isFirst ∧
      ((elements.flatMap lines).countP isFirst = elements.length ↔
        ∀ element ∈ elements, ∀ line ∈ (lines element).tail, isFirst line = false) := by
  induction elements with
  | nil => simp
  | cons element elements ih =>
      obtain ⟨first, rest, hlines, hfirst⟩ := h element List.mem_cons_self
      obtain ⟨hle, hiff⟩ := ih fun other hother => h other (List.mem_cons_of_mem _ hother)
      have hcount : ((element :: elements).flatMap lines).countP isFirst =
          rest.countP isFirst + 1 + (elements.flatMap lines).countP isFirst := by
        rw [List.flatMap_cons, List.countP_append, hlines, List.countP_cons_of_pos hfirst]
      have hrest : rest.countP isFirst = 0 ↔ ∀ line ∈ rest, isFirst line = false := by
        rw [List.countP_eq_zero]
        exact forall₂_congr fun _ _ => Bool.eq_false_iff.symm
      rw [hcount, List.length_cons, List.forall_mem_cons, hlines, List.tail_cons, ← hiff, ← hrest]
      constructor <;> omega

theorem KeepsApart.heads {ids : List RecordId} {text : String} (h : KeepsApart ids text) :
    (endedLines text).countP isHead = ids.length ∧
      ∀ line ∈ endedLines text, isHead line = true ∨ IsIndented line := by
  obtain ⟨blocks, hlines, hblocks⟩ := h
  rw [hlines]
  clear hlines
  induction hblocks with
  | nil => simp
  | @cons id block ids blocks hblock _ ih =>
      obtain ⟨head, others, rfl, hnumber, hothers⟩ := hblock
      have hhead := isHead_of_number hnumber
      have hnone : others.countP isHead = 0 :=
        List.countP_eq_zero.mpr fun line hline => by
          simp [not_isHead_of_isIndented (hothers line hline)]
      constructor
      · rw [List.flatten_cons, List.countP_append, List.countP_cons_of_pos hhead, hnone, ih.1,
          List.length_cons]
        omega
      · rw [List.flatten_cons, List.cons_append, List.forall_mem_cons, List.forall_mem_append]
        exact ⟨Or.inl hhead, fun line hline => Or.inr (hothers line hline), ih.2⟩

/-! Lines of texts that are put together. -/

theorem endedLines_renderLine_append (text rest : String) :
    endedLines (renderLine text ++ rest) = parts '\n' text.toList ++ endedLines rest := by
  have htext : (renderLine text ++ rest).toList = text.toList ++ '\n' :: rest.toList := by
    simp [renderLine, String.toList_append]
  rw [endedLines, htext, parts_append, List.dropLast_append_of_ne_nil (parts_ne_nil _ _)]
  rfl

/-- A label on one line belongs to the first line of what it stands before. -/
theorem parts_label {label : String} (h : '\n' ∉ label.toList) (text : String) :
    ∃ first, parts '\n' (label ++ text).toList = (label.toList ++ first) :: overhang text := by
  rw [String.toList_append, overhang]
  generalize label.toList = label at h ⊢
  obtain ⟨part, others, hparts⟩ := List.exists_cons_of_ne_nil (parts_ne_nil '\n' text.toList)
  refine ⟨part, ?_⟩
  rw [hparts, List.tail_cons]
  induction label with
  | nil => exact hparts
  | cons char label ih =>
      have hne : ¬ (char == '\n') = true := fun heq => h (beq_iff_eq.mp heq ▸ List.mem_cons_self)
      rw [List.cons_append, parts, if_neg hne, ih (List.not_mem_of_not_mem_cons h)]
      rfl

theorem overhang_of_notMem {text : String} (h : '\n' ∉ text.toList) : overhang text = [] := by
  rw [overhang, parts_of_not_mem h]
  rfl

theorem notMem_textLines {text line : String} (h : line ∈ textLines text) :
    '\n' ∉ line.toList := by
  obtain ⟨chars, hchars, rfl⟩ := List.mem_map.mp h
  rw [String.toList_ofList]
  rcases List.mem_append.mp hchars with hended | hlast
  · obtain ⟨part, hpart, rfl⟩ := List.mem_map.mp hended
    have hnot := not_mem_of_mem_parts (List.mem_of_mem_dropLast hpart)
    split
    · exact fun hmem => hnot (List.mem_of_mem_dropLast hmem)
    · exact hnot
  · rw [Option.mem_toList, Option.filter_eq_some_iff] at hlast
    exact not_mem_of_mem_parts (List.mem_of_getLast? hlast.1)

/-! A record as lines. -/

/-- The texts that a record is shown with, each behind its label. -/
def AttributeValue.entries (name : String) : AttributeValue → List (String × String)
  | .text value =>
      if value.toList.contains '\n' then
        ("  " ++ name ++ ":", "") :: (textLines value).map (Prod.mk "    ")
      else [("  " ++ name ++ ": ", value)]
  | .list values => [("  " ++ name ++ ": ", String.intercalate ", " values)]

def RecordView.entries (view : RecordView) : List (String × String) :=
  (view.version.filter (!·.isEmpty)).toList.map (Prod.mk "  evr: ") ++
    view.attributes.flatMap (fun entry => entry.2.entries entry.1) ++
    view.requires.map (Prod.mk "  requires: ") ++ view.provides.map (Prod.mk "  provides: ")

def RecordView.numberLabel (view : RecordView) : String :=
  "#" ++ toString view.id.index ++ " "

def renderEntry (entry : String × String) : String :=
  renderLine (entry.1 ++ entry.2)

def entryLines (entry : String × String) : List (List Char) :=
  parts '\n' (entry.1 ++ entry.2).toList

def RecordView.lines (view : RecordView) : List (List Char) :=
  ((view.numberLabel, view.title) :: view.entries).flatMap entryLines

theorem endedLines_renderEntries (entries : List (String × String)) (rest : String) :
    endedLines (String.join (entries.map renderEntry) ++ rest) =
      entries.flatMap entryLines ++ endedLines rest := by
  induction entries with
  | nil => simp
  | cons entry entries ih =>
      rw [List.map_cons, String.join_cons, String.append_assoc, renderEntry,
        endedLines_renderLine_append, ih, List.flatMap_cons, List.append_assoc, entryLines]

theorem renderAttribute_eq (name : String) (value : AttributeValue) :
    renderAttribute name value = String.join ((value.entries name).map renderEntry) := by
  cases value with
  | list values => simp [renderAttribute, AttributeValue.entries, renderEntry]
  | text value =>
      rw [renderAttribute, AttributeValue.entries]
      split
      · simp [renderEntry, Function.comp_def]
      · simp [renderEntry]

theorem join_flatMap {α : Type} (texts : α → List String) (elements : List α) :
    String.join (elements.flatMap texts) =
      String.join (elements.map fun element => String.join (texts element)) := by
  induction elements with
  | nil => rfl
  | cons element elements ih => simp [ih]

theorem renderRecord_eq (view : RecordView) :
    renderRecord view =
      String.join (((view.numberLabel, view.title) :: view.entries).map renderEntry) := by
  have hhead : renderHead view = renderEntry (view.numberLabel, view.title) := by
    simp [renderHead, renderEntry, RecordView.numberLabel, RecordView.title, String.append_assoc]
  have hversion : renderVersion view =
      String.join (((view.version.filter (!·.isEmpty)).toList.map
        (Prod.mk "  evr: ")).map renderEntry) := by
    rw [renderVersion]
    cases view.version.filter (!·.isEmpty) <;> simp [renderEntry]
  have hattributes : (view.attributes.map fun entry => renderAttribute entry.1 entry.2) =
      view.attributes.map fun entry =>
        String.join ((entry.2.entries entry.1).map renderEntry) :=
    List.map_congr_left fun entry _ => renderAttribute_eq entry.1 entry.2
  change renderHead view ++ renderVersion view ++
    String.join (view.attributes.map fun entry => renderAttribute entry.1 entry.2) ++ _ ++ _ = _
  rw [hhead, hversion, hattributes, RecordView.entries]
  simp [List.map_flatMap, join_flatMap, renderEntry, Function.comp_def,
    String.append_assoc]

theorem endedLines_renderText (views : List RecordView) :
    endedLines (renderText views) = views.flatMap RecordView.lines := by
  induction views with
  | nil => rfl
  | cons view views ih =>
      rw [renderText, List.map_cons, String.join_cons, renderRecord_eq, endedLines_renderEntries]
      exact congrArg _ ih

/-! The lines below the head of a record are indented unless a text goes on in another line. -/

theorem numberLabel_notMem (view : RecordView) : '\n' ∉ view.numberLabel.toList := by
  have hdigits : '\n' ∉ Nat.toDigits 10 view.id.index := fun hmem =>
    absurd (Nat.isDigit_of_mem_toDigits (by decide) (by decide) hmem) (by decide)
  simp [RecordView.numberLabel, String.toList_append, hdigits]

theorem lines_eq (view : RecordView) :
    ∃ head, view.numberLabel.toList <+: head ∧
      view.lines = head :: (overhang view.title ++ view.entries.flatMap entryLines) := by
  obtain ⟨first, hfirst⟩ := parts_label (numberLabel_notMem view) view.title
  refine ⟨_, List.prefix_append _ first, ?_⟩
  rw [RecordView.lines, List.flatMap_cons, entryLines, hfirst, List.cons_append]

section

variable {Sound : List Char → Prop} (hsound : ∀ line, IsIndented line → Sound line)

include hsound

theorem forall_entryLines {entry : String × String} (hlabel : '\n' ∉ entry.1.toList)
    (hindented : IsIndented entry.1.toList) :
    (∀ line ∈ entryLines entry, Sound line) ↔ ∀ line ∈ overhang entry.2, Sound line := by
  obtain ⟨first, hfirst⟩ := parts_label hlabel entry.2
  rw [entryLines, hfirst, List.forall_mem_cons]
  exact and_iff_right (hsound _ (isIndented_append hindented first))

theorem forall_valueEntries {name : String} (hname : '\n' ∉ name.toList)
    (value : AttributeValue) :
    (∀ entry ∈ value.entries name, ∀ line ∈ entryLines entry, Sound line) ↔
      ∀ text ∈ value.phrase?, ∀ line ∈ overhang text, Sound line := by
  have hlabel (ending : String) (hending : '\n' ∉ ending.toList) :
      '\n' ∉ ("  " ++ name ++ ending).toList ∧ IsIndented ("  " ++ name ++ ending).toList := by
    constructor
    · simp [String.toList_append, hname, hending]
    · simp [IsIndented, String.toList_append]
  cases value with
  | list values =>
      simp only [AttributeValue.entries, AttributeValue.phrase?, List.forall_mem_singleton,
        Option.mem_some_iff, forall_eq']
      exact forall_entryLines hsound (hlabel ": " (by decide)).1 (hlabel ": " (by decide)).2
  | text value =>
      simp only [AttributeValue.phrase?, Option.not_mem_none, false_imp_iff, implies_true, iff_true]
      have hplain {label text : String} (hlabel : '\n' ∉ label.toList ∧ IsIndented label.toList)
          (htext : '\n' ∉ text.toList) : ∀ line ∈ entryLines (label, text), Sound line := by
        rw [forall_entryLines hsound hlabel.1 hlabel.2, overhang_of_notMem htext]
        exact List.forall_mem_nil _
      rw [AttributeValue.entries]
      split
      · rw [List.forall_mem_cons]
        refine ⟨hplain (hlabel ":" (by decide)) (by decide), fun entry hentry => ?_⟩
        obtain ⟨line, hline, rfl⟩ := List.mem_map.mp hentry
        exact hplain ⟨by decide, by decide⟩ (notMem_textLines hline)
      · rename_i hvalue
        rw [List.forall_mem_singleton]
        exact hplain (hlabel ": " (by decide)) (by simpa using hvalue)

theorem forall_labelled (label : String) (hlabel : '\n' ∉ label.toList)
    (hindented : IsIndented label.toList) (texts : List String) :
    (∀ entry ∈ texts.map (Prod.mk label), ∀ line ∈ entryLines entry, Sound line) ↔
      ∀ text ∈ texts, ∀ line ∈ overhang text, Sound line := by
  rw [List.forall_mem_map]
  exact forall₂_congr fun text _ => forall_entryLines hsound hlabel hindented

/-- All that holds of indented lines holds of those below the head if and only if it holds of the
lines in which a text goes on. -/
theorem forall_lines_tail {view : RecordView}
    (hnames : ∀ entry ∈ view.attributes, '\n' ∉ entry.1.toList) :
    (∀ line ∈ view.lines.tail, Sound line) ↔
      ∀ text ∈ view.phrases, ∀ line ∈ overhang text, Sound line := by
  obtain ⟨head, -, hlines⟩ := lines_eq view
  have hversion := forall_labelled hsound "  evr: " (by decide) (by decide)
    (view.version.filter (!·.isEmpty)).toList
  have hrequires := forall_labelled hsound "  requires: " (by decide) (by decide)
    view.requires
  have hprovides := forall_labelled hsound "  provides: " (by decide) (by decide)
    view.provides
  have hattributes :
      (∀ entry ∈ view.attributes.flatMap (fun entry => entry.2.entries entry.1),
          ∀ line ∈ entryLines entry, Sound line) ↔
        ∀ text ∈ view.attributes.filterMap (fun entry => entry.2.phrase?),
          ∀ line ∈ overhang text, Sound line := by
    rw [List.forall_mem_flatMap, List.forall_mem_filterMap]
    exact forall₂_congr fun entry hentry => forall_valueEntries hsound (hnames entry hentry) entry.2
  rw [hlines, List.tail_cons, RecordView.phrases, RecordView.entries]
  simp only [List.forall_mem_append, List.forall_mem_cons, List.forall_mem_flatMap]
    at hattributes ⊢
  rw [hversion, hattributes, hrequires, hprovides]

end

/-! The blocks of all records. -/

def RecordView.HasPlainNames (view : RecordView) : Prop :=
  ∀ entry ∈ view.attributes, '\n' ∉ entry.1.toList

theorem countP_isHead_iff {views : List RecordView} (h : ∀ view ∈ views, view.HasPlainNames) :
    (endedLines (renderText views)).countP isHead = views.length ↔
      ∀ view ∈ views, ∀ text ∈ view.phrases, ∀ line ∈ overhang text, isHead line = false := by
  have hheads : ∀ view ∈ views, ∃ first rest, view.lines = first :: rest ∧ isHead first = true := by
    intro view _
    obtain ⟨head, hnumber, hlines⟩ := lines_eq view
    exact ⟨head, _, hlines, isHead_of_number hnumber⟩
  rw [endedLines_renderText, (countP_flatMap_eq_length_iff hheads).2]
  exact forall₂_congr fun view hview =>
    forall_lines_tail (fun _ => not_isHead_of_isIndented) (h view hview)

theorem keepsApart_iff {views : List RecordView} (h : ∀ view ∈ views, view.HasPlainNames) :
    KeepsApart (views.map RecordView.id) (renderText views) ↔
      ∀ view ∈ views, ∀ text ∈ view.phrases, ∀ line ∈ overhang text, IsIndented line := by
  have htails : (∀ view ∈ views, ∀ line ∈ view.lines.tail, IsIndented line) ↔
      ∀ view ∈ views, ∀ text ∈ view.phrases, ∀ line ∈ overhang text, IsIndented line :=
    forall₂_congr fun view hview => forall_lines_tail (fun _ => id) (h view hview)
  rw [← htails]
  constructor
  · intro hapart view hview line hline
    obtain ⟨hcount, hlines⟩ := hapart.heads
    rw [List.length_map, countP_isHead_iff h] at hcount
    have hnot : isHead line = false :=
      (forall_lines_tail (fun _ => not_isHead_of_isIndented) (h view hview)).mpr
        (hcount view hview) line hline
    have hmem : line ∈ endedLines (renderText views) := by
      rw [endedLines_renderText]
      exact List.mem_flatMap.mpr ⟨view, hview, List.mem_of_mem_tail hline⟩
    exact (hlines line hmem).resolve_left (by simp [hnot])
  · intro hindented
    refine ⟨views.map RecordView.lines, ?_, ?_⟩
    · rw [endedLines_renderText, List.flatMap_def]
    · rw [List.forall₂_map_left_iff, List.forall₂_map_right_iff, List.forall₂_same]
      intro view hview
      obtain ⟨head, hnumber, hlines⟩ := lines_eq view
      have hothers := hindented view hview
      rw [hlines, List.tail_cons] at hothers
      exact ⟨head, _, hlines, hnumber, hothers⟩

theorem TextKey.notMem_name (key : TextKey) : '\n' ∉ key.name.toList := by
  cases key <;> decide

theorem ListKey.notMem_name (key : ListKey) : '\n' ∉ key.name.toList := by
  cases key <;> decide

theorem PlainRecord.view_hasPlainNames (record : PlainRecord) (id : RecordId) :
    (record.view id).HasPlainNames := by
  have htext (key : TextKey) : ∀ entry ∈ record.textAttribute key, '\n' ∉ entry.1.toList := by
    intro entry hentry
    obtain ⟨value, -, rfl⟩ := Option.map_eq_some_iff.mp hentry
    exact key.notMem_name
  have hlist (key : ListKey) : ∀ entry ∈ record.listAttribute key, '\n' ∉ entry.1.toList := by
    intro entry hentry
    rw [listAttribute] at hentry
    split at hentry
    · cases hentry
    · cases hentry
      exact key.notMem_name
  intro entry hentry
  obtain ⟨attribute?, hmem, hentry⟩ := List.mem_flatMap.mp hentry
  rw [Option.mem_toList] at hentry
  fin_cases hmem <;> first | exact htext _ entry hentry | exact hlist _ entry hentry

theorem Pool.Closed.view_ok {pool : Pool} (h : pool.Closed) {id : RecordId}
    (hid : id ∈ pool.records) :
    ∃ view, pool.view id = .ok view ∧ view.id = id ∧ view.HasPlainNames := by
  have hlive : (pool.record? id).isSome := (List.mem_filter.mp hid).2
  obtain ⟨record, hrecord⟩ := Option.isSome_iff_exists.mp hlive
  refine ⟨(pool.plainRecord id record).view id, ?_, rfl, PlainRecord.view_hasPlainNames _ id⟩
  simp [view_eq h, PlainStore.observe, plain_record?, hrecord]

theorem Pool.Closed.views_ok {pool : Pool} (h : pool.Closed) :
    ∃ views, pool.views = .ok views ∧ views.map RecordView.id = pool.records ∧
      ∀ view ∈ views, view.HasPlainNames := by
  have hview : ∀ id ∈ pool.records, ∃ view, pool.view id = .ok view ∧ view.id = id ∧
      view.HasPlainNames := fun id => h.view_ok
  rw [Pool.views]
  generalize pool.records = ids at hview
  induction ids with
  | nil => exact ⟨[], rfl, rfl, List.forall_mem_nil _⟩
  | cons id ids ih =>
      obtain ⟨view, hok, hid, hnames⟩ := hview id List.mem_cons_self
      obtain ⟨views, hoks, hids, hothers⟩ :=
        ih fun other hother => hview other (List.mem_cons_of_mem _ hother)
      refine ⟨view :: views, ?_, ?_, List.forall_mem_cons.mpr ⟨hnames, hothers⟩⟩
      · rw [List.mapM_cons, hok, hoks]
        rfl
      · rw [List.map_cons, hid, hids]

/-- The records of documents are kept apart if and only if no text that is shown on one line goes
on in a line that is not indented, and they are counted by their heads if and only if none goes on
in a line that looks like one. -/
theorem renderText_apart_iff (jobs : List Job) :
    let pool := poolAfter .empty jobs
    ∃ views, pool.views = .ok views ∧ views.map RecordView.id = pool.records ∧
      (KeepsApart pool.records (renderText views) ↔
        ∀ view ∈ views, ∀ text ∈ view.phrases, ∀ line ∈ overhang text, IsIndented line) ∧
      ((endedLines (renderText views)).countP isHead = pool.records.length ↔
        ∀ view ∈ views, ∀ text ∈ view.phrases, ∀ line ∈ overhang text, isHead line = false) := by
  intro pool
  obtain ⟨views, hviews, hids, hnames⟩ :=
    Pool.Closed.views_ok (coherent_poolAfter Pool.coherent_empty jobs).closed
  refine ⟨views, hviews, hids, ?_, ?_⟩
  · rw [← hids, keepsApart_iff hnames]
  · rw [← hids, List.length_map, countP_isHead_iff hnames]

/-- A licence that goes on in a second line looks like a record more. -/
example :
    let view : RecordView := ⟨⟨0⟩, none, none, none, [], [], [("license", .list ["GPL\n#1 MIT"])]⟩
    (endedLines (renderText [view])).countP isHead = 2 := by
  decide +kernel

end Metainfo
