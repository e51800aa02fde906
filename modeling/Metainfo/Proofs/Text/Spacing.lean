import Mathlib.Data.List.DropRight
import Mathlib.Data.List.SplitBy

/-!
Collapsing white space, said of a text as a whole: its words stay as they are, and each gap between
two of them becomes one blank. Reading the text from its front, with the gap since the last word in
hand, gives the same.
-/

namespace Metainfo

/-- What counts as blank in a text, and the two blanks that stand for a gap. -/
structure Spacing (α : Type) where
  isBlank : α → Bool
  line : α
  space : α
  line_isBlank : isBlank line = true
  space_isBlank : isBlank space = true

namespace Spacing

variable {α : Type} (spacing : Spacing α)

/-- The words and gaps of a text, each as long as it can be. -/
def runs (text : List α) : List (List α) :=
  text.splitBy fun first second => spacing.isBlank first == spacing.isBlank second

def trimmed (text : List α) : List α :=
  (text.dropWhile spacing.isBlank).rdropWhile spacing.isBlank

def IsWord (word : List α) : Prop :=
  word ≠ [] ∧ ∀ element ∈ word, spacing.isBlank element = false

def IsGap (gap : List α) : Prop :=
  gap ≠ [] ∧ ∀ element ∈ gap, spacing.isBlank element = true

/-- The text does not start with a blank. -/
def Flush (text : List α) : Prop :=
  ∀ element ∈ text.head?, spacing.isBlank element = false

/-- Words parted by single blanks. -/
inductive Tidy : List α → Prop
  | word {word : List α} (hword : spacing.IsWord word) : Tidy word
  | more {word tail : List α} {blank : α} (hword : spacing.IsWord word)
      (hblank : spacing.isBlank blank = true) (htail : Tidy tail) : Tidy (word ++ blank :: tail)

variable {spacing} {word gap text tail : List α}

theorem IsWord.flush (h : spacing.IsWord word) (text : List α) :
    spacing.Flush (word ++ text) := by
  obtain ⟨hne, hword⟩ := h
  obtain ⟨element, rest, rfl⟩ := List.exists_cons_of_ne_nil hne
  intro first hfirst
  obtain rfl := Option.some.inj hfirst
  exact hword element List.mem_cons_self

theorem IsWord.line_notMem (h : spacing.IsWord word) : spacing.line ∉ word := by
  intro hmem
  have hblank := h.2 _ hmem
  rw [spacing.line_isBlank] at hblank
  contradiction

theorem Tidy.ne_nil (h : spacing.Tidy text) : text ≠ [] := by
  cases h with
  | word hword => exact hword.1
  | more hword => simp

theorem flush_dropWhile (text : List α) : spacing.Flush (text.dropWhile spacing.isBlank) := by
  intro element helement
  have h := List.head?_dropWhile_not spacing.isBlank text
  rw [helement] at h
  exact h

theorem exists_word (h : spacing.Flush text) (hne : text ≠ []) :
    ∃ word gap tail, spacing.IsWord word ∧ (∀ element ∈ gap, spacing.isBlank element = true) ∧
      spacing.Flush tail ∧ (tail ≠ [] → gap ≠ []) ∧ text = word ++ (gap ++ tail) := by
  let isWord (element : α) : Bool := !spacing.isBlank element
  let after := text.dropWhile isWord
  refine ⟨text.takeWhile isWord, after.takeWhile spacing.isBlank,
    after.dropWhile spacing.isBlank, ⟨?_, ?_⟩, fun _ helement => List.mem_takeWhile_imp helement,
    flush_dropWhile after, ?_, ?_⟩
  · obtain ⟨first, rest, rfl⟩ := List.exists_cons_of_ne_nil hne
    have hfirst : isWord first = true := by simp [isWord, h first rfl]
    rw [List.takeWhile_cons, if_pos hfirst]
    exact List.cons_ne_nil first _
  · intro element helement
    have hkept : isWord element = true := List.mem_takeWhile_imp helement
    simpa [isWord] using hkept
  · -- What follows the word starts with a blank, if there is anything.
    intro htail
    have hstop := List.head?_dropWhile_not isWord text
    change (match after.head? with
      | some element => isWord element = false
      | none => True) at hstop
    cases hafter : after with
    | nil =>
        rw [hafter] at htail
        contradiction
    | cons blank rest =>
        rw [hafter] at hstop
        have hblank : spacing.isBlank blank = true := by simpa [isWord] using hstop
        rw [List.takeWhile_cons, if_pos hblank]
        exact List.cons_ne_nil blank _
  · rw [List.takeWhile_append_dropWhile, List.takeWhile_append_dropWhile]

/-- A text that does not start with a blank is read off word by word. -/
@[elab_as_elim]
theorem word_induction {motive : List α → Prop} (nil : motive [])
    (last : ∀ word gap, spacing.IsWord word → (∀ element ∈ gap, spacing.isBlank element = true) →
      motive (word ++ gap))
    (more : ∀ word gap tail, spacing.IsWord word → spacing.IsGap gap → tail ≠ [] →
      spacing.Flush tail → motive tail → motive (word ++ (gap ++ tail)))
    (text : List α) (h : spacing.Flush text) : motive text := by
  induction hsize : text.length using Nat.strong_induction_on generalizing text with
  | _ size ih =>
  rcases eq_or_ne text [] with rfl | hne
  · exact nil
  obtain ⟨word, gap, tail, hword, hgap, hflush, hopen, rfl⟩ := exists_word h hne
  rcases eq_or_ne tail [] with rfl | htail
  · rw [List.append_nil]
    exact last word gap hword hgap
  · refine more word gap tail hword ⟨hopen htail, hgap⟩ htail hflush ?_
    refine ih tail.length ?_ tail hflush rfl
    have hpos := List.length_pos_of_ne_nil hword.1
    simp only [List.length_append] at hsize
    omega

theorem runs_of_forall {kind : Bool} (hne : text ≠ [])
    (h : ∀ element ∈ text, spacing.isBlank element = kind) : spacing.runs text = [text] := by
  refine List.splitBy_of_isChain hne (List.Pairwise.isChain ?_)
  refine List.pairwise_of_forall_mem_list ?_
  intro first hfirst second hsecond
  rw [h first hfirst, h second hsecond, beq_self_eq_true]

theorem runs_append {kind : Bool} (hne : text ≠ [])
    (h : ∀ element ∈ text, spacing.isBlank element = kind)
    (htail : ∀ element ∈ tail.head?, spacing.isBlank element = !kind) :
    spacing.runs (text ++ tail) = text :: spacing.runs tail := by
  rw [runs, List.splitBy_append]
  · have hruns := runs_of_forall hne h
    rw [runs] at hruns
    rw [hruns, List.singleton_append, runs]
  · intro last hlast first hfirst
    rw [h last (List.mem_of_getLast? hlast), htail first hfirst]
    cases kind <;> rfl

theorem trimmed_of_flush (h : spacing.Flush text) :
    spacing.trimmed text = text.rdropWhile spacing.isBlank := by
  rw [trimmed]
  cases text with
  | nil => rfl
  | cons first rest =>
      rw [List.dropWhile_cons, h first rfl]
      rfl

theorem rdropWhile_append (hne : tail ≠ []) (h : spacing.Flush tail) (text : List α) :
    (text ++ tail).rdropWhile spacing.isBlank = text ++ tail.rdropWhile spacing.isBlank ∧
      spacing.Flush (tail.rdropWhile spacing.isBlank) := by
  obtain ⟨first, rest, rfl⟩ := List.exists_cons_of_ne_nil hne
  have hfirst : spacing.isBlank first = false := h first rfl
  have hkept : (first :: rest).rdropWhile spacing.isBlank ≠ [] := by
    rw [Ne, List.rdropWhile_eq_nil_iff]
    intro hall
    have hblank := hall first List.mem_cons_self
    rw [hfirst] at hblank
    contradiction
  constructor
  · have hopen : ((first :: rest).reverse.dropWhile spacing.isBlank).isEmpty = false := by
      rw [List.isEmpty_eq_false_iff]
      intro hnil
      exact hkept (congrArg List.reverse hnil)
    rw [List.rdropWhile, List.reverse_append, List.dropWhile_append, hopen]
    simp [List.rdropWhile]
  · intro element helement
    obtain ⟨others, hothers⟩ := List.rdropWhile_prefix spacing.isBlank (first :: rest)
    obtain ⟨kept, keptRest, hcons⟩ := List.exists_cons_of_ne_nil hkept
    rw [hcons] at helement hothers
    obtain rfl := Option.some.inj helement
    obtain ⟨rfl, -⟩ := List.cons.inj hothers
    exact hfirst

variable {β : Type} {target : Spacing β} {encode : α → List β}

/-- Written in other symbols, one or more for each, words stay words and gaps stay gaps. -/
structure Encodes (spacing : Spacing α) (target : Spacing β) (encode : α → List β) : Prop where
  word : ∀ element, spacing.isBlank element = false → target.IsWord (encode element)
  gap : ∀ element, spacing.isBlank element = true → target.IsGap (encode element)
  line : encode spacing.line = [target.line]
  space : encode spacing.space = [target.space]
  line_mem : ∀ element, target.line ∈ encode element ↔ element = spacing.line

theorem Encodes.ne_nil (h : Encodes spacing target encode) (element : α) :
    encode element ≠ [] := by
  cases hblank : spacing.isBlank element with
  | false => exact (h.word element hblank).1
  | true => exact (h.gap element hblank).1

theorem Encodes.isEmpty (h : Encodes spacing target encode) (gap : List α) :
    (gap.flatMap encode).isEmpty = gap.isEmpty := by
  cases gap with
  | nil => rfl
  | cons first rest => simp [List.flatMap_cons, h.ne_nil first]

variable [DecidableEq α]

variable (spacing) in
/-- The blank for a gap: one that holds a line break becomes a line break. -/
def separator (gap : List α) : α :=
  if spacing.line ∈ gap then spacing.line else spacing.space

variable (spacing) in
/-- A word stays as it is, a gap becomes one blank. -/
def squeeze (run : List α) : List α :=
  if run.all spacing.isBlank then [spacing.separator run] else run

variable (spacing) in
/-- The text without the blanks at its ends and with one blank for each gap. -/
def collapsed (text : List α) : List α :=
  (spacing.runs (spacing.trimmed text)).flatMap spacing.squeeze

variable (spacing) in
/-- What is kept of a text, given whether a word was read before it and the gap since. -/
def keptFrom (started : Bool) (gap : List α) : List α → List α
  | [] => []
  | element :: rest =>
      if spacing.isBlank element then keptFrom started (gap ++ [element]) rest
      else if started && !gap.isEmpty then
        spacing.separator gap :: element :: keptFrom true [] rest
      else element :: keptFrom true [] rest

theorem separator_isBlank (gap : List α) : spacing.isBlank (spacing.separator gap) = true := by
  rw [separator]
  split
  · exact spacing.line_isBlank
  · exact spacing.space_isBlank

/-! The whole text, word by word. -/

theorem squeeze_word (h : spacing.IsWord word) : spacing.squeeze word = word := by
  obtain ⟨hne, hword⟩ := h
  obtain ⟨element, rest, rfl⟩ := List.exists_cons_of_ne_nil hne
  refine if_neg ?_
  rw [List.all_eq_true]
  intro hall
  have hblank := hall element List.mem_cons_self
  rw [hword element List.mem_cons_self] at hblank
  contradiction

theorem squeeze_gap (h : spacing.IsGap gap) : spacing.squeeze gap = [spacing.separator gap] :=
  if_pos (List.all_eq_true.mpr h.2)

theorem collapsed_gap_append (h : ∀ element ∈ gap, spacing.isBlank element = true)
    (text : List α) : spacing.collapsed (gap ++ text) = spacing.collapsed text := by
  rw [collapsed, trimmed, List.dropWhile_append_of_pos h]
  rfl

theorem collapsed_word (h : spacing.IsWord word)
    (hgap : ∀ element ∈ gap, spacing.isBlank element = true) :
    spacing.collapsed (word ++ gap) = word := by
  have hdrop : (word ++ gap).rdropWhile spacing.isBlank = word := by
    rw [List.rdropWhile, List.reverse_append, List.dropWhile_append_of_pos]
    · have hself : word.rdropWhile spacing.isBlank = word := by
        rw [List.rdropWhile_eq_self_iff]
        intro hne
        rw [h.2 _ (List.getLast_mem hne)]
        simp
      exact hself
    · intro element helement
      exact hgap element (List.mem_reverse.mp helement)
  rw [collapsed, trimmed_of_flush (h.flush gap), hdrop, runs_of_forall h.1 h.2,
    List.flatMap_singleton, squeeze_word h]

theorem collapsed_word_append (h : spacing.IsWord word) (hgap : spacing.IsGap gap)
    (hne : tail ≠ []) (hflush : spacing.Flush tail) :
    spacing.collapsed (word ++ (gap ++ tail)) =
      word ++ spacing.separator gap :: spacing.collapsed tail := by
  obtain ⟨hdrop, hfirst⟩ := rdropWhile_append hne hflush (word ++ gap)
  have hstart : ∀ element ∈ (gap ++ tail.rdropWhile spacing.isBlank).head?,
      spacing.isBlank element = true := by
    obtain ⟨blank, blanks, rfl⟩ := List.exists_cons_of_ne_nil hgap.1
    intro element helement
    obtain rfl := Option.some.inj helement
    exact hgap.2 _ List.mem_cons_self
  rw [List.append_assoc, List.append_assoc] at hdrop
  rw [collapsed, trimmed_of_flush (h.flush _), hdrop, runs_append h.1 h.2 hstart,
    runs_append hgap.1 hgap.2 hfirst, List.flatMap_cons, List.flatMap_cons, squeeze_word h,
    squeeze_gap hgap, collapsed, trimmed_of_flush hflush, List.singleton_append]

theorem tidy_collapsed_of_flush (h : spacing.Flush text) (hne : text ≠ []) :
    spacing.Tidy (spacing.collapsed text) := by
  revert hne
  refine word_induction ?nil ?last ?more text h
  case nil =>
    intro hne
    contradiction
  case last =>
    intro word gap hword hgap _
    rw [collapsed_word hword hgap]
    exact .word hword
  case more =>
    intro word gap tail hword hgap htail hflush ih _
    rw [collapsed_word_append hword hgap htail hflush]
    exact .more hword (separator_isBlank gap) (ih htail)

theorem collapsed_dropWhile (text : List α) :
    spacing.collapsed (text.dropWhile spacing.isBlank) = spacing.collapsed text := by
  have hgap : ∀ element ∈ text.takeWhile spacing.isBlank, spacing.isBlank element = true :=
    fun _ helement => List.mem_takeWhile_imp helement
  rw [← collapsed_gap_append hgap, List.takeWhile_append_dropWhile]

/-- Of a collapsed text at most words parted by single blanks are left. -/
theorem collapsed_eq_nil_or_tidy (text : List α) :
    spacing.collapsed text = [] ∨ spacing.Tidy (spacing.collapsed text) := by
  rw [← collapsed_dropWhile]
  rcases eq_or_ne (text.dropWhile spacing.isBlank) [] with hnil | hne
  · rw [hnil]
    exact Or.inl rfl
  · exact Or.inr (tidy_collapsed_of_flush (flush_dropWhile text) hne)

/-! Reading from the front, word by word. -/

theorem keptFrom_gap (h : ∀ element ∈ tail, spacing.isBlank element = true) (started : Bool)
    (gap text : List α) :
    spacing.keptFrom started gap (tail ++ text) = spacing.keptFrom started (gap ++ tail) text := by
  induction tail generalizing gap with
  | nil => rw [List.nil_append, List.append_nil]
  | cons blank blanks ih =>
      rw [List.cons_append, keptFrom, if_pos (h blank List.mem_cons_self),
        ih (fun element helement => h element (List.mem_cons_of_mem _ helement)),
        List.append_assoc, List.singleton_append]

theorem keptFrom_word (h : ∀ element ∈ word, spacing.isBlank element = false) (text : List α) :
    spacing.keptFrom true [] (word ++ text) = word ++ spacing.keptFrom true [] text := by
  induction word with
  | nil => rfl
  | cons first rest ih =>
      rw [List.cons_append, keptFrom, h first List.mem_cons_self]
      simp only [Bool.false_eq_true, if_false, List.isEmpty_nil, Bool.not_true, Bool.and_false,
        List.cons_append]
      rw [ih fun element helement => h element (List.mem_cons_of_mem _ helement)]

/-- The blank of the gap before a word, the word, and what is kept after it. -/
theorem keptFrom_word_append (h : spacing.IsWord word) (started : Bool) (gap text : List α) :
    spacing.keptFrom started gap (word ++ text) =
      (if started && !gap.isEmpty then [spacing.separator gap] else []) ++
        (word ++ spacing.keptFrom true [] text) := by
  obtain ⟨hne, hword⟩ := h
  obtain ⟨first, rest, rfl⟩ := List.exists_cons_of_ne_nil hne
  have hrest := keptFrom_word
    (fun element helement => hword element (List.mem_cons_of_mem first helement)) text
  rw [List.cons_append, keptFrom, hword first List.mem_cons_self, hrest]
  split
  · contradiction
  · split <;> rfl

/-- Before the first word no gap counts. -/
theorem keptFrom_first (h : spacing.Flush text) (gap : List α) :
    spacing.keptFrom false gap text = spacing.keptFrom true [] text := by
  cases text with
  | nil => rfl
  | cons first rest =>
      rw [keptFrom, keptFrom, h first rfl]
      rfl

theorem keptFrom_separator (hgap : spacing.IsGap gap) (hne : text ≠ []) (h : spacing.Flush text) :
    spacing.keptFrom true gap text = spacing.separator gap :: spacing.keptFrom true [] text := by
  obtain ⟨first, rest, rfl⟩ := List.exists_cons_of_ne_nil hne
  have hopen : gap.isEmpty = false := List.isEmpty_eq_false_iff.mpr hgap.1
  rw [keptFrom, keptFrom, h first rfl, hopen]
  rfl

theorem keptFrom_eq_collapsed_of_flush (h : spacing.Flush text) :
    spacing.keptFrom true [] text = spacing.collapsed text := by
  refine word_induction rfl ?last ?more text h
  case last =>
    intro word gap hword hgap
    have hkept := keptFrom_gap hgap true [] []
    rw [List.append_nil] at hkept
    rw [collapsed_word hword hgap, keptFrom_word hword.2, hkept, keptFrom, List.append_nil]
  case more =>
    intro word gap tail hword hgap hne hflush ih
    rw [collapsed_word_append hword hgap hne hflush, keptFrom_word hword.2, keptFrom_gap hgap.2,
      List.nil_append, keptFrom_separator hgap hne hflush, ih]

/-- Reading a text from its front keeps the collapsed text. -/
theorem keptFrom_eq_collapsed (text : List α) :
    spacing.keptFrom false [] text = spacing.collapsed text := by
  have hgap : ∀ element ∈ text.takeWhile spacing.isBlank, spacing.isBlank element = true :=
    fun _ helement => List.mem_takeWhile_imp helement
  have hkept := keptFrom_gap hgap false [] (text.dropWhile spacing.isBlank)
  rw [List.takeWhile_append_dropWhile] at hkept
  rw [hkept, keptFrom_first (flush_dropWhile text),
    keptFrom_eq_collapsed_of_flush (flush_dropWhile text), collapsed_dropWhile]

theorem mem_keptFrom {started : Bool} {element : α}
    (h : element ∈ spacing.keptFrom started gap text) :
    element ∈ text ∨ element = spacing.line ∨ element = spacing.space := by
  induction text generalizing started gap with
  | nil => contradiction
  | cons first rest ih =>
      have hrest {started : Bool} {gap : List α}
          (h : element ∈ spacing.keptFrom started gap rest) :
          element ∈ first :: rest ∨ element = spacing.line ∨ element = spacing.space :=
        (ih h).imp_left (List.mem_cons_of_mem first)
      have hword (h : element ∈ first :: spacing.keptFrom true [] rest) :
          element ∈ first :: rest ∨ element = spacing.line ∨ element = spacing.space := by
        rcases List.mem_cons.mp h with rfl | hmem
        · exact Or.inl List.mem_cons_self
        · exact hrest hmem
      rw [keptFrom] at h
      split at h
      · exact hrest h
      split at h
      · rcases List.mem_cons.mp h with rfl | hmem
        · right
          rw [separator]
          split
          · exact Or.inl rfl
          · exact Or.inr rfl
        · exact hword hmem
      · exact hword h

/-- Collapsing adds no more than the two blanks that stand for gaps. -/
theorem mem_collapsed {element : α} (h : element ∈ spacing.collapsed text) :
    element ∈ text ∨ element = spacing.line ∨ element = spacing.space := by
  rw [← keptFrom_eq_collapsed] at h
  exact mem_keptFrom h

/-! The text written in other symbols. -/

variable [DecidableEq β]

theorem Encodes.separator (h : Encodes spacing target encode) (gap : List α) :
    [target.separator (gap.flatMap encode)] = encode (spacing.separator gap) := by
  have hmem : target.line ∈ gap.flatMap encode ↔ spacing.line ∈ gap := by
    simp [List.mem_flatMap, h.line_mem]
  rw [Spacing.separator, Spacing.separator, if_congr hmem rfl rfl]
  split
  · exact h.line.symm
  · exact h.space.symm

theorem Encodes.keptFrom (h : Encodes spacing target encode) (started : Bool)
    (gap text : List α) :
    target.keptFrom started (gap.flatMap encode) (text.flatMap encode) =
      (spacing.keptFrom started gap text).flatMap encode := by
  induction text generalizing started gap with
  | nil => rfl
  | cons element rest ih =>
      rw [List.flatMap_cons]
      cases hblank : spacing.isBlank element with
      | true =>
          rw [keptFrom_gap (h.gap element hblank).2, Spacing.keptFrom, if_pos hblank, ← ih,
            List.flatMap_append, List.flatMap_singleton]
      | false =>
          have hword : spacing.IsWord [element] := ⟨List.cons_ne_nil _ _, by simpa using hblank⟩
          have hkept := keptFrom_word_append hword started gap rest
          rw [List.singleton_append] at hkept
          rw [keptFrom_word_append (h.word element hblank), hkept, h.isEmpty, List.flatMap_append,
            List.flatMap_append, List.flatMap_singleton, ← ih true []]
          split
          · rw [h.separator, List.flatMap_singleton]
            rfl
          · rfl

/-- Collapsing the written text gives the collapsed text, written. -/
theorem Encodes.collapsed (h : Encodes spacing target encode) (text : List α) :
    target.collapsed (text.flatMap encode) = (spacing.collapsed text).flatMap encode := by
  rw [← keptFrom_eq_collapsed, ← keptFrom_eq_collapsed]
  exact h.keptFrom false [] text

end Spacing

end Metainfo
