import Metainfo.Proofs.Content.Collapse

/-!
What collapsing leaves of a content: its words, joined by one blank each. The pass over the content
stays within its bytes, and a second one finds nothing to do.
-/

namespace Metainfo

/-- The words of a text that has one, with the blanks before each of them and at the end. -/
structure Worded (α : Type) where
  lead : List α
  first : List α
  /-- The further words, each after the gap before it. -/
  others : List (List α × List α)
  trail : List α

namespace Worded

variable {α : Type}

def text (worded : Worded α) : List α :=
  worded.lead ++ (worded.first ++ (worded.others.flatMap fun (gap, word) => gap ++ word) ++
    worded.trail)

/-- The words are as long as they can be, and so are the gaps between them. -/
structure Parts (spacing : Spacing α) (worded : Worded α) : Prop where
  lead : ∀ element ∈ worded.lead, spacing.isBlank element = true
  first : spacing.IsWord worded.first
  others : ∀ part ∈ worded.others, spacing.IsGap part.1 ∧ spacing.IsWord part.2
  trail : ∀ element ∈ worded.trail, spacing.isBlank element = true

variable [DecidableEq α]

/-- The words with one blank between each two of them. -/
def joined (spacing : Spacing α) (worded : Worded α) : List α :=
  worded.first ++ worded.others.flatMap fun (gap, word) => spacing.separator gap :: word

/-- The same words with nothing but these blanks. -/
def tidied (spacing : Spacing α) (worded : Worded α) : Worded α where
  lead := []
  first := worded.first
  others := worded.others.map fun (gap, word) => ([spacing.separator gap], word)
  trail := []

variable {spacing : Spacing α} {worded : Worded α}

theorem text_tidied : (worded.tidied spacing).text = worded.joined spacing := by
  simp [text, tidied, joined, List.flatMap_map]

theorem joined_tidied : (worded.tidied spacing).joined spacing = worded.joined spacing := by
  have hseparator (gap : List α) :
      spacing.separator [spacing.separator gap] = spacing.separator gap := by
    by_cases hline : spacing.line ∈ gap
    · simp [Spacing.separator, hline]
    · simp [Spacing.separator, hline]
  simp [joined, tidied, List.flatMap_map, hseparator]

theorem Parts.tidied (h : worded.Parts spacing) : (worded.tidied spacing).Parts spacing where
  lead := by simp [Worded.tidied]
  first := h.first
  others := by
    refine List.forall_mem_map.mpr fun part hpart => ⟨⟨List.cons_ne_nil _ _, ?_⟩, ?_⟩
    · simp [Spacing.separator_isBlank]
    · exact (h.others part hpart).2
  trail := by simp [Worded.tidied]

/-- Collapsing keeps the words and makes one blank of each gap between them. -/
theorem Parts.collapsed_text (h : worded.Parts spacing) :
    spacing.collapsed worded.text = worded.joined spacing := by
  obtain ⟨lead, first, others, trail⟩ := worded
  obtain ⟨hlead, hfirst, hothers, htrail⟩ := h
  simp only [text, joined] at hlead hfirst hothers htrail ⊢
  rw [Spacing.collapsed_gap_append hlead]
  -- The induction is on the further words: what follows a gap is a text of one word less.
  induction others generalizing first with
  | nil =>
      simp only [List.flatMap_nil, List.append_nil]
      exact Spacing.collapsed_word hfirst htrail
  | cons part others ih =>
      obtain ⟨gap, word⟩ := part
      obtain ⟨⟨hgap, hword⟩, hrest⟩ := List.forall_mem_cons.mp hothers
      have htail := ih word hword hrest
      simp only [List.flatMap_cons, List.append_assoc, List.cons_append] at htail ⊢
      rw [Spacing.collapsed_word_append hfirst hgap, htail]
      · exact List.append_ne_nil_of_left_ne_nil hword.1 _
      · exact hword.flush _

theorem Parts.collapsed_joined (h : worded.Parts spacing) :
    spacing.collapsed (worded.joined spacing) = worded.joined spacing := by
  rw [← text_tidied, h.tidied.collapsed_text, joined_tidied, text_tidied]

theorem Parts.length_joined_le (h : worded.Parts spacing) :
    (worded.joined spacing).length ≤ worded.text.length := by
  obtain ⟨lead, first, others, trail⟩ := worded
  have hothers : (others.flatMap fun (gap, word) => spacing.separator gap :: word).length ≤
      (others.flatMap fun (gap, word) => gap ++ word).length := by
    obtain ⟨-, -, hothers, -⟩ := h
    induction others with
    | nil => exact Nat.le_refl 0
    | cons part others ih =>
        obtain ⟨⟨hgap, -⟩, hrest⟩ := List.forall_mem_cons.mp hothers
        have hpos := List.length_pos_of_ne_nil hgap.1
        have hle := ih hrest
        simp only [List.flatMap_cons, List.length_append, List.length_cons] at hle ⊢
        omega
  simp only [joined, text, List.length_append] at hothers ⊢
  omega

end Worded

namespace Spacing

variable {α : Type} {spacing : Spacing α} {text : List α}

theorem exists_worded_of_flush (h : spacing.Flush text) (hne : text ≠ []) :
    ∃ worded : Worded α, worded.lead = [] ∧ worded.Parts spacing ∧ text = worded.text := by
  revert hne
  refine word_induction ?nil ?last ?more text h
  case nil =>
    intro hne
    contradiction
  case last =>
    intro word gap hword hgap _
    exact ⟨⟨[], word, [], gap⟩, rfl, ⟨by simp, hword, by simp, hgap⟩, by simp [Worded.text]⟩
  case more =>
    intro word gap tail hword hgap hne hflush ih _
    obtain ⟨⟨lead, first, others, trail⟩, hlead, hparts, rfl⟩ := ih hne
    obtain rfl : lead = [] := hlead
    refine ⟨⟨[], word, (gap, first) :: others, trail⟩, rfl, ⟨by simp, hword, ?_, hparts.trail⟩, ?_⟩
    · exact List.forall_mem_cons.mpr ⟨⟨hgap, hparts.first⟩, hparts.others⟩
    · simp [Worded.text]

/-- A text is blank or has words. -/
theorem blank_or_worded (spacing : Spacing α) (text : List α) :
    (∀ element ∈ text, spacing.isBlank element = true) ∨
      ∃ worded : Worded α, worded.Parts spacing ∧ text = worded.text := by
  have hlead : ∀ element ∈ text.takeWhile spacing.isBlank, spacing.isBlank element = true :=
    fun _ helement => List.mem_takeWhile_imp helement
  have hcut := List.takeWhile_append_dropWhile (p := spacing.isBlank) (l := text)
  rcases eq_or_ne (text.dropWhile spacing.isBlank) [] with hnil | hne
  · rw [hnil, List.append_nil] at hcut
    exact Or.inl (hcut ▸ hlead)
  · obtain ⟨worded, hworded, hparts, hrest⟩ := exists_worded_of_flush (flush_dropWhile text) hne
    refine Or.inr ⟨{ worded with lead := text.takeWhile spacing.isBlank },
      ⟨hlead, hparts.first, hparts.others, hparts.trail⟩, ?_⟩
    rw [Worded.text, hworded, List.nil_append] at hrest
    rw [Worded.text, ← hrest, hcut]

/-- No blank stands at an end or beside another one. -/
structure Trim (spacing : Spacing α) (text : List α) : Prop where
  head : ∀ element ∈ text.head?, spacing.isBlank element = false
  last : ∀ element ∈ text.getLast?, spacing.isBlank element = false
  apart : text.IsChain fun first second =>
    ¬ (spacing.isBlank first = true ∧ spacing.isBlank second = true)

theorem trim_nil : spacing.Trim [] :=
  ⟨by simp, by simp, .nil⟩

theorem IsWord.trim {word : List α} (h : spacing.IsWord word) : spacing.Trim word where
  head element helement := h.2 element (List.mem_of_mem_head? helement)
  last element helement := h.2 element (List.mem_of_getLast? helement)
  apart := by
    refine List.Pairwise.isChain (List.pairwise_of_forall_mem_list fun first hfirst _ _ => ?_)
    simp [h.2 first hfirst]

theorem Tidy.trim (h : spacing.Tidy text) : spacing.Trim text := by
  induction h with
  | word hword => exact hword.trim
  | @more word tail blank hword hblank htail ih =>
      obtain ⟨first, rest, rfl⟩ := List.exists_cons_of_ne_nil htail.ne_nil
      have hfirst := ih.head first rfl
      refine ⟨hword.flush _, ?_, ?_⟩
      · intro element helement
        refine ih.last element ?_
        rwa [List.getLast?_append_of_ne_nil _ (List.cons_ne_nil _ _),
          List.getLast?_cons_cons] at helement
      · refine List.isChain_append.mpr ⟨hword.trim.apart, ?_, ?_⟩
        · exact List.isChain_cons_cons.mpr ⟨by simp [hfirst], ih.apart⟩
        · intro last hlast _ _
          simp [hword.trim.last last hlast]

variable [DecidableEq α]

theorem trim_collapsed (spacing : Spacing α) (text : List α) :
    spacing.Trim (spacing.collapsed text) := by
  rcases collapsed_eq_nil_or_tidy text with hnil | htidy
  · rw [hnil]
    exact trim_nil
  · exact htidy.trim

theorem collapsed_of_blank (h : ∀ element ∈ text, spacing.isBlank element = true) :
    spacing.collapsed text = [] := by
  have hcollapsed := collapsed_gap_append h []
  rw [List.append_nil] at hcollapsed
  exact hcollapsed

end Spacing

namespace ContentBuffer

open Metainfo.Blank

/-- Sets a byte that is there. -/
def set? (bytes : Array UInt8) (index : Nat) (byte : UInt8) : Option (Array UInt8) :=
  if index < bytes.size then some (bytes.setIfInBounds index byte) else none

/-- The pass of `collapseFrom` with every position looked up; there is no answer if one of them is
outside of the bytes. -/
def collapseFrom? (stop : Nat) (bytes : Array UInt8) (read write : Nat) (gap : Gap) :
    Option (Array UInt8) :=
  if read < stop then do
    let byte ← bytes[read]?
    if isBlank byte then collapseFrom? stop bytes (read + 1) write (gap.widen byte)
    else
      match gap.separator?, write with
      | some separator, before + 1 => do
          let bytes ← set? bytes (before + 1) separator
          let bytes ← set? bytes (before + 2) byte
          collapseFrom? stop bytes (read + 1) (before + 3) .closed
      | _, _ => do
          let bytes ← set? bytes write byte
          collapseFrom? stop bytes (read + 1) (write + 1) .closed
  else if write ≤ bytes.size then some (bytes.take write) else none
  termination_by stop - read

def collapse? (buffer : ContentBuffer) : Option ContentBuffer :=
  (collapseFrom? buffer.size buffer.bytes 0 0 .closed).map fun bytes => ⟨bytes.push 0⟩

theorem set?_of_lt {bytes : Array UInt8} {index : Nat} (h : index < bytes.size) (byte : UInt8) :
    set? bytes index byte = some (bytes.setIfInBounds index byte) :=
  if_pos h

theorem getElem?_eq_some_getD {bytes : Array UInt8} {index : Nat} (h : index < bytes.size) :
    bytes[index]? = some (bytes.getD index 0) := by
  simp [h]

/-- The writing position stays behind the reading one, by one more while a gap is open. -/
theorem collapseFrom?_eq_some (stop : Nat) (bytes : Array UInt8) (read write : Nat) (gap : Gap)
    (hstop : stop ≤ bytes.size) (hread : read ≤ stop)
    (hwrite : write + (if gap = .closed then 0 else 1) ≤ read) :
    collapseFrom? stop bytes read write gap =
      some (collapseFrom stop bytes read write gap) := by
  fun_induction collapseFrom stop bytes read write gap with
  | case1 bytes read write gap hlt byte hblank ih =>
      have hopen : gap.widen byte ≠ .closed := by
        rw [Gap.widen]
        split <;> simp
      rw [collapseFrom?, if_pos hlt, getElem?_eq_some_getD (by omega)]
      refine (if_pos hblank).trans (ih hstop hlt ?_)
      rw [if_neg hopen]
      split at hwrite <;> omega
  | case2 bytes read gap hlt byte hblank separator before hgap ih =>
      have hopen : gap ≠ .closed := by
        rintro rfl
        contradiction
      rw [if_neg hopen] at hwrite
      rw [collapseFrom?, if_pos hlt, getElem?_eq_some_getD (by omega)]
      simp only [Option.bind_eq_bind, Option.bind_some]
      rw [if_neg hblank, hgap]
      simp only
      rw [set?_of_lt (by omega), Option.bind_some,
        set?_of_lt (by rw [Array.size_setIfInBounds]; omega), Option.bind_some]
      exact ih (by simpa using hstop) hlt (by simp; omega)
  | case3 bytes read write gap hlt byte hblank hnone ih =>
      have hle : write ≤ read := by
        split at hwrite <;> omega
      rw [collapseFrom?, if_pos hlt, getElem?_eq_some_getD (by omega)]
      simp only [Option.bind_eq_bind, Option.bind_some]
      rw [if_neg hblank, set?_of_lt (by omega), Option.bind_some]
      exact ih (by simpa using hstop) hlt (by simp; omega)
  | case4 bytes read write gap hge =>
      rw [collapseFrom?, if_neg hge, if_pos]
      split at hwrite <;> omega

theorem collapse?_ofContent (data : List UInt8) :
    (ofContent data).collapse? = some (ofContent data).collapse := by
  have hsize : (ofContent data).bytes.size = data.length + 1 := by
    rw [← Array.length_toList, bytes_ofContent]
    simp
  rw [collapse?, collapseFrom?_eq_some _ _ _ _ _ (by rw [size_ofContent, hsize]; omega)
    (Nat.zero_le _) (by simp)]
  rfl

/-- Collapsing leaves the words of a content as they are and in their order, with one line feed for
a gap that holds one and one space for any other gap, nothing at the ends, and the terminating zero.
So there are no blanks at the ends nor beside each other, the content does not grow, and a second
pass changes nothing. No position of the pass is outside of the bytes. -/
theorem collapse_words (data : List UInt8) :
    let after := (ofContent data).collapse
    ∃ content : List UInt8,
      after.bytes.toList = content ++ [0] ∧
      ((∀ byte ∈ data, isBlank byte = true) ∧ content = [] ∨
        ∃ worded : Worded UInt8, worded.Parts spacing ∧ data = worded.text ∧
          content = worded.joined spacing) ∧
      spacing.Trim content ∧
      content.length ≤ data.length ∧
      after.collapse = after ∧
      (ofContent data).collapse? = some after := by
  intro after
  have hafter : after = ofContent (spacing.collapsed data) := collapse_ofContent data
  refine ⟨spacing.collapsed data, eq_ofContent_iff.mp hafter, ?_, spacing.trim_collapsed data,
    ?_, ?_, collapse?_ofContent data⟩
  · rcases spacing.blank_or_worded data with hblank | ⟨worded, hparts, rfl⟩
    · exact Or.inl ⟨hblank, Spacing.collapsed_of_blank hblank⟩
    · exact Or.inr ⟨worded, hparts, rfl, hparts.collapsed_text⟩
  · rcases spacing.blank_or_worded data with hblank | ⟨worded, hparts, rfl⟩
    · rw [Spacing.collapsed_of_blank hblank]
      exact Nat.zero_le _
    · rw [hparts.collapsed_text]
      exact hparts.length_joined_le
  · rw [hafter, collapse_ofContent]
    congr 1
    rcases spacing.blank_or_worded data with hblank | ⟨worded, hparts, rfl⟩
    · rw [Spacing.collapsed_of_blank hblank]
      rfl
    · rw [hparts.collapsed_text, hparts.collapsed_joined]

end ContentBuffer

end Metainfo
