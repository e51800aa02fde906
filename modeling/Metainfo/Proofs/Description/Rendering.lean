import Metainfo.Description
import Metainfo.Proofs.Content.Indent
import Metainfo.Proofs.Ingest.Blocks

/-!
What a description reads like. Its paragraphs and lists follow each other, each item with its marker
in the margin that was made for it.
-/

namespace Metainfo

open Metainfo.Utf8
open Metainfo.Blank

def Block.texts : Block → List String
  | .paragraph text => [text]
  | .list _ items => items

namespace Description

/-- The text with its white space collapsed. -/
def normalized (text : String) : List Char :=
  charSpacing.collapsed text.toList

def itemMargin : List Char :=
  [' ', ' ', ' ', ' ']

/-- What stands before an item, as wide as the margin. Of a number the last two digits count. -/
def marker (ordered : Bool) (number : Nat) : List Char :=
  if ordered then
    [if number < 10 then ' ' else (number / 10 % 10).digitChar, (number % 10).digitChar, '.', ' ']
  else [' ', ' ', '-', ' ']

/-- An item with its marker, its further lines below its first one. Without a text there is
neither. -/
def itemLines (ordered : Bool) (number : Nat) (text : String) : List Char :=
  if (normalized text).isEmpty then []
  else marker ordered number ++ aligned '\n' itemMargin (normalized text)

def blockLines : Block → List Char
  | .paragraph text => normalized text ++ ['\n', '\n']
  | .list ordered items =>
      (items.mapIdx fun index text => itemLines ordered (index + 1) text ++ ['\n']).flatten ++
        ['\n']

/-- The blocks one after another without the line breaks at the end, unless nothing is left. -/
def rendering? (blocks : List Block) : Option String :=
  let lines := (blocks.flatMap blockLines).rdropWhile (· = '\n')
  if lines.isEmpty then none else some (String.ofList lines)

variable {description : Description} {ordered : Bool}

theorem setByte_ofContent (data : List UInt8) (index : Nat) (byte : UInt8) :
    (ContentBuffer.ofContent data).setByte index byte = .ofContent (data.set index byte) := by
  rw [ContentBuffer.setByte, ContentBuffer.size_ofContent]
  split
  · rename_i h
    rw [ContentBuffer.eq_ofContent_iff]
    simp [ContentBuffer.bytes_ofContent, List.set_append_left, h]
  · rename_i h
    rw [List.set_eq_of_length_le (Nat.le_of_not_lt h)]

/-- An item without its marker. -/
theorem indent_collapse (text : String) :
    (ContentBuffer.ofContent (encode text)).collapse.indent itemIndent =
      .ofContent (if (normalized text).isEmpty then []
        else ContentBuffer.spaces itemIndent ++
          (aligned '\n' itemMargin (normalized text)).flatMap String.utf8EncodeChar) := by
  have hindented := encodes_spacing.indentedFrom itemMargin true (normalized text)
  rw [ContentBuffer.collapse_encode, ContentBuffer.indent_ofContent, encode_ofList]
  refine congrArg ContentBuffer.ofContent (hindented.trans ?_)
  rw [normalized, charSpacing.indentedFrom_collapsed]
  split
  · rfl
  · rw [List.flatMap_append]
    rfl

theorem content_unorderedItem (description : Description) (text : String) :
    (description.unorderedItem (.ofContent (encode text))).2 =
      .ofContent (encode (String.ofList (itemLines false (description.items + 1) text))) := by
  rw [unorderedItem, indent_collapse, setByte_ofContent, encode_ofList, itemLines]
  split
  · rfl
  · rw [List.flatMap_append]
    rfl

theorem utf8EncodeChar_digit : ∀ digit < 10,
    String.utf8EncodeChar digit.digitChar = [lastDigit digit] := by decide

theorem lastDigit_mod (number : Nat) : lastDigit (number % 10) = lastDigit number := by
  rw [lastDigit, Nat.mod_mod, lastDigit]

/-- The number takes the first three columns of the margin. -/
theorem writeNumber_spaces (number : Nat) (rest : List UInt8) :
    writeNumber (.ofContent (ContentBuffer.spaces itemIndent ++ rest)) number =
      .ofContent ((marker true number).flatMap String.utf8EncodeChar ++ rest) := by
  have hones := utf8EncodeChar_digit (number % 10) (Nat.mod_lt _ (by decide))
  have htens := utf8EncodeChar_digit (number / 10 % 10) (Nat.mod_lt _ (by decide))
  rw [lastDigit_mod] at hones htens
  rw [writeNumber, marker, if_pos rfl]
  split
  · rw [setByte_ofContent, setByte_ofContent, List.flatMap_cons, List.flatMap_cons, hones]
    rfl
  · rw [setByte_ofContent, setByte_ofContent, setByte_ofContent, List.flatMap_cons,
      List.flatMap_cons, hones, htens]
    rfl

theorem writeNumber_nil (number : Nat) : writeNumber (.ofContent []) number = .ofContent [] := by
  rw [writeNumber]
  split
  · rw [setByte_ofContent, setByte_ofContent]
    rfl
  · rw [setByte_ofContent, setByte_ofContent, setByte_ofContent]
    rfl

theorem content_orderedItem (description : Description) (text : String) :
    (description.orderedItem (.ofContent (encode text))).2 =
      .ofContent (encode (String.ofList (itemLines true (description.items + 1) text))) := by
  rw [orderedItem, indent_collapse, encode_ofList, itemLines]
  split
  · exact writeNumber_nil _
  · rw [List.flatMap_append]
    exact writeNumber_spaces _ _

/-! What each part adds to the text gathered so far. -/

/-- The text gathered so far. -/
def gathered (description : Description) : List Char :=
  (description.text.getD "").toList

theorem gathered_append (description : Description) (text : String) :
    (description.append text).gathered = description.gathered ++ text.toList := by
  rw [gathered, append, Option.getD_some, String.toList_append, gathered]

theorem text_encode (text : String) : (ContentBuffer.ofContent (encode text)).text = text := by
  rw [ContentBuffer.text_ofContent, lossy_encode]

/-- An item is added with its number, which only counts in an ordered list. -/
theorem gathered_takeItem {number : Nat} (h : ordered = true → description.items = number)
    (text : String) :
    (description.takeItem ordered text).gathered =
      description.gathered ++ (itemLines ordered (number + 1) text ++ ['\n']) := by
  have hitem (content : ContentBuffer) (lines : List Char)
      (hcontent : content = .ofContent (encode (String.ofList lines))) :
      (description.append (content.text ++ "\n")).gathered =
        description.gathered ++ (lines ++ ['\n']) := by
    rw [hcontent, text_encode, gathered_append, String.toList_append, String.toList_ofList]
    rfl
  cases ordered with
  | true =>
      obtain rfl := h rfl
      exact hitem _ _ (content_orderedItem description text)
  | false => exact hitem _ _ (content_unorderedItem description text)

theorem items_takeItem (description : Description) (ordered : Bool) (text : String) :
    (description.takeItem ordered text).items =
      if ordered then description.items + 1 else description.items := by
  cases ordered <;> rfl

theorem gathered_foldl_takeItem {number : Nat} (h : ordered = true → description.items = number)
    (items : List String) :
    (items.foldl (takeItem ordered) description).gathered =
      description.gathered ++ (items.mapIdx fun index text =>
        itemLines ordered (number + index + 1) text ++ ['\n']).flatten := by
  induction items generalizing description number with
  | nil => exact (List.append_nil _).symm
  | cons text items ih =>
      have hnext : ordered = true → (description.takeItem ordered text).items = number + 1 := by
        intro hordered
        rw [items_takeItem, if_pos hordered, h hordered]
      have hshift (index : Nat) : number + 1 + index = number + (index + 1) := by omega
      rw [List.foldl_cons, ih hnext, gathered_takeItem h, List.mapIdx_cons, List.flatten_cons,
        List.append_assoc]
      simp only [hshift, Nat.add_zero]

theorem gathered_takeBlock (description : Description) (block : Block) :
    (description.takeBlock block).gathered = description.gathered ++ blockLines block := by
  cases block with
  | paragraph text =>
      rw [takeBlock, paragraph, gathered_append, ContentBuffer.collapse_encode, text_encode,
        String.toList_append, String.toList_ofList]
      rfl
  | list ordered items =>
      have hstart : ordered = true → description.startList.items = 0 := fun _ => rfl
      have hitems := gathered_foldl_takeItem hstart items
      rw [takeBlock, endList, gathered_append, hitems, List.append_assoc, blockLines]
      simp only [Nat.zero_add]
      rfl

theorem gathered_foldl_takeBlock (description : Description) (blocks : List Block) :
    (blocks.foldl takeBlock description).gathered =
      description.gathered ++ blocks.flatMap blockLines := by
  induction blocks generalizing description with
  | nil => exact (List.append_nil _).symm
  | cons block blocks ih =>
      rw [List.foldl_cons, ih, gathered_takeBlock, List.flatMap_cons, List.append_assoc]

theorem rendered?_eq (description : Description) :
    description.rendered? =
      let lines := description.gathered.rdropWhile (· = '\n')
      if lines.isEmpty then none else some (String.ofList lines) := by
  rw [rendered?, gathered]
  cases description.text with
  | none => rfl
  | some text => rfl

/-! Where the characters come from. -/

theorem toNat_lt_of_mem {chars : List Char} (hall : chars.all fun char => char.toNat < 128)
    {char : Char} (h : char ∈ chars) : char.toNat < 128 :=
  of_decide_eq_true (List.all_eq_true.mp hall char h)

theorem mem_normalized {text : String} {char : Char} (h : char ∈ normalized text) :
    char.toNat < 128 ∨ char ∈ text.toList := by
  rcases Spacing.mem_collapsed h with hmem | rfl | rfl
  · exact Or.inr hmem
  · exact Or.inl (by decide)
  · exact Or.inl (by decide)

theorem mem_marker {number : Nat} {char : Char} (h : char ∈ marker ordered number) :
    char.toNat < 128 := by
  have hdigit : ∀ digit < 10, digit.digitChar.toNat < 128 := by decide
  have hblank : (' ').toNat < 128 := by decide
  rw [marker] at h
  split at h
  · simp only [List.mem_cons, List.not_mem_nil, or_false] at h
    rcases h with rfl | rfl | rfl | rfl
    · split
      · exact hblank
      · exact hdigit _ (Nat.mod_lt _ (by decide))
    · exact hdigit _ (Nat.mod_lt _ (by decide))
    · decide
    · exact hblank
  · exact toNat_lt_of_mem rfl h

theorem mem_aligned {margin text : List Char} {char : Char}
    (h : char ∈ aligned '\n' margin text) : char ∈ margin ∨ char ∈ text := by
  obtain ⟨element, helement, hmem⟩ := List.mem_flatMap.mp h
  split at hmem
  · rename_i hline
    rcases List.mem_cons.mp hmem with rfl | hmargin
    · exact Or.inr (hline ▸ helement)
    · exact Or.inl hmargin
  · rw [List.mem_singleton] at hmem
    exact Or.inr (hmem ▸ helement)

theorem mem_itemLines {number : Nat} {text : String} {char : Char}
    (h : char ∈ itemLines ordered number text) : char.toNat < 128 ∨ char ∈ text.toList := by
  rw [itemLines] at h
  split at h
  · contradiction
  · rcases List.mem_append.mp h with hmarker | hlines
    · exact Or.inl (mem_marker hmarker)
    · rcases mem_aligned hlines with hmargin | htext
      · exact Or.inl (toNat_lt_of_mem rfl hmargin)
      · exact mem_normalized htext

/-- Apart from short characters, only those of its texts occur in a block. -/
theorem mem_blockLines {block : Block} {char : Char} (h : char ∈ blockLines block) :
    char.toNat < 128 ∨ ∃ text ∈ block.texts, char ∈ text.toList := by
  have hbreak {char : Char} (h : char ∈ ['\n', '\n']) : char.toNat < 128 :=
    toNat_lt_of_mem rfl h
  cases block with
  | paragraph text =>
      rcases List.mem_append.mp h with htext | hline
      · exact (mem_normalized htext).imp_right fun hmem => ⟨text, List.mem_singleton_self _, hmem⟩
      · exact Or.inl (hbreak hline)
  | list ordered items =>
      rcases List.mem_append.mp h with hitems | hline
      · obtain ⟨lines, hlines, hmem⟩ := List.mem_flatten.mp hitems
        obtain ⟨index, hindex, rfl⟩ := List.mem_mapIdx.mp hlines
        rcases List.mem_append.mp hmem with htext | hline
        · exact (mem_itemLines htext).imp_right fun hmem => ⟨_, List.getElem_mem hindex, hmem⟩
        · exact Or.inl (hbreak (List.mem_cons_of_mem _ hline))
      · exact Or.inl (hbreak (List.mem_cons_of_mem _ hline))

/-- A description that starts anew is finished as the text of its blocks. No character of an item is
lost to its marker, and none comes out as a replacement for bytes that are no text. -/
theorem finish_takeBlocks (earlier : Description) (blocks : List Block) :
    (blocks.foldl takeBlock earlier.reset).finish.1 = rendering? blocks ∧
      (∀ text, rendering? blocks = some text → replacement ∈ text.toList →
        ∃ block ∈ blocks, ∃ part ∈ block.texts, replacement ∈ part.toList) ∧
      ∀ (description : Description) (text : String),
        (description.unorderedItem (.ofContent (encode text))).2 =
            .ofContent (encode (String.ofList (itemLines false 0 text))) ∧
          (description.orderedItem (.ofContent (encode text))).2 =
            .ofContent (encode (String.ofList (itemLines true (description.items + 1) text))) := by
  refine ⟨?_, ?_, fun description text => ⟨?_, content_orderedItem description text⟩⟩
  · rw [finish, rendered?_eq, gathered_foldl_takeBlock]
    rfl
  · intro text htext hmem
    rw [rendering?] at htext
    split at htext
    · contradiction
    obtain rfl := Option.some.inj htext
    rw [String.toList_ofList] at hmem
    have hlines := (List.rdropWhile_prefix _ _).subset hmem
    obtain ⟨block, hblock, hchar⟩ := List.mem_flatMap.mp hlines
    have hlong : ¬ replacement.toNat < 128 := by decide
    exact ⟨block, hblock, (mem_blockLines hchar).resolve_left hlong⟩
  · exact content_unorderedItem description text

theorem finish_takeBlocks_numbered :
    ([.paragraph " One\t\n way ", .list true ["a\n b", " ", "c"]].foldl takeBlock
      (empty.append "left over").reset).finish.1 =
        some "One\nway\n\n 1. a\n    b\n\n 3. c" :=
  (finish_takeBlocks (empty.append "left over") _).1.trans (by decide +kernel)

end Description

end Metainfo
