import Metainfo.Proofs.Description.Rendering
import Metainfo.Proofs.Text.Decoding

/-!
What becomes of a buffer that is changed over and over. Beside it a plain list of bytes is kept, on
which each change does what it says at once; the buffer always holds these bytes and the zero that
terminates them. If all that was appended is text, so is the content at any time.
-/

namespace Metainfo

open Metainfo.Utf8
open Metainfo.Blank

namespace ContentBuffer

/-- A change to a buffer. An item or a paragraph is taken by a description in whatever state. -/
inductive Change where
  | append (data : List UInt8)
  | clear
  | collapse
  | indent (width : Nat)
  | paragraph (description : Description)
  | item (ordered : Bool) (description : Description)

def change (buffer : ContentBuffer) : Change → ContentBuffer
  | .append data => buffer.append data
  | .clear => buffer.clear
  | .collapse => buffer.collapse
  | .indent width => buffer.indent width
  | .paragraph description => (description.paragraph buffer).2
  | .item ordered description =>
      if ordered then (description.orderedItem buffer).2 else (description.unorderedItem buffer).2

/-- The bytes of an item, its marker in the margin that its further lines have. -/
def itemBytes (ordered : Bool) (number : Nat) (data : List UInt8) : List UInt8 :=
  let words := spacing.collapsed data
  if words.isEmpty then []
  else
    encode (String.ofList (Description.marker ordered number)) ++
      aligned (byteOf '\n') (spaces Description.itemIndent) words

/-- A change, made to the bytes as a whole. -/
def Change.made (data : List UInt8) : Change → List UInt8
  | .append more => data ++ more
  | .clear => []
  | .collapse | .paragraph _ => spacing.collapsed data
  | .indent width => indentedBytes width data
  | .item ordered description => itemBytes ordered (description.items + 1) data

theorem ofContent_injective : Function.Injective ofContent := by
  intro first second h
  rw [← content_ofContent first, h, content_ofContent]

theorem append_ofContent (data more : List UInt8) :
    (ofContent data).append more = ofContent (data ++ more) := by
  simp [eq_ofContent_iff, append, bytes_ofContent]

theorem indent_collapse_ofContent (data : List UInt8) :
    (ofContent data).collapse.indent Description.itemIndent =
      ofContent (if (spacing.collapsed data).isEmpty then []
        else spaces Description.itemIndent ++
          aligned (byteOf '\n') (spaces Description.itemIndent) (spacing.collapsed data)) := by
  rw [collapse_ofContent, indent_ofContent]
  exact congrArg ofContent (spacing.indentedFrom_collapsed _ data)

/-- The marker takes the place of spaces, whatever the content is. -/
theorem change_item (ordered : Bool) (description : Description) (data : List UInt8) :
    (ofContent data).change (.item ordered description) =
      ofContent (itemBytes ordered (description.items + 1) data) := by
  rw [itemBytes, encode_ofList]
  cases ordered with
  | true =>
      change Description.writeNumber ((ofContent data).collapse.indent _) _ = _
      rw [indent_collapse_ofContent]
      split
      · exact Description.writeNumber_nil _
      · exact Description.writeNumber_spaces _ _
  | false =>
      change ((ofContent data).collapse.indent _).setByte 2 (byteOf '-') = _
      rw [indent_collapse_ofContent, Description.setByte_ofContent]
      split <;> rfl

theorem change_ofContent (data : List UInt8) (change : Change) :
    (ofContent data).change change = ofContent (change.made data) := by
  cases change with
  | append more => exact append_ofContent data more
  | clear => rfl
  | collapse | paragraph => exact collapse_ofContent data
  | indent width => exact indent_ofContent data width
  | item ordered description => exact change_item ordered description data

theorem foldl_change_ofContent (data : List UInt8) (changes : List Change) :
    changes.foldl change (ofContent data) = ofContent (changes.foldl Change.made data) := by
  induction changes generalizing data with
  | nil => rfl
  | cons change changes ih => rw [List.foldl_cons, change_ofContent, ih, List.foldl_cons]

/-! Changes to the bytes of a text. -/

/-- A text that is appended by one of the changes. -/
def IsGiven (changes : List Change) (text : String) : Prop :=
  .append (encode text) ∈ changes

/-- Nothing but whole texts is appended. -/
def OnlyTexts (changes : List Change) : Prop :=
  ∀ data, .append data ∈ changes → (strict data).isSome = true

theorem itemBytes_encode (ordered : Bool) (description : Description) (text : String) :
    itemBytes ordered (description.items + 1) (encode text) =
      encode (String.ofList (Description.itemLines ordered (description.items + 1) text)) := by
  refine ofContent_injective ((change_item ordered description (encode text)).symm.trans ?_)
  cases ordered with
  | true => exact Description.content_orderedItem description text
  | false => exact Description.content_unorderedItem description text

theorem indentedBytes_encode (width : Nat) (text : String) :
    indentedBytes width (encode text) =
      encode (String.ofList
        (indentedFrom '\n' (List.replicate width ' ') true text.toList)) := by
  have hspaces : (List.replicate width ' ').flatMap String.utf8EncodeChar = spaces width := by
    have hspace : String.utf8EncodeChar ' ' = [byteOf ' '] := by decide
    rw [List.flatMap_replicate, hspace, List.flatten_replicate_singleton, spaces]
  rw [encode_ofList, encode_eq_flatMap, indentedBytes, ← hspaces]
  exact encodes_spacing.indentedFrom _ true text.toList

/-- The text stays text, and of its long characters none comes from elsewhere. -/
theorem exists_encode_made {change : Change}
    (hgiven : ∀ data, change = .append data → (strict data).isSome = true) (text : String) :
    ∃ next, change.made (encode text) = encode next ∧
      ∀ char ∈ next.toList, char.toNat < 128 ∨ char ∈ text.toList ∨
        ∃ given, change = .append (encode given) ∧ char ∈ given.toList := by
  cases change with
  | append data =>
      obtain ⟨given, hstrict⟩ := Option.isSome_iff_exists.mp (hgiven data rfl)
      obtain rfl := strict_eq_some_iff.mp hstrict
      refine ⟨text ++ given, ?_, fun char hchar => Or.inr ?_⟩
      · simp [Change.made, encode_eq_flatMap]
      · rw [String.toList_append] at hchar
        exact (List.mem_append.mp hchar).imp_right fun hmem => ⟨given, rfl, hmem⟩
  | clear => exact ⟨"", rfl, fun _ hchar => absurd hchar List.not_mem_nil⟩
  | collapse | paragraph =>
      refine ⟨String.ofList (Description.normalized text), ?_, fun char hchar => ?_⟩
      · rw [encode_ofList, encode_eq_flatMap]
        exact encodes_spacing.collapsed text.toList
      · rw [String.toList_ofList] at hchar
        exact (Description.mem_normalized hchar).imp_right Or.inl
  | indent width =>
      refine ⟨_, indentedBytes_encode width text, fun char hchar => ?_⟩
      rw [String.toList_ofList] at hchar
      rcases mem_indentedFrom hchar with hspace | htext
      · obtain rfl := List.eq_of_mem_replicate hspace
        exact Or.inl (by decide)
      · exact Or.inr (Or.inl htext)
  | item ordered description =>
      refine ⟨_, itemBytes_encode ordered description text, fun char hchar => ?_⟩
      rw [String.toList_ofList] at hchar
      exact (Description.mem_itemLines hchar).imp_right Or.inl

theorem exists_encode_foldl {changes : List Change} (h : OnlyTexts changes) :
    ∃ text, changes.foldl Change.made [] = encode text ∧
      ∀ char ∈ text.toList, char.toNat < 128 ∨
        ∃ given, IsGiven changes given ∧ char ∈ given.toList := by
  induction changes using List.reverseRecOn with
  | nil => exact ⟨"", rfl, fun _ hchar => absurd hchar List.not_mem_nil⟩
  | append_singleton changes change ih =>
      obtain ⟨text, hmade, hchars⟩ := ih fun data hdata => h data (List.mem_append_left _ hdata)
      have hgiven (data : List UInt8) (heq : change = .append data) :
          (strict data).isSome = true :=
        h data (List.mem_append_right _ (List.mem_singleton.mpr heq.symm))
      obtain ⟨next, hnext, hkept⟩ := exists_encode_made hgiven text
      refine ⟨next, ?_, fun char hchar => ?_⟩
      · rw [List.foldl_concat, hmade, hnext]
      · rcases hkept char hchar with hshort | htext | ⟨given, rfl, hmem⟩
        · exact Or.inl hshort
        · refine (hchars char htext).imp_right fun ⟨given, hearlier, hmem⟩ => ?_
          exact ⟨given, List.mem_append_left _ hearlier, hmem⟩
        · exact Or.inr ⟨given, List.mem_append_right _ (List.mem_singleton_self _), hmem⟩

/-- After any changes a buffer holds the bytes that the changes make of none, and behind them the
zero that terminates them. As long as nothing but whole texts is appended, the content is text too,
which is read exactly; a replacement character in it was appended as one. -/
theorem foldl_change (changes : List Change) :
    let buffer := changes.foldl change empty
    buffer.bytes.toList = buffer.content ++ [0] ∧
      buffer.size = buffer.content.length ∧
      buffer.content = changes.foldl Change.made [] ∧
      (OnlyTexts changes →
        strict buffer.content = some buffer.text ∧
          (replacement ∈ buffer.text.toList →
            ∃ given, IsGiven changes given ∧ replacement ∈ given.toList)) := by
  intro buffer
  have hbuffer : buffer = ofContent (changes.foldl Change.made []) :=
    foldl_change_ofContent [] changes
  rw [hbuffer, content_ofContent]
  refine ⟨bytes_ofContent _, size_ofContent _, rfl, fun h => ?_⟩
  obtain ⟨text, hmade, hchars⟩ := exists_encode_foldl h
  rw [hmade, Description.text_encode]
  have hlong : ¬ replacement.toNat < 128 := by decide
  exact ⟨strict_eq_some_iff.mpr rfl, fun hmem => (hchars _ hmem).resolve_left hlong⟩

theorem foldl_change_item :
    let changes : List Change :=
      [.append (encode "old"), .clear, .append (encode " \u00E9\t"), .append (encode "\n b"),
        .item true ⟨none, 11⟩, .append [0], .indent 1]
    OnlyTexts changes ∧
      strict (changes.foldl change empty).content = some " 12. \u00E9\n     b\u0000" := by
  intro changes
  have htexts : OnlyTexts changes := by
    intro data hdata
    simp only [changes, List.mem_cons, List.not_mem_nil, Change.append.injEq, reduceCtorEq,
      or_false, false_or] at hdata
    rcases hdata with rfl | rfl | rfl | rfl <;> decide
  have htext : (changes.foldl change empty).text = " 12. \u00E9\n     b\u0000" := by
    decide +kernel
  refine ⟨htexts, ?_⟩
  rw [← htext]
  exact ((foldl_change changes).2.2.2 htexts).1

end ContentBuffer

end Metainfo
