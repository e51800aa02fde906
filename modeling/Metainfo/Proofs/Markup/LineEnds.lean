import Metainfo.Proofs.Markup.Pieces
import Metainfo.Proofs.Text.Decoding

/-!
Ends of lines. A document with a line feed in the place of each other end of a line is made of the
same pieces, but for these ends, and they tell no tags and no text apart.
-/

namespace Metainfo.Markup

open Metainfo.Utf8
open Metainfo.Blank

/-- Bytes with a line feed in the place of each carriage return and each pair of the two. -/
def lineFeeds : List UInt8 → List UInt8
  | [] => []
  | byte :: rest =>
      if byte = byteOf '\r' then
        if rest.head? = some (byteOf '\n') then lineFeeds rest else byteOf '\n' :: lineFeeds rest
      else byte :: lineFeeds rest

variable {bytes rest front : List UInt8} {byte : UInt8}

theorem lineFeeds_cons_of_ne (h : byte ≠ byteOf '\r') (rest : List UInt8) :
    lineFeeds (byte :: rest) = byte :: lineFeeds rest := by
  rw [lineFeeds, if_neg h]

theorem lineFeeds_pair (rest : List UInt8) :
    lineFeeds (byteOf '\r' :: byteOf '\n' :: rest) = byteOf '\n' :: lineFeeds rest := by
  rw [lineFeeds, if_pos rfl, List.head?_cons, if_pos rfl, lineFeeds_cons_of_ne (by decide)]

theorem lineFeeds_lone (h : rest.head? ≠ some (byteOf '\n')) :
    lineFeeds (byteOf '\r' :: rest) = byteOf '\n' :: lineFeeds rest := by
  rw [lineFeeds, if_pos rfl, if_neg h]

theorem lineFeeds_of_notMem (h : byteOf '\r' ∉ bytes) : lineFeeds bytes = bytes := by
  induction bytes with
  | nil => rfl
  | cons byte rest ih =>
      obtain ⟨hne, hrest⟩ := List.ne_and_not_mem_of_not_mem_cons h
      rw [lineFeeds_cons_of_ne hne.symm, ih hrest]

theorem lineFeeds_append_of_notMem (h : byteOf '\r' ∉ front) (rest : List UInt8) :
    lineFeeds (front ++ rest) = front ++ lineFeeds rest := by
  induction front with
  | nil => rfl
  | cons byte front ih =>
      obtain ⟨hne, hfront⟩ := List.ne_and_not_mem_of_not_mem_cons h
      rw [List.cons_append, lineFeeds_cons_of_ne hne.symm, ih hfront]
      rfl

/-- A pair that ends a line is not cut in two. -/
theorem lineFeeds_append (h : rest.head? ≠ some (byteOf '\n')) (front : List UInt8) :
    lineFeeds (front ++ rest) = lineFeeds front ++ lineFeeds rest := by
  induction front with
  | nil => rfl
  | cons byte front ih =>
      have hhead : (front ++ rest).head? = some (byteOf '\n') ↔
          front.head? = some (byteOf '\n') := by
        cases front with
        | nil => simpa using h
        | cons => rfl
      rw [List.cons_append, lineFeeds, lineFeeds, ih]
      simp only [hhead]
      split
      · split <;> rfl
      · rfl

theorem mem_lineFeeds (h : byte ∈ lineFeeds bytes) : byte = byteOf '\n' ∨ byte ∈ bytes := by
  induction bytes with
  | nil => exact Or.inr h
  | cons first rest ih =>
      have hrest (hmem : byte ∈ lineFeeds rest) : byte = byteOf '\n' ∨ byte ∈ first :: rest :=
        (ih hmem).imp_right (List.mem_cons_of_mem first)
      rw [lineFeeds] at h
      split at h
      · split at h
        · exact hrest h
        · exact (List.mem_cons.mp h).elim Or.inl hrest
      · rcases List.mem_cons.mp h with rfl | hmem
        · exact Or.inr List.mem_cons_self
        · exact hrest hmem

theorem head?_lineFeeds (h : bytes.head? ≠ some (byteOf '\r')) :
    (lineFeeds bytes).head? = bytes.head? := by
  cases bytes with
  | nil => rfl
  | cons byte rest => rw [lineFeeds_cons_of_ne (by simpa using h)]; rfl

/-- An end of a line is one byte at least. -/
theorem head?_lineFeeds_return (rest : List UInt8) :
    (lineFeeds (byteOf '\r' :: rest)).head? = some (byteOf '\n') := by
  by_cases h : rest.head? = some (byteOf '\n')
  · obtain ⟨others, rfl⟩ := List.head?_eq_some_iff.mp h
    rw [lineFeeds_pair]
    rfl
  · rw [lineFeeds_lone h]
    rfl

theorem mem_head?_lineFeeds (h : byte ∈ (lineFeeds bytes).head?) :
    byte = byteOf '\n' ∨ byte ∈ bytes.head? := by
  by_cases hreturn : bytes.head? = some (byteOf '\r')
  · obtain ⟨rest, rfl⟩ := List.head?_eq_some_iff.mp hreturn
    rw [head?_lineFeeds_return] at h
    exact Or.inl (Option.some.inj h).symm
  · rw [head?_lineFeeds hreturn] at h
    exact Or.inr h

theorem lineFeeds_ne_nil (h : bytes ≠ []) : lineFeeds bytes ≠ [] := by
  obtain ⟨byte, rest, rfl⟩ := List.exists_cons_of_ne_nil h
  by_cases hreturn : byte = byteOf '\r'
  · obtain ⟨others, hothers⟩ := List.head?_eq_some_iff.mp (head?_lineFeeds_return rest)
    rw [hreturn, hothers]
    exact List.cons_ne_nil _ _
  · rw [lineFeeds_cons_of_ne hreturn]
    exact List.cons_ne_nil _ _

theorem all_lineFeeds {test : UInt8 → Bool} (h : test (byteOf '\r') = test (byteOf '\n')) :
    (lineFeeds bytes).all test = bytes.all test := by
  induction bytes with
  | nil => rfl
  | cons byte rest ih =>
      rw [lineFeeds, List.all_cons, ← ih]
      split
      · rename_i hreturn
        rw [hreturn, h]
        split
        · rename_i hpair
          obtain ⟨others, rfl⟩ := List.head?_eq_some_iff.mp hpair
          rw [lineFeeds_cons_of_ne (by decide), List.all_cons, ← Bool.and_assoc, Bool.and_self]
        · rfl
      · rfl

/-! What ends a piece is not in the ends of lines. -/

theorem isPrefixOf_lineFeeds {pattern : List UInt8} (hreturn : byteOf '\r' ∉ pattern)
    (hfeed : byteOf '\n' ∉ pattern) (bytes : List UInt8) :
    pattern.isPrefixOf (lineFeeds bytes) = pattern.isPrefixOf bytes := by
  induction pattern generalizing bytes with
  | nil => rfl
  | cons first pattern ih =>
      cases bytes with
      | nil => rfl
      | cons byte rest =>
          obtain ⟨hfirst, hreturn⟩ := List.ne_and_not_mem_of_not_mem_cons hreturn
          obtain ⟨hother, hfeed⟩ := List.ne_and_not_mem_of_not_mem_cons hfeed
          by_cases hbyte : byte = byteOf '\r'
          · obtain ⟨others, hothers⟩ :=
              List.head?_eq_some_iff.mp (head?_lineFeeds_return rest)
            rw [hbyte, hothers, List.isPrefixOf, List.isPrefixOf,
              beq_eq_false_iff_ne.mpr hfirst.symm, beq_eq_false_iff_ne.mpr hother.symm]
            rfl
          · rw [lineFeeds_cons_of_ne hbyte, List.isPrefixOf, List.isPrefixOf, ih hreturn hfeed]

theorem before?_cons_eq_some_iff {pattern content : List UInt8} :
    before? pattern (byte :: bytes) = some (byte :: content) ↔
      ¬ pattern.isPrefixOf (byte :: bytes) = true ∧ before? pattern bytes = some content := by
  rw [before?]
  split
  · rename_i hfound
    simp [hfound]
  · rename_i hnot
    simp [hnot]

theorem before?_lineFeeds {pattern content : List UInt8} (hne : pattern ≠ [])
    (hreturn : byteOf '\r' ∉ pattern) (hfeed : byteOf '\n' ∉ pattern)
    (h : before? pattern (content ++ pattern) = some content) :
    before? pattern (lineFeeds content ++ pattern) = some (lineFeeds content) := by
  have hwhole (content : List UInt8) :
      lineFeeds (content ++ pattern) = lineFeeds content ++ pattern := by
    rw [lineFeeds_append, lineFeeds_of_notMem hreturn]
    exact fun hhead => hfeed (List.mem_of_mem_head? hhead)
  fun_induction lineFeeds content with
  | case1 => exact h
  | case2 rest hpair ih => exact ih (before?_cons_eq_some_iff.mp h).2
  | case3 rest hlone ih =>
      rw [List.cons_append] at h ⊢
      refine before?_cons_eq_some_iff.mpr ⟨?_, ih (before?_cons_eq_some_iff.mp h).2⟩
      obtain ⟨first, others, rfl⟩ := List.exists_cons_of_ne_nil hne
      have hfirst := (List.ne_and_not_mem_of_not_mem_cons hfeed).1
      simp [hfirst.symm]
  | case4 byte rest hbyte ih =>
      rw [List.cons_append] at h ⊢
      obtain ⟨hnot, hrest⟩ := before?_cons_eq_some_iff.mp h
      refine before?_cons_eq_some_iff.mpr ⟨?_, ih hrest⟩
      rw [← hwhole, ← lineFeeds_cons_of_ne hbyte, isPrefixOf_lineFeeds hreturn hfeed]
      exact hnot

theorem map_cons_eq_ok_iff {ε : Type} {found : Except ε (List UInt8)} {content : List UInt8} :
    found.map (byte :: ·) = .ok (byte :: content) ↔ found = .ok content := by
  cases found <;> simp [Except.map]

/-- Quotes that hide the end of a tag are opened and closed as they are in declarations. -/
theorem Tag.content_cons_eq_ok_iff {quote : Option Quote} {content : List UInt8} :
    Tag.content quote (byte :: bytes) = .ok (byte :: content) ↔
      ¬ (quote = none ∧ byte = byteOf '>') ∧
        Tag.content (Doctype.toggle quote byte) bytes = .ok content := by
  cases quote with
  | none =>
      rw [Tag.content]
      split
      · rename_i hbracket
        simp [hbracket]
      · rename_i hother
        rw [map_cons_eq_ok_iff, Doctype.toggle]
        simp [hother]
  | some quote =>
      rw [Tag.content, map_cons_eq_ok_iff, Doctype.toggle]
      simp

theorem Tag.content_lineFeeds {quote : Option Quote} {content : List UInt8}
    (h : Tag.content quote (content ++ encode ">") = .ok content) :
    Tag.content quote (lineFeeds content ++ encode ">") = .ok (lineFeeds content) := by
  have hspace (quote : Option Quote) : Doctype.toggle quote (byteOf '\r') = quote ∧
      Doctype.toggle quote (byteOf '\n') = quote := by
    cases quote <;> exact ⟨rfl, rfl⟩
  fun_induction lineFeeds content generalizing quote with
  | case1 => exact h
  | case2 rest hpair ih =>
      rw [List.cons_append, Tag.content_cons_eq_ok_iff, (hspace quote).1] at h
      exact ih h.2
  | case3 rest hlone ih =>
      rw [List.cons_append, Tag.content_cons_eq_ok_iff, (hspace quote).1] at h
      rw [List.cons_append, Tag.content_cons_eq_ok_iff, (hspace quote).2]
      exact ⟨fun hends => absurd hends.2 (by decide), ih h.2⟩
  | case4 byte rest hbyte ih =>
      rw [List.cons_append, Tag.content_cons_eq_ok_iff] at h
      rw [List.cons_append, Tag.content_cons_eq_ok_iff]
      exact ⟨h.1, ih h.2⟩

namespace Doctype

/-- The position after white space. -/
def Position.afterSpace : Position → Position
  | .comment _ => .comment 0
  | .instruction _ => .instruction false
  | position => position

theorem Position.next_space (position : Position) (rest : List UInt8) :
    position.next (byteOf '\r') rest = some (position.afterSpace, 0) ∧
      position.next (byteOf '\n') rest = some (position.afterSpace, 0) := by
  cases position with
  | head quote => cases quote <;> exact ⟨rfl, rfl⟩
  | quoted quote => cases quote <;> exact ⟨rfl, rfl⟩
  | _ => exact ⟨rfl, rfl⟩

theorem Position.afterSpace_afterSpace (position : Position) :
    position.afterSpace.afterSpace = position.afterSpace := by
  cases position <;> rfl

theorem opening_lineFeeds (bytes : List UInt8) : opening (lineFeeds bytes) = opening bytes := by
  have hpattern (text : String) (hreturn : byteOf '\r' ∉ encode text)
      (hfeed : byteOf '\n' ∉ encode text) :
      (encode text).isPrefixOf (lineFeeds bytes) = (encode text).isPrefixOf bytes :=
    isPrefixOf_lineFeeds hreturn hfeed bytes
  have hdeclaration :
      (quotedDeclarations.any fun name => (encode name).isPrefixOf (lineFeeds bytes)) =
        quotedDeclarations.any fun name => (encode name).isPrefixOf bytes := by
    simp only [quotedDeclarations, List.any_cons, List.any_nil]
    rw [hpattern "!ENTITY" (by decide) (by decide), hpattern "!ATTLIST" (by decide) (by decide),
      hpattern "!NOTATION" (by decide) (by decide)]
  rw [opening, opening, hpattern "?" (by decide) (by decide),
    hpattern "!--" (by decide) (by decide), hdeclaration]

/-- What is passed over is the opening of a declaration. -/
theorem notMem_of_opening : byteOf '\r' ∉ bytes.take (opening bytes).2 := by
  have hpassed {text : String} {skip : Nat} (hreturn : byteOf '\r' ∉ encode text)
      (hskip : skip ≤ (encode text).length) (h : (encode text).isPrefixOf bytes = true) :
      byteOf '\r' ∉ bytes.take skip := by
    obtain ⟨rest, rfl⟩ := List.isPrefixOf_iff_prefix.mp h
    rw [List.take_append_of_le_length hskip]
    exact fun hmem => hreturn (List.mem_of_mem_take hmem)
  rw [opening]
  split
  · rename_i h
    exact hpassed (by decide) (by decide) h
  split
  · rename_i h
    exact hpassed (by decide) (by decide) h
  split
  · rename_i h
    obtain ⟨name, hname, hfound⟩ := List.any_eq_true.mp h
    simp only [quotedDeclarations, List.mem_cons, List.not_mem_nil, or_false] at hname
    rcases hname with rfl | rfl | rfl <;> exact hpassed (by decide) (by decide) hfound
  · simp

theorem Position.notMem_of_next {position following : Position} {skip : Nat}
    (h : position.next byte bytes = some (following, skip)) : byteOf '\r' ∉ bytes.take skip := by
  have hnone {place : Position} (hplace : (place, 0) = (following, skip)) :
      byteOf '\r' ∉ bytes.take skip := by
    cases hplace
    simp
  cases position with
  | subset =>
      simp only [Position.next] at h
      split at h
      · exact hnone (Option.some.inj h)
      split at h
      · have hskip : (opening bytes).2 = skip := congrArg Prod.snd (Option.some.inj h)
        rw [← hskip]
        exact notMem_of_opening
      · exact hnone (Option.some.inj h)
  | unquoted =>
      simp only [Position.next] at h
      exact hnone (Option.some.inj h)
  | quoted quote | instruction mark | tail =>
      simp only [Position.next] at h
      split at h
      · first | exact hnone (Option.some.inj h) | cases h
      · exact hnone (Option.some.inj h)
  | head quote | comment dashes =>
      simp only [Position.next] at h
      split at h
      · first | exact hnone (Option.some.inj h) | cases h
      · split at h <;> exact hnone (Option.some.inj h)

theorem lengthFrom_space (position : Position) (bytes : List UInt8) :
    lengthFrom position 0 (byteOf '\r' :: bytes) =
        (lengthFrom position.afterSpace 0 bytes).map (· + 1) ∧
      lengthFrom position 0 (byteOf '\n' :: bytes) =
        (lengthFrom position.afterSpace 0 bytes).map (· + 1) := by
  rw [lengthFrom, lengthFrom, (position.next_space bytes).1, (position.next_space bytes).2]
  exact ⟨rfl, rfl⟩

theorem map_succ_eq_some_iff {found : Option Nat} {length : Nat} :
    found.map (· + 1) = some (length + 1) ↔ found = some length := by
  cases found <;> simp

theorem lengthFrom_lineFeeds {position : Position} {skip : Nat} {content : List UInt8}
    (hskip : byteOf '\r' ∉ content.take skip)
    (h : lengthFrom position skip (content ++ encode ">") = some content.length) :
    lengthFrom position skip (lineFeeds content ++ encode ">") =
      some (lineFeeds content).length := by
  -- A carriage return is not passed over, and what follows it is in the position behind it.
  have hreturn {rest : List UInt8} {position : Position} {skip : Nat}
      (hskip : byteOf '\r' ∉ (byteOf '\r' :: rest).take skip)
      (h : lengthFrom position skip (byteOf '\r' :: rest ++ encode ">") =
        some (byteOf '\r' :: rest).length) :
      skip = 0 ∧ lengthFrom position.afterSpace 0 (rest ++ encode ">") = some rest.length := by
    cases skip with
    | succ skip => exact absurd List.mem_cons_self hskip
    | zero =>
        rw [List.cons_append, (lengthFrom_space position _).1, List.length_cons,
          map_succ_eq_some_iff] at h
        exact ⟨rfl, h⟩
  fun_induction lineFeeds content generalizing position skip with
  | case1 => exact h
  | case2 rest hpair ih =>
      obtain ⟨rfl, hrest⟩ := hreturn hskip h
      obtain ⟨others, rfl⟩ := List.head?_eq_some_iff.mp hpair
      have hfound := ih (by simp) hrest
      rw [lineFeeds_cons_of_ne (by decide), List.cons_append,
        (lengthFrom_space _ _).2] at hfound ⊢
      rwa [position.afterSpace_afterSpace] at hfound
  | case3 rest hlone ih =>
      obtain ⟨rfl, hrest⟩ := hreturn hskip h
      rw [List.cons_append, (lengthFrom_space position _).2, ih (by simp) hrest]
      rfl
  | case4 byte rest hbyte ih =>
      rw [List.cons_append, List.length_cons] at h ⊢
      cases skip with
      | succ skip =>
          rw [lengthFrom, map_succ_eq_some_iff] at h ⊢
          exact ih (fun hmem => hskip (List.mem_cons_of_mem _ hmem)) h
      | zero =>
          have hopening : opening (lineFeeds rest ++ encode ">") = opening (rest ++ encode ">") := by
            rw [← opening_lineFeeds (rest ++ encode ">"), lineFeeds_append (by decide)]
            rfl
          rw [lengthFrom] at h ⊢
          rw [position.next_congr byte hopening]
          cases hnext : position.next byte (rest ++ encode ">") with
          | none =>
              rw [hnext] at h
              simp at h
          | some following =>
              rw [hnext] at h
              dsimp only at h ⊢
              rw [map_succ_eq_some_iff] at h ⊢
              refine ih (fun hmem => ?_) h
              refine Position.notMem_of_next hnext ?_
              rw [List.take_append]
              exact List.mem_append_left _ hmem

end Doctype

/-! The pieces of a document with these ends of lines. -/

namespace Lexeme

/-- A piece with the ends of its lines replaced. -/
def lineFeeds : Lexeme → Lexeme
  | .text raw => .text (Markup.lineFeeds raw)
  | .reference raw => .reference (Markup.lineFeeds raw)
  | .startTag content => .startTag (Markup.lineFeeds content)
  | .endTag content => .endTag (Markup.lineFeeds content)
  | .characterData raw => .characterData (Markup.lineFeeds raw)
  | .aside => .aside

theorem isText_lineFeeds (lexeme : Lexeme) : lexeme.lineFeeds.isText = lexeme.isText := by
  cases lexeme <;> rfl

variable {lexeme : Lexeme} {written : List UInt8}

theorem lineFeeds_framed {opening closing : List UInt8} (hopening : byteOf '\r' ∉ opening)
    (hclosing : byteOf '\r' ∉ closing) (hhead : closing.head? ≠ some (byteOf '\n'))
    (content : List UInt8) :
    Markup.lineFeeds (opening ++ content ++ closing) =
      opening ++ Markup.lineFeeds content ++ closing := by
  rw [lineFeeds_append hhead, lineFeeds_append_of_notMem hopening, lineFeeds_of_notMem hclosing]

theorem exists_keyword {content : List UInt8}
    (h : isCapitalized "DOCTYPE" (content.take 7) = true) :
    ∃ keyword rest, content = keyword ++ rest ∧ keyword.length = 7 ∧ byteOf '\r' ∉ keyword := by
  have hprefix := List.isPrefixOf_iff_prefix.mp h
  have hlength : (content.take 7).length = 7 := by
    have hle := hprefix.length_le
    rw [List.length_map] at hle
    exact Nat.le_antisymm (List.length_take_le 7 content) hle
  refine ⟨_, _, (List.take_append_drop 7 content).symm, hlength, fun hmem => ?_⟩
  have hwhole := hprefix.eq_of_length (by rw [List.length_map, hlength]; rfl)
  have hreturn : byteOf '\r' ∈ encode "DOCTYPE" := by
    rw [hwhole]
    exact List.mem_map.mpr ⟨_, hmem, by decide⟩
  exact absurd hreturn (by decide)

/-- The ends of lines make no difference to the form of a piece. -/
theorem Writes.lineFeeds (h : lexeme.Writes written) :
    lexeme.lineFeeds.Writes (Markup.lineFeeds written) := by
  cases h with
  | text raw hne hraw =>
      refine .text _ (lineFeeds_ne_nil hne) ?_
      rw [all_lineFeeds (by decide), hraw]
  | reference raw hraw =>
      rw [lineFeeds_framed (by decide) (by decide) (by decide)]
      refine .reference _ ?_
      rw [all_lineFeeds (by decide), hraw]
  | startTag content hcontent hfirst =>
      rw [lineFeeds_framed (by decide) (by decide) (by decide)]
      refine .startTag _ (Tag.content_lineFeeds hcontent) fun byte hbyte => ?_
      rcases mem_head?_lineFeeds hbyte with rfl | hmem
      · decide
      · exact hfirst byte hmem
  | endTag content hcontent =>
      rw [lineFeeds_framed (by decide) (by decide) (by decide)]
      exact .endTag _ (Tag.content_lineFeeds hcontent)
  | characterData raw hraw =>
      rw [lineFeeds_framed (by decide) (by decide) (by decide)]
      exact .characterData _ (before?_lineFeeds (by decide) (by decide) (by decide) hraw)
  | comment content hcontent =>
      rw [lineFeeds_framed (by decide) (by decide) (by decide)]
      exact .comment _ (before?_lineFeeds (by decide) (by decide) (by decide) hcontent)
  | instruction content hcontent =>
      rw [lineFeeds_framed (by decide) (by decide) (by decide)]
      have hends := before?_lineFeeds (by decide) (by decide) (by decide) hcontent
      rw [lineFeeds_append_of_notMem (by decide)] at hends
      exact .instruction _ hends
  | doctype content hcontent hkeyword hname =>
      rw [lineFeeds_framed (by decide) (by decide) (by decide)]
      obtain ⟨keyword, rest, rfl, hlength, hreturn⟩ := exists_keyword hkeyword
      have hends := Doctype.lengthFrom_lineFeeds (by simp) hcontent
      rw [← hlength, List.take_left] at hkeyword
      rw [← hlength, List.drop_left] at hname
      rw [lineFeeds_append_of_notMem hreturn] at hends ⊢
      refine .doctype _ hends ?_ ?_
      · rw [← hlength, List.take_left]
        exact hkeyword
      · rw [← hlength, List.drop_left, all_lineFeeds (by decide)]
        exact hname

theorem lineFeeds_closed {front closing : List UInt8} (hne : closing ≠ [])
    (hclosing : byteOf '\r' ∉ closing) (hhead : closing.head? ≠ some (byteOf '\n'))
    (rest : List UInt8) :
    Markup.lineFeeds (front ++ closing ++ rest) =
      Markup.lineFeeds (front ++ closing) ++ Markup.lineFeeds rest := by
  have hwhole : (closing ++ rest).head? ≠ some (byteOf '\n') := by
    obtain ⟨byte, others, rfl⟩ := List.exists_cons_of_ne_nil hne
    exact hhead
  rw [List.append_assoc, lineFeeds_append hwhole, lineFeeds_append_of_notMem hclosing,
    lineFeeds_append hhead, lineFeeds_of_notMem hclosing, List.append_assoc]

/-- No end of a line reaches from one piece into the next. -/
theorem Writes.lineFeeds_append (h : lexeme.Writes written) {rest : List UInt8}
    (hends : lexeme.EndsBefore rest) :
    Markup.lineFeeds (written ++ rest) = Markup.lineFeeds written ++ Markup.lineFeeds rest := by
  cases h with
  | text raw hne hraw =>
      refine Markup.lineFeeds_append (fun hfeed => ?_) _
      exact absurd (hends rfl _ hfeed) (by decide)
  | _ => exact lineFeeds_closed (by decide) (by decide) (by decide) rest

theorem EndsBefore.lineFeeds {rest : List UInt8} (h : lexeme.EndsBefore rest) :
    lexeme.lineFeeds.EndsBefore (Markup.lineFeeds rest) := by
  intro htext byte hbyte
  rw [isText_lineFeeds] at htext
  rw [head?_lineFeeds (fun hreturn => absurd (h htext _ hreturn) (by decide))] at hbyte
  exact h htext byte hbyte

end Lexeme

def Piece.lineFeeds (piece : Piece) : Piece :=
  ⟨piece.lexeme.lineFeeds, Markup.lineFeeds piece.written⟩

theorem Tiles.lineFeeds {pieces : List Piece} (h : Tiles bytes pieces) :
    Tiles (Markup.lineFeeds bytes) (pieces.map Piece.lineFeeds) := by
  induction pieces generalizing bytes with
  | nil =>
      rw [h.bytes_eq]
      exact ⟨rfl, List.forall_mem_nil _, .nil⟩
  | cons piece pieces ih =>
      obtain ⟨rest, rfl, hwrites, hends, hrest⟩ := h.uncons
      rw [hwrites.lineFeeds_append hends, List.map_cons]
      exact Tiles.cons piece.lineFeeds hwrites.lineFeeds (ih hrest) hends.lineFeeds

theorem afterMark_lineFeeds (bytes : List UInt8) :
    afterMark (lineFeeds bytes) = lineFeeds (afterMark bytes) := by
  rw [afterMark, afterMark, markLength, markLength,
    isPrefixOf_lineFeeds (by decide) (by decide) bytes]
  split
  · rename_i hmark
    obtain ⟨rest, rfl⟩ := List.isPrefixOf_iff_prefix.mp hmark
    rw [lineFeeds_append_of_notMem (by decide), List.drop_left, List.drop_left]
  · rfl

end Metainfo.Markup
