import Metainfo.Proofs.Json.Numbers

/-!
The reader reads a text exactly if the text denotes a value by the grammar for which it has room,
and then it reads this value.
-/

namespace Metainfo.Json

open Metainfo.Decimal
open Metainfo.Digits

/-- The numbers that the reader has room for. -/
def IsInRange (decimal : Decimal) : Prop :=
  isInRange decimal = true

/-! What is read is written in front of what is left. -/

def IsSound {α : Type} (read : Reader α) (Writes : α → List Char → Prop) : Prop :=
  ∀ ⦃text rest : List Char⦄ ⦃value : α⦄, read text = some (value, rest) →
    ∃ written, text = written ++ rest ∧ Writes value written

theorem exists_skipSpace (text : List Char) :
    ∃ space, IsBlank space ∧ text = space ++ skipSpace text :=
  ⟨text.takeWhile isSpace, fun _ => List.mem_takeWhile_imp,
    (List.takeWhile_append_dropWhile).symm⟩

/-- A text after the first half of a character, which it goes on with, or after no half. -/
inductive Resumes : (high : Option Nat) → List Char → List Char → Prop where
  | whole {chars written : List Char} (h : WritesChars chars written) : Resumes none chars written
  | half {high low : Nat} {a b c d : Char} {chars written : List Char}
      (hlow : number? 16 [a, b, c, d] = some low) (hhalf : isLowHalf low = true)
      (h : WritesChars chars written) :
      Resumes (some high) (joinHalves high low :: chars)
        ('\\' :: 'u' :: a :: b :: c :: d :: written)

theorem Resumes.writes {chars written : List Char} (h : Resumes none chars written) :
    WritesChars chars written := by
  cases h
  assumption

/-- A character in front of the rest of a text. -/
theorem exists_cons_of_readText {char : Char} {others chars rest : List Char}
    (hothers : ∀ {chars rest : List Char}, readText none others = some (chars, rest) →
      ∃ written, others = written ++ '"' :: rest ∧ Resumes none chars written)
    (h : (readText none others).bind (fun (text, rest) => some (char :: text, rest)) =
      some (chars, rest)) :
    ∃ chars' written, chars = char :: chars' ∧ others = written ++ '"' :: rest ∧
      WritesChars chars' written := by
  obtain ⟨⟨chars', rest'⟩, hread, hdone⟩ := Option.bind_eq_some_iff.mp h
  obtain ⟨rfl, rfl⟩ := Prod.mk.inj (Option.some.inj hdone)
  obtain ⟨written, hwritten, hresumes⟩ := hothers hread
  exact ⟨chars', written, rfl, hwritten, hresumes.writes⟩

theorem resumes_of_readText {high : Option Nat} {text chars rest : List Char}
    (h : readText high text = some (chars, rest)) :
    ∃ written, text = written ++ '"' :: rest ∧ Resumes high chars written := by
  fun_induction readText high text generalizing chars rest with
  | case1 high a b c d others ih ihHalf =>
      obtain ⟨unit, hunit, h⟩ := Option.bind_eq_some_iff.mp h
      cases high with
      | some half =>
          dsimp only at h
          split at h
          · rename_i hlow
            obtain ⟨chars', written, rfl, rfl, hwritten⟩ := exists_cons_of_readText ih h
            exact ⟨_, rfl, .half hunit hlow hwritten⟩
          · contradiction
      | none =>
          dsimp only at h
          split at h
          · rename_i hhigh
            obtain ⟨written, rfl, hwritten⟩ := ihHalf unit h
            cases hwritten with
            | half hlow hhalf hwritten =>
                exact ⟨_, rfl, .whole (.cons (.halves hunit hlow hhigh hhalf) hwritten)⟩
          · obtain ⟨char, hchar, h⟩ := Option.bind_eq_some_iff.mp h
            obtain ⟨chars', written, rfl, rfl, hwritten⟩ := exists_cons_of_readText ih h
            exact ⟨_, rfl, .whole (.cons (.number hunit hchar) hwritten)⟩
  | case2 high letter others hletter ih =>
      obtain ⟨⟨⟩, hguard, hescape⟩ := Option.bind_eq_some_iff.mp h
      obtain ⟨char, hchar, hcons⟩ := Option.bind_eq_some_iff.mp hescape
      obtain ⟨chars', written, rfl, rfl, hwritten⟩ := exists_cons_of_readText ih hcons
      obtain rfl := Option.isNone_iff_eq_none.mp ((Option.guard_eq_some' ()).mp hguard)
      exact ⟨_, rfl, .whole (.cons (.escape hchar) hwritten)⟩
  | case3 high others hwhole =>
      obtain ⟨rfl, rfl⟩ := Prod.mk.inj (Option.some.inj h)
      obtain rfl := Option.isNone_iff_eq_none.mp hwhole
      exact ⟨[], rfl, .whole .nil⟩
  | case4 | case6 => contradiction
  | case5 high char others hnumber hletter hquote ih =>
      obtain ⟨⟨⟩, hguard, hcons⟩ := Option.bind_eq_some_iff.mp h
      obtain ⟨chars', written, rfl, rfl, hwritten⟩ := exists_cons_of_readText ih hcons
      have hclear := (Option.guard_eq_some' ()).mp hguard
      rw [Bool.and_eq_true, decide_eq_true_eq] at hclear
      obtain rfl := Option.isNone_iff_eq_none.mp hclear.1
      have hbackslash : char ≠ '\\' := by
        rintro rfl
        cases written with
        | nil => exact hletter _ _ rfl rfl
        | cons letter written => exact hletter _ _ rfl rfl
      exact ⟨_, rfl, .whole (.cons (.plain hclear.2 hquote hbackslash) hwritten)⟩

theorem writes_of_readText {text chars rest : List Char}
    (h : readText none text = some (chars, rest)) :
    ∃ written, text = written ++ '"' :: rest ∧ WritesChars chars written := by
  obtain ⟨written, htext, hwritten⟩ := resumes_of_readText h
  exact ⟨written, htext, hwritten.writes⟩

section

variable {α : Type} {read : Reader α} {Writes : α → List Char → Prop} {close : Char}

theorem writes_of_readSeries (hread : IsSound read Writes) {limit : Nat} {text rest : List Char}
    {elements : List α} (h : readSeries read close limit text = some (elements, rest)) :
    ∃ written, text = written ++ close :: rest ∧ elements ≠ [] ∧
      ∀ space, IsBlank space → WritesSeries Writes elements (space ++ written) := by
  induction limit generalizing text elements with
  | zero => contradiction
  | succ limit ih =>
      obtain ⟨⟨first, behind⟩, hfirst, hstep⟩ := Option.bind_eq_some_iff.mp h
      obtain ⟨written, rfl, hwritten⟩ := hread hfirst
      obtain ⟨after, hafter, hbehind⟩ := exists_skipSpace behind
      dsimp only at hstep
      split at hstep
      · contradiction
      · rename_i mark others hmark
        rw [hmark] at hbehind
        split at hstep
        · rename_i hclose
          obtain ⟨rfl, rfl⟩ := Prod.mk.inj (Option.some.inj hstep)
          refine ⟨written ++ after, ?_, List.cons_ne_nil _ _, fun space hspace => ?_⟩
          · rw [hbehind, hclose, List.append_assoc]
          · rw [← List.append_assoc]
            exact .last hspace hwritten hafter
        · split at hstep
          · rename_i hcomma
            obtain ⟨⟨elements', rest'⟩, hothers, hdone⟩ := Option.bind_eq_some_iff.mp hstep
            obtain ⟨rfl, rfl⟩ := Prod.mk.inj (Option.some.inj hdone)
            obtain ⟨written', hparts, hsome, hseries⟩ := ih hothers
            obtain ⟨before, hbefore, hskipped⟩ := exists_skipSpace others
            refine ⟨written ++ after ++ ',' :: (before ++ written'), ?_, List.cons_ne_nil _ _,
              fun space hspace => ?_⟩
            · rw [hbehind, hcomma, hskipped, hparts]
              simp
            · have hmore := WritesSeries.more hspace hwritten hafter hsome (hseries before hbefore)
              simpa only [List.append_assoc] using hmore
          · contradiction

theorem writes_of_readBracketed (hread : IsSound read Writes) {text rest : List Char}
    {elements : List α} (h : readBracketed read close text = some (elements, rest)) :
    ∃ written, text = written ++ close :: rest ∧ WritesSeries Writes elements written := by
  obtain ⟨space, hspace, htext⟩ := exists_skipSpace text
  rw [readBracketed] at h
  split at h
  · contradiction
  · rename_i first others hskipped
    rw [hskipped] at htext
    split at h
    · rename_i hclose
      obtain ⟨rfl, rfl⟩ := Prod.mk.inj (Option.some.inj h)
      exact ⟨space, hclose ▸ htext, .blank hspace⟩
    · obtain ⟨written, hparts, -, hseries⟩ := writes_of_readSeries hread h
      refine ⟨space ++ written, ?_, hseries space hspace⟩
      rw [htext, hparts, List.append_assoc]

end

theorem IsSound.readMember {read : Reader Datum} {Writes : Datum → List Char → Prop}
    (hread : IsSound read Writes) : IsSound (readMember read) (WritesMember Writes) := by
  intro text rest member h
  rw [Json.readMember.eq_def] at h
  split at h
  · obtain ⟨⟨name, behind⟩, hname, hstep⟩ := Option.bind_eq_some_iff.mp h
    obtain ⟨name', rfl, hwritten⟩ := writes_of_readText hname
    obtain ⟨before, hbefore, hbehind⟩ := exists_skipSpace behind
    dsimp only at hstep
    split at hstep
    · rename_i others hcolon
      rw [hcolon] at hbehind
      obtain ⟨after, hafter, hothers⟩ := exists_skipSpace others
      obtain ⟨⟨value, rest'⟩, hvalue, hdone⟩ := Option.bind_eq_some_iff.mp hstep
      obtain ⟨rfl, rfl⟩ := Prod.mk.inj (Option.some.inj hdone)
      obtain ⟨written, hparts, hvalue'⟩ := hread hvalue
      refine ⟨_, ?_, .intro hwritten hbefore hafter hvalue'⟩
      rw [hbehind, hothers, hparts]
      simp
    · contradiction
  · contradiction

theorem writes_of_readWord {word : String} {datum value : Datum} {text rest : List Char}
    (h : readWord word datum text = some (value, rest)) :
    value = datum ∧ text = word.toList ++ rest := by
  rw [readWord] at h
  split at h
  · rename_i hprefix
    obtain ⟨rfl, rfl⟩ := Prod.mk.inj (Option.some.inj h)
    obtain ⟨others, rfl⟩ := List.isPrefixOf_iff_prefix.mp hprefix
    exact ⟨rfl, by rw [← String.length_toList, List.drop_left]⟩
  · contradiction

theorem isSound_readScalar (depth : Nat) :
    IsSound readScalar fun datum written =>
      Writes datum written ∧ Fits IsInRange depth datum := by
  intro text rest datum h
  rw [readScalar.eq_def] at h
  split at h
  · obtain ⟨⟨chars, behind⟩, hread, hdone⟩ := Option.map_eq_some_iff.mp h
    obtain ⟨written, rfl, hwritten⟩ := writes_of_readText hread
    obtain ⟨rfl, rfl⟩ := Prod.mk.inj hdone
    exact ⟨'"' :: written ++ ['"'], by simp, .scalar (.text hwritten), .text _⟩
  · obtain ⟨rfl, htext⟩ := writes_of_readWord h
    exact ⟨_, htext, .scalar .null, .null⟩
  · obtain ⟨rfl, htext⟩ := writes_of_readWord h
    exact ⟨_, htext, .scalar .isTrue, .bool true⟩
  · obtain ⟨rfl, htext⟩ := writes_of_readWord h
    exact ⟨_, htext, .scalar .isFalse, .bool false⟩
  · obtain ⟨decimal, literal, rfl, rfl, hliteral, hrange⟩ := writes_of_readNumber h
    refine ⟨literal, rfl, .scalar (.number hliteral), .number ?_ hrange⟩
    rwa [String.toList_ofList]

theorem WritesSeries.exists_writes {α : Type} {Writes : α → List Char → Prop} {elements : List α}
    {written : List Char} (h : WritesSeries Writes elements written) :
    ∀ element ∈ elements, ∃ written, Writes element written := by
  induction h with
  | blank _ => nofun
  | last _ helement _ => exact List.forall_mem_singleton.mpr ⟨_, helement⟩
  | more _ helement _ _ _ ih => exact List.forall_mem_cons.mpr ⟨⟨_, helement⟩, ih⟩

theorem isSound_readValue (depth : Nat) :
    IsSound (readValue depth) fun datum written =>
      Writes datum written ∧ Fits IsInRange depth datum := by
  induction depth with
  | zero => exact isSound_readScalar 0
  | succ depth ih =>
      intro text rest datum h
      rw [readValue.eq_def] at h
      dsimp only at h
      split at h
      · obtain ⟨⟨items, behind⟩, hread, hdone⟩ := Option.map_eq_some_iff.mp h
        obtain ⟨written, rfl, hseries⟩ := writes_of_readBracketed ih hread
        obtain ⟨rfl, rfl⟩ := Prod.mk.inj hdone
        refine ⟨'[' :: written ++ [']'], by simp,
          .list (hseries.mono fun _ _ _ hitem => hitem.1), .list fun item hitem => ?_⟩
        obtain ⟨_, -, hfits⟩ := hseries.exists_writes item hitem
        exact hfits
      · obtain ⟨⟨members, behind⟩, hread, hdone⟩ := Option.map_eq_some_iff.mp h
        obtain ⟨written, rfl, hseries⟩ := writes_of_readBracketed ih.readMember hread
        obtain ⟨rfl, rfl⟩ := Prod.mk.inj hdone
        refine ⟨'{' :: written ++ ['}'], by simp,
          .table (hseries.mono fun _ _ _ hmember => hmember.mono fun _ => And.left),
          .table fun member hmember => ?_⟩
        obtain ⟨_, -, -, -, -, hfits⟩ := hseries.exists_writes member hmember
        exact hfits
      · exact isSound_readScalar (depth + 1) h

/-! What is written is read, whatever follows it but a number that goes on. -/

def Takes {α : Type} (read : Reader α) (value : α) (written : List Char) : Prop :=
  ∀ ⦃rest : List Char⦄, Ends rest → read (written ++ rest) = some (value, rest)

theorem skipSpace_append {space rest : List Char} (hspace : IsBlank space)
    (hrest : ∀ char ∈ rest.head?, isSpace char = false) : skipSpace (space ++ rest) = rest := by
  have hspan := span_front hspace hrest
  rw [List.span_eq_takeWhile_dropWhile] at hspan
  exact (Prod.mk.inj hspan).2

theorem exists_skipSpace_append {space written : List Char} (hspace : IsBlank space)
    (h : Opens written) (rest : List Char) :
    ∃ first others, skipSpace (space ++ (written ++ rest)) = first :: others ∧ first ∉ marks := by
  rw [skipSpace_append hspace (h.head?_append rest)]
  obtain ⟨first, others, rfl, -, hfirst⟩ := h
  exact ⟨first, others ++ rest, rfl, hfirst⟩

theorem length_skipSpace_le (text : List Char) : (skipSpace text).length ≤ text.length :=
  (List.dropWhile_suffix isSpace).length_le

section

variable {α : Type} {read : Reader α} {close : Char}

theorem readSeries_append (hclose : close = ']' ∨ close = '}') {elements : List α}
    {written : List Char}
    (h : WritesSeries (fun element written => Opens written ∧ Takes read element written)
      elements written)
    (hsome : elements ≠ []) (rest : List Char) {limit : Nat}
    (hlimit : (skipSpace (written ++ close :: rest)).length ≤ limit) :
    readSeries read close limit (skipSpace (written ++ close :: rest)) = some (elements, rest) := by
  obtain ⟨hmark, hcomma⟩ := mem_marks_of_close hclose
  have hcommaMark : ',' ∈ marks := by decide
  induction h generalizing limit with
  | blank _ => exact absurd rfl hsome
  | @last element before written after hbefore helement hafter =>
      obtain ⟨hopens, htakes⟩ := helement
      rw [List.append_assoc, List.append_assoc,
        skipSpace_append hbefore (hopens.head?_append _)] at hlimit ⊢
      obtain ⟨limit, rfl⟩ : ∃ limit', limit = limit' + 1 := by
        refine Nat.exists_eq_succ_of_ne_zero fun hzero => ?_
        simp [hzero] at hlimit
      rw [readSeries, htakes (ends_append hafter (ends_mark hmark rest)), Option.bind_eq_bind,
        Option.bind_some]
      simp only [skipSpace_append hafter (head?_mark hmark rest), if_true]
      rfl
  | @more element elements before written after others hbefore helement hafter hmore _ ih =>
      obtain ⟨hopens, htakes⟩ := helement
      have hsplit : before ++ written ++ after ++ ',' :: others ++ close :: rest =
          before ++ (written ++ (after ++ ',' :: (others ++ close :: rest))) := by simp
      rw [hsplit, skipSpace_append hbefore (hopens.head?_append _)] at hlimit ⊢
      have hskipped := length_skipSpace_le (others ++ close :: rest)
      simp only [List.length_append, List.length_cons] at hlimit hskipped
      obtain ⟨limit, rfl⟩ : ∃ limit', limit = limit' + 1 :=
        Nat.exists_eq_succ_of_ne_zero (by omega)
      rw [readSeries, htakes (ends_append hafter (ends_mark hcommaMark _)), Option.bind_eq_bind,
        Option.bind_some]
      simp only [skipSpace_append hafter (head?_mark hcommaMark _), hcomma.symm, if_false, if_true]
      rw [ih hmore (by omega)]
      rfl

theorem readBracketed_append (hclose : close = ']' ∨ close = '}') {elements : List α}
    {written : List Char}
    (h : WritesSeries (fun element written => Opens written ∧ Takes read element written)
      elements written) (rest : List Char) :
    readBracketed read close (written ++ close :: rest) = some (elements, rest) := by
  obtain ⟨hmark, -⟩ := mem_marks_of_close hclose
  have hseries (hsome : elements ≠ [])
      (hfront : ∃ first others,
        skipSpace (written ++ close :: rest) = first :: others ∧ first ∉ marks) :
      readBracketed read close (written ++ close :: rest) = some (elements, rest) := by
    obtain ⟨first, others, hskipped, hfirst⟩ := hfront
    have hread := readSeries_append hclose h hsome rest (Nat.le_refl _)
    rw [hskipped] at hread
    have hne : first ≠ close := fun heq => hfirst (heq ▸ hmark)
    simp only [readBracketed, hskipped, hne, if_false]
    exact hread
  cases h with
  | blank hspace =>
      simp only [readBracketed, skipSpace_append hspace (head?_mark hmark rest), if_true]
  | last hbefore helement hafter =>
      refine hseries (List.cons_ne_nil _ _) ?_
      rw [List.append_assoc, List.append_assoc]
      exact exists_skipSpace_append hbefore helement.1 _
  | more hbefore helement hafter hsome hothers =>
      refine hseries (List.cons_ne_nil _ _) ?_
      rw [List.append_assoc, List.append_assoc, List.append_assoc]
      exact exists_skipSpace_append hbefore helement.1 _

theorem WritesMember.takes {read : Reader Datum} {member : String × Datum} {written : List Char}
    (h : WritesMember (fun datum written => Opens written ∧ Takes read datum written)
      member written) :
    Takes (readMember read) member written := by
  intro rest hrest
  obtain ⟨hname, hbefore, hafter, hopens, htakes⟩ := h
  rename_i name name' before after written value
  have hsplit : '"' :: name' ++ '"' :: before ++ ':' :: after ++ written ++ rest =
      '"' :: (name' ++ '"' :: (before ++ ':' :: (after ++ (written ++ rest)))) := by simp
  have hcolon : ∀ char ∈ (':' :: (after ++ (written ++ rest))).head?, isSpace char = false := by
    rintro _ ⟨⟩
    decide
  rw [hsplit, readMember, hname.readText_quote, Option.bind_eq_bind, Option.bind_some]
  simp only [skipSpace_append hbefore hcolon, skipSpace_append hafter (hopens.head?_append rest),
    htakes hrest]
  rfl

theorem readWord_append (word : String) (datum : Datum) (rest : List Char) :
    readWord word datum (word.toList ++ rest) = some (datum, rest) := by
  rw [readWord, if_pos (List.isPrefixOf_iff_prefix.mpr (List.prefix_append _ _)),
    ← String.length_toList, List.drop_left]

theorem WritesScalar.takes {depth : Nat} {datum : Datum} {written : List Char}
    (h : WritesScalar datum written) (hfits : Fits IsInRange depth datum) :
    Takes readScalar datum written := by
  intro rest hrest
  cases h with
  | null => exact readWord_append "null" .null rest
  | isTrue => exact readWord_append "true" (.bool true) rest
  | isFalse => exact readWord_append "false" (.bool false) rest
  | number h =>
      cases hfits with
      | number hliteral hrange =>
          rw [String.toList_ofList] at hliteral
          have hapart {first : Char} (hminus : first ≠ '-') (hdigit : isDecimalDigit first = false)
              (others : List Char) : _ = first :: others → False :=
            hliteral.append_ne hminus hdigit rest others
          rw [readScalar.eq_5 _ (hapart (by decide) (by decide)) (hapart (by decide) (by decide))
            (hapart (by decide) (by decide)) (hapart (by decide) (by decide))]
          exact readNumber_append hliteral hrange hrest
  | text h =>
      have hread := h.readText_quote rest
      simp only [List.cons_append, List.append_assoc, List.nil_append, readScalar, hread,
        Option.map_some]

end

theorem readValue_eq_readScalar {depth : Nat} {text : List Char}
    (h : ∀ bracket rest, bracket = '[' ∨ bracket = '{' → text ≠ bracket :: rest) :
    readValue depth text = readScalar text := by
  cases depth with
  | zero => rfl
  | succ depth =>
      exact readValue.eq_4 _ _ (fun rest => h '[' rest (.inl rfl))
        (fun rest => h '{' rest (.inr rfl))

theorem Writes.takes {datum : Datum} {written : List Char} (h : Writes datum written) :
    ∀ depth, Fits IsInRange depth datum → Takes (readValue depth) datum written := by
  refine Writes.induct ?scalar ?list ?table h
  case scalar =>
      intro datum written h depth hfits rest hrest
      rw [readValue_eq_readScalar fun bracket others hbracket => h.append_ne hbracket rest others]
      exact h.takes hfits hrest
  case list =>
      intro items written h depth hfits rest hrest
      cases hfits with
      | @list depth _ hitems =>
          have hseries := h.mono fun item hitem written hwrites =>
            And.intro hwrites.1.opens (hwrites.2 depth (hitems item hitem))
          rw [List.cons_append, List.cons_append, List.append_assoc, List.singleton_append,
            readValue, readBracketed_append (.inl rfl) hseries, Option.map_some]
  case table =>
      intro members written h depth hfits rest hrest
      cases hfits with
      | @table depth _ hmembers =>
          have hseries := h.mono fun member hmember written hwrites =>
            And.intro hwrites.opens (WritesMember.takes (hwrites.mono fun _ hvalue =>
              And.intro hvalue.1.opens (hvalue.2 depth (hmembers member hmember))))
          rw [List.cons_append, List.cons_append, List.append_assoc, List.singleton_append,
            readValue, readBracketed_append (.inr rfl) hseries, Option.map_some]

/-- The reader reads what the grammar says as far as it has room for it, and nothing else. -/
theorem parse_eq_some_iff {text : String} {datum : Datum} :
    parse text = some datum ↔ Denotes text.toList datum ∧ Fits IsInRange maxDepth datum := by
  constructor
  · intro h
    obtain ⟨⟨value, behind⟩, hread, hstep⟩ := Option.bind_eq_some_iff.mp h
    obtain ⟨before, hbefore, htext⟩ := exists_skipSpace text.toList
    obtain ⟨after, hafter, hbehind⟩ := exists_skipSpace behind
    obtain ⟨written, hparts, hwrites, hfits⟩ := isSound_readValue maxDepth hread
    dsimp only at hstep
    split at hstep
    · rename_i hnone
      obtain rfl := Option.some.inj hstep
      rw [List.isEmpty_iff.mp hnone, List.append_nil] at hbehind
      refine ⟨⟨before, written, after, hbefore, hwrites, hafter, ?_⟩, hfits⟩
      rw [htext, hparts, hbehind, List.append_assoc]
    · contradiction
  · rintro ⟨⟨before, written, after, hbefore, hwrites, hafter, htext⟩, hfits⟩
    have hnothing : skipSpace after = [] := by
      have hskipped : skipSpace (after ++ []) = [] := skipSpace_append hafter nofun
      rwa [List.append_nil] at hskipped
    rw [parse, htext, List.append_assoc,
      skipSpace_append hbefore (hwrites.opens.head?_append after),
      hwrites.takes maxDepth hfits (ends_of_isBlank hafter), Option.bind_eq_bind, Option.bind_some]
    simp only [hnothing, List.isEmpty_nil, if_true]

end Metainfo.Json
