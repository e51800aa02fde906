import Metainfo.Proofs.Markup.LineEnds
import Metainfo.Proofs.Text.Order

/-!
What is delivered of a document does not depend on how its lines end, but for the values of
attributes: text is given line feeds in any case, and in tags the ends of lines are white space.
-/

namespace Metainfo.Markup

open Metainfo.Utf8
open Metainfo.Blank
open Metainfo.Digits

variable {bytes rest : List UInt8} {chars : List Char}

/-! Text with line feeds. -/

namespace Progress

theorem notMem_normalizeLineEnds (chars : List Char) : '\r' ∉ normalizeLineEnds chars := by
  fun_induction normalizeLineEnds chars with
  | case1 rest ih => exact List.not_mem_cons_of_ne_of_not_mem (by decide) ih
  | case2 rest hrest ih => exact List.not_mem_cons_of_ne_of_not_mem (by decide) ih
  | case3 char rest hpair hlone ih =>
      exact List.not_mem_cons_of_ne_of_not_mem (fun hchar => hlone hchar.symm) ih
  | case4 => exact List.not_mem_nil

theorem normalizeLineEnds_of_notMem (h : '\r' ∉ chars) : normalizeLineEnds chars = chars := by
  fun_induction normalizeLineEnds chars with
  | case1 rest ih => exact absurd List.mem_cons_self h
  | case2 rest hrest ih => exact absurd List.mem_cons_self h
  | case3 char rest hpair hlone ih => rw [ih (List.not_mem_of_not_mem_cons h)]
  | case4 => rfl

end Progress

open Progress

theorem head?_of_flatMap_utf8EncodeChar
    (h : (chars.flatMap String.utf8EncodeChar).head? = some (byteOf '\n')) :
    chars.head? = some '\n' := by
  cases chars with
  | nil => contradiction
  | cons char chars =>
      rw [List.flatMap_cons, List.head?_append_of_ne_nil _ (utf8EncodeChar_ne_nil char)] at h
      rw [(mem_utf8EncodeChar (by decide)).mp (List.mem_of_mem_head? h)]
      rfl

/-- Line feeds in the bytes of a text are line feeds in the text. -/
theorem lineFeeds_flatMap (chars : List Char) :
    lineFeeds (chars.flatMap String.utf8EncodeChar) =
      (normalizeLineEnds chars).flatMap String.utf8EncodeChar := by
  fun_induction normalizeLineEnds chars with
  | case1 rest ih =>
      rw [List.flatMap_cons, List.flatMap_cons, List.flatMap_cons, ← ih]
      exact lineFeeds_pair _
  | case2 rest hrest ih =>
      rw [List.flatMap_cons, List.flatMap_cons, ← ih]
      refine lineFeeds_lone fun hfeed => ?_
      obtain ⟨others, rfl⟩ := List.head?_eq_some_iff.mp (head?_of_flatMap_utf8EncodeChar hfeed)
      exact hrest others rfl
  | case3 char rest hpair hlone ih =>
      have hreturn : byteOf '\r' ∉ String.utf8EncodeChar char := fun hmem =>
        hlone ((mem_utf8EncodeChar (by decide)).mp hmem)
      rw [List.flatMap_cons, List.flatMap_cons, lineFeeds_append_of_notMem hreturn, ih]
  | case4 => rfl

theorem strict_lineFeeds {text : String} (h : strict bytes = some text) :
    strict (lineFeeds bytes) = some (String.ofList (normalizeLineEnds text.toList)) := by
  rw [strict_eq_some_iff] at h ⊢
  rw [h, encode_eq_flatMap, encode_ofList, lineFeeds_flatMap]

/-! References, the names of which hold no ends of lines. -/

namespace Reference

theorem notMem_of_continue? {base number found : Nat} {digits : List Char}
    (h : continue? base number digits = some found) : '\r' ∉ digits ∧ '\n' ∉ digits := by
  induction digits generalizing number with
  | nil => simp
  | cons char rest ih =>
      rw [continue?] at h
      obtain ⟨digit, hdigit, hrest⟩ := Option.bind_eq_some_iff.mp h
      obtain ⟨hreturn, hfeed⟩ := ih hrest
      have hchar (other : Char) (hother : value? base other = none) : other ≠ char := by
        rintro rfl
        rw [hother] at hdigit
        contradiction
      exact ⟨List.not_mem_cons_of_ne_of_not_mem (hchar _ rfl) hreturn,
        List.not_mem_cons_of_ne_of_not_mem (hchar _ rfl) hfeed⟩

theorem notMem_of_number? {base found : Nat} {digits : List Char}
    (h : number? base digits = some found) : '\r' ∉ digits ∧ '\n' ∉ digits := by
  rw [number?] at h
  split at h
  · contradiction
  · exact notMem_of_continue? h

theorem notMem_of_resolve {name : List Char} {char : Char} (h : resolve name = .char char) :
    '\r' ∉ name ∧ '\n' ∉ name := by
  have hnumber {base : Nat} {digits : List Char}
      (hresolve : ((number? base digits).bind charOfNumber?).elim .invalidNumber .char =
        Resolution.char char) : '\r' ∉ digits ∧ '\n' ∉ digits := by
    cases hfound : number? base digits with
    | none =>
        rw [hfound] at hresolve
        contradiction
    | some found => exact notMem_of_number? hfound
  rw [resolve.eq_def] at h
  split at h
  · rename_i digits
    obtain ⟨hreturn, hfeed⟩ := hnumber h
    simp [hreturn, hfeed]
  · rename_i digits _
    obtain ⟨hreturn, hfeed⟩ := hnumber h
    simp [hreturn, hfeed]
  · rw [named?.eq_def] at h
    split at h <;> first | decide | contradiction

/-- A name that holds an end of a line is not replaced. -/
theorem notMem_of_expandFrom (name : List Char) {found : List Char}
    (h : expandFrom (some name) chars = some found) : '\r' ∉ name ∧ '\n' ∉ name := by
  induction chars generalizing name with
  | nil => contradiction
  | cons char chars ih =>
      rw [expandFrom] at h
      split at h
      · contradiction
      split at h
      · split at h
        · rename_i hresolve
          simpa using notMem_of_resolve hresolve
        · contradiction
      · obtain ⟨hreturn, hfeed⟩ := ih _ h
        exact ⟨List.not_mem_of_not_mem_cons hreturn, List.not_mem_of_not_mem_cons hfeed⟩

/-- References are replaced in a text whatever ends its lines. -/
theorem expandFrom_normalizeLineEnds {begun : Option (List Char)} {found : List Char}
    (h : expandFrom begun chars = some found) :
    ∃ other, expandFrom begun (normalizeLineEnds chars) = some other := by
  have hplain {char : Char} {rest : List Char} (hchar : char ≠ '&') (found : List Char) :
      expandFrom none (char :: rest) = some found ↔
        ∃ later, expandFrom none rest = some later ∧ char :: later = found := by
    rw [expandFrom, if_neg hchar, Option.map_eq_some_iff]
  fun_induction normalizeLineEnds chars generalizing begun found with
  | case1 rest ih =>
      cases begun with
      | none =>
          obtain ⟨later, hlater, -⟩ := (hplain (by decide) _).mp h
          obtain ⟨last, hlast, -⟩ := (hplain (by decide) _).mp hlater
          obtain ⟨other, hother⟩ := ih hlast
          exact ⟨_, (hplain (by decide) _).mpr ⟨other, hother, rfl⟩⟩
      | some name =>
          exact absurd List.mem_cons_self (notMem_of_expandFrom ('\n' :: '\r' :: name) h).2
  | case2 rest hrest ih =>
      cases begun with
      | none =>
          obtain ⟨later, hlater, -⟩ := (hplain (by decide) _).mp h
          obtain ⟨other, hother⟩ := ih hlater
          exact ⟨_, (hplain (by decide) _).mpr ⟨other, hother, rfl⟩⟩
      | some name =>
          exact absurd List.mem_cons_self (notMem_of_expandFrom ('\r' :: name) h).1
  | case3 char rest hpair hlone ih =>
      have hgoes {last : Char} (hmap : (expandFrom none rest).map (last :: ·) = some found) :
          ∃ other, (expandFrom none (normalizeLineEnds rest)).map (last :: ·) = some other := by
        obtain ⟨later, hlater, -⟩ := Option.map_eq_some_iff.mp hmap
        obtain ⟨other, hother⟩ := ih hlater
        exact ⟨last :: other, by rw [hother, Option.map_some]⟩
      cases begun with
      | none =>
          by_cases hopen : char = '&'
          · rw [expandFrom, if_pos hopen] at h ⊢
            exact ih h
          · rw [expandFrom, if_neg hopen] at h ⊢
            exact hgoes h
      | some name =>
          by_cases hopen : char = '&'
          · rw [expandFrom, if_pos hopen] at h
            contradiction
          by_cases hend : char = ';'
          · rw [expandFrom, if_neg hopen, if_pos hend] at h ⊢
            split at h
            · exact hgoes h
            · contradiction
          · rw [expandFrom, if_neg hopen, if_neg hend] at h ⊢
            exact ih h
  | case4 => exact ⟨_, h⟩

theorem expand?_normalizeLineEnds {text found : String} (h : expand? text = some found) :
    ∃ other, expand? (String.ofList (normalizeLineEnds text.toList)) = some other := by
  obtain ⟨expanded, hexpanded, -⟩ := Option.map_eq_some_iff.mp h
  obtain ⟨other, hother⟩ := expandFrom_normalizeLineEnds hexpanded
  refine ⟨String.ofList other, ?_⟩
  rw [expand?, String.toList_ofList, hother, Option.map_some]

end Reference

/-! Tags, in which the ends of lines are white space unless they stand in a value. -/

namespace Tag

theorem rawName_lineFeeds (content : List UInt8) :
    rawName (lineFeeds content) = rawName content ∧
      afterName (lineFeeds content) = lineFeeds (afterName content) := by
  induction content with
  | nil => exact ⟨rfl, rfl⟩
  | cons byte rest ih =>
      by_cases hreturn : byte = byteOf '\r'
      · obtain ⟨others, hothers⟩ := List.head?_eq_some_iff.mp (head?_lineFeeds_return rest)
        have hafter : afterName (byteOf '\r' :: rest) = byteOf '\r' :: rest := rfl
        rw [hreturn, hafter, hothers]
        exact ⟨rfl, rfl⟩
      · obtain ⟨hname, hafter⟩ := ih
        rw [lineFeeds_cons_of_ne hreturn]
        cases hspace : isSpace byte with
        | true => simp [rawName, afterName, hspace, lineFeeds_cons_of_ne hreturn]
        | false =>
            simp only [rawName, afterName] at hname hafter
            simp [rawName, afterName, hspace, hname, hafter]

theorem addAttribute_eq_ok_iff {attributes found : Attributes} {keys : List (List UInt8)}
    {key value : List UInt8} :
    addAttribute attributes keys key value = .ok found ↔
      keys.contains key = false ∧ ∃ name text, strict key = some name ∧
        (strict value).bind Reference.expand? = some text ∧ found = attributes.push name text := by
  rw [addAttribute]
  split
  · rename_i hold
    rw [hold]
    simp
  · rename_i hnew
    rw [Bool.eq_false_iff.mpr hnew]
    cases strict key with
    | none => simp
    | some name =>
        cases (strict value).bind Reference.expand? with
        | none => simp
        | some text => simp [eq_comm]

theorem addAttribute_lineFeeds {attributes found : Attributes} {keys : List (List UInt8)}
    {key value : List UInt8} (h : addAttribute attributes keys key value = .ok found)
    (others : Attributes) :
    ∃ other, addAttribute others keys key (lineFeeds value) = .ok other := by
  obtain ⟨hnew, name, text, hname, htext, -⟩ := addAttribute_eq_ok_iff.mp h
  obtain ⟨raw, hraw, hexpand⟩ := Option.bind_eq_some_iff.mp htext
  obtain ⟨other, hother⟩ := Reference.expand?_normalizeLineEnds hexpand
  refine ⟨_, addAttribute_eq_ok_iff.mpr ⟨hnew, name, other, hname, ?_, rfl⟩⟩
  rw [strict_lineFeeds hraw, Option.bind_some, hother]

/-- A value reaches to the next quote of its kind. -/
theorem attributesFrom_inValue_eq_ok_iff {attributes found : Attributes}
    {keys : List (List UInt8)} {key value : List UInt8} {quote : Quote} :
    attributesFrom attributes keys (.inValue key quote value) bytes = .ok found ↔
      ∃ inside close after added, bytes = inside ++ close :: after ∧
        (∀ byte ∈ inside, quote? byte ≠ some quote) ∧ quote? close = some quote ∧
          addAttribute attributes keys key.reverse (value.reverse ++ inside) = .ok added ∧
            attributesFrom added (key.reverse :: keys) .between after = .ok found := by
  induction bytes generalizing value with
  | nil => simp [attributesFrom]
  | cons byte rest ih =>
      by_cases hclose : quote? byte = some quote
      · rw [attributesFrom, if_pos hclose]
        constructor
        · intro h
          split at h
          · rename_i added hadded
            exact ⟨[], byte, rest, added, rfl, List.forall_mem_nil _, hclose,
              by rwa [List.append_nil], h⟩
          · contradiction
        · rintro ⟨inside, close, after, added, hbytes, hinside, -, hadded, hafter⟩
          cases inside with
          | nil =>
              obtain ⟨rfl, rfl⟩ := List.cons.inj hbytes
              rw [List.append_nil] at hadded
              rw [hadded]
              exact hafter
          | cons first inside =>
              obtain ⟨rfl, -⟩ := List.cons.inj hbytes
              exact absurd hclose (hinside _ List.mem_cons_self)
      · rw [attributesFrom, if_neg hclose, ih]
        constructor
        · rintro ⟨inside, close, after, added, rfl, hinside, hquote, hadded, hafter⟩
          refine ⟨byte :: inside, close, after, added, rfl,
            List.forall_mem_cons.mpr ⟨hclose, hinside⟩, hquote, ?_, hafter⟩
          rwa [List.reverse_cons, List.append_assoc, List.singleton_append] at hadded
        · rintro ⟨inside, close, after, added, hbytes, hinside, hquote, hadded, hafter⟩
          cases inside with
          | nil =>
              obtain ⟨rfl, rfl⟩ := List.cons.inj hbytes
              exact absurd hquote hclose
          | cons first inside =>
              obtain ⟨rfl, rfl⟩ := List.cons.inj hbytes
              refine ⟨inside, close, after, added, rfl, (List.forall_mem_cons.mp hinside).2, hquote,
                ?_, hafter⟩
              rwa [List.reverse_cons, List.append_assoc, List.singleton_append]

/-- The position after white space that is not part of a value. -/
def Position.afterSpace : Position → Position
  | .inKey key => .afterKey key
  | position => position

def Position.IsInValue : Position → Prop
  | .inValue _ _ _ => True
  | _ => False

theorem attributesFrom_space {position : Position} (h : ¬ position.IsInValue)
    (attributes : Attributes) (keys : List (List UInt8)) (rest : List UInt8) :
    attributesFrom attributes keys position (byteOf '\r' :: rest) =
        attributesFrom attributes keys position.afterSpace rest ∧
      attributesFrom attributes keys position (byteOf '\n' :: rest) =
        attributesFrom attributes keys position.afterSpace rest := by
  cases position with
  | inValue => exact absurd trivial h
  | _ => exact ⟨rfl, rfl⟩

theorem Position.afterSpace_afterSpace (position : Position) :
    position.afterSpace.afterSpace = position.afterSpace := by
  cases position <;> rfl

theorem Position.not_isInValue_afterSpace {position : Position} (h : ¬ position.IsInValue) :
    ¬ position.afterSpace.IsInValue := by
  cases position <;> exact h

theorem attributesFrom_lineFeeds {attributes found : Attributes} {keys : List (List UInt8)}
    {position : Position} (hposition : ¬ position.IsInValue)
    (h : attributesFrom attributes keys position bytes = .ok found) (others : Attributes) :
    ∃ other, attributesFrom others keys position (lineFeeds bytes) = .ok other := by
  -- A value is passed over at once, so the induction is on the length.
  induction hlength : bytes.length using Nat.strongRecOn
    generalizing bytes attributes keys position others with
  | _ length ih =>
  subst hlength
  cases bytes with
  | nil =>
      cases position with
      | between => exact ⟨others, rfl⟩
      | _ => contradiction
  | cons byte rest =>
      have hrest (position : Position) (hposition : ¬ position.IsInValue)
          (h : attributesFrom attributes keys position rest = .ok found) :
          ∃ other, attributesFrom others keys position (lineFeeds rest) = .ok other :=
        ih _ (Nat.lt_succ_self _) hposition h others rfl
      by_cases hreturn : byte = byteOf '\r'
      · rw [hreturn, (attributesFrom_space hposition _ _ _).1] at h
        have hafter := Position.not_isInValue_afterSpace hposition
        obtain ⟨other, hother⟩ := hrest _ hafter h
        refine ⟨other, ?_⟩
        rw [hreturn]
        by_cases hpair : rest.head? = some (byteOf '\n')
        · obtain ⟨more, rfl⟩ := List.head?_eq_some_iff.mp hpair
          rw [lineFeeds_cons_of_ne (by decide), (attributesFrom_space hafter _ _ _).2,
            position.afterSpace_afterSpace] at hother
          rw [lineFeeds_pair, (attributesFrom_space hposition _ _ _).2, hother]
        · rw [lineFeeds_lone hpair, (attributesFrom_space hposition _ _ _).2, hother]
      rw [lineFeeds_cons_of_ne hreturn]
      cases position with
      | between =>
          rw [attributesFrom] at h ⊢
          refine hrest _ ?_ h
          split <;> exact not_false
      | inKey key =>
          rw [attributesFrom] at h ⊢
          refine hrest _ ?_ h
          split
          · exact not_false
          · split <;> exact not_false
      | afterKey key =>
          rw [attributesFrom] at h ⊢
          split at h
          · rename_i hequals
            rw [if_pos hequals]
            exact hrest (.beforeValue key) not_false h
          rename_i hequals
          split at h
          · rename_i hspace
            rw [if_neg hequals, if_pos hspace]
            exact hrest (.afterKey key) not_false h
          · contradiction
      | beforeValue key =>
          rw [attributesFrom] at h ⊢
          split at h
          · rename_i quote hquote
            obtain ⟨inside, close, after, added, rfl, hinside, hclose, hadded, hafter⟩ :=
              attributesFrom_inValue_eq_ok_iff.mp h
            obtain ⟨more, hmore⟩ := addAttribute_lineFeeds hadded others
            have hshorter : after.length < (byte :: (inside ++ close :: after)).length := by
              simp only [List.length_cons, List.length_append]
              omega
            have hbetween : ¬ Position.between.IsInValue := not_false
            obtain ⟨other, hother⟩ := ih _ hshorter hbetween hafter more rfl
            have hplain : close ≠ byteOf '\r' ∧ close ≠ byteOf '\n' := by
              constructor <;> rintro rfl <;> contradiction
            refine ⟨other, attributesFrom_inValue_eq_ok_iff.mpr
              ⟨lineFeeds inside, close, lineFeeds after, more, ?_, ?_, hclose, hmore, hother⟩⟩
            · rw [lineFeeds_append (by simpa using hplain.2), lineFeeds_cons_of_ne hplain.1]
            · intro byte hbyte
              rcases mem_lineFeeds hbyte with rfl | hmem
              · cases quote <;> decide
              · exact hinside byte hmem
          · split at h
            · rename_i hspace
              rw [if_pos hspace]
              exact hrest (.beforeValue key) not_false h
            · contradiction
      | inValue => exact absurd trivial hposition

theorem parse_eq_ok_iff {content : List UInt8} {name : String} {found : Attributes} :
    parse content = .ok (name, found) ↔
      attributes (afterName content) = .ok found ∧ strict (rawName content) = some name := by
  rw [parse]
  cases attributes (afterName content) with
  | error fault => simp [bind, Except.bind]
  | ok found =>
      cases strict (rawName content) <;> simp [bind, Except.bind, and_comm]

theorem parse_lineFeeds {content : List UInt8} {name : String} {found : Attributes}
    (h : parse content = .ok (name, found)) :
    ∃ other, parse (lineFeeds content) = .ok (name, other) := by
  obtain ⟨hattributes, hname⟩ := parse_eq_ok_iff.mp h
  obtain ⟨hraw, hafter⟩ := rawName_lineFeeds content
  have hbetween : ¬ Position.between.IsInValue := not_false
  obtain ⟨other, hother⟩ := attributesFrom_lineFeeds hbetween hattributes .empty
  refine ⟨other, parse_eq_ok_iff.mpr ⟨?_, ?_⟩⟩
  · rw [hafter]
    exact hother
  · rw [hraw, hname]

def IsName (name : List UInt8) : Prop :=
  ∀ byte ∈ name, isSpace byte = false

theorem isName_rawName (content : List UInt8) : IsName (rawName content) := by
  intro byte hbyte
  simpa using List.mem_takeWhile_imp hbyte

theorem endName_eq_iff {content name : List UInt8} (h : IsName name) :
    endName content = name ↔
      ∃ spaces, content = name ++ spaces ∧ spaces.all isSpace = true ∧
        (name = [] → spaces = []) := by
  have hcontent : content =
      (content.reverse.dropWhile isSpace).reverse ++ (content.reverse.takeWhile isSpace).reverse := by
    rw [← List.reverse_append, List.takeWhile_append_dropWhile, List.reverse_reverse]
  have hspaces : (content.reverse.takeWhile isSpace).reverse.all isSpace = true := by
    rw [List.all_reverse, List.all_takeWhile]
  constructor
  · intro hname
    rw [endName] at hname
    split at hname
    · rename_i hnone
      rw [hnone, List.nil_append] at hcontent
      rw [← hcontent] at hspaces
      cases content with
      | nil => exact ⟨[], by rw [← hname]; rfl, rfl, fun _ => rfl⟩
      | cons byte rest =>
          rw [← hname] at h
          have hfirst := h byte List.mem_cons_self
          rw [List.all_cons, hfirst] at hspaces
          contradiction
    · rename_i found hsome
      rw [hname] at hsome hcontent
      exact ⟨_, hcontent, hspaces, fun hnil => absurd hnil hsome⟩
  · rintro ⟨spaces, rfl, hspaces, hempty⟩
    have hkept : name.reverse.dropWhile isSpace = name.reverse := by
      cases hreverse : name.reverse with
      | nil => rfl
      | cons byte rest =>
          have hmem : byte ∈ name := List.mem_reverse.mp (hreverse ▸ List.mem_cons_self)
          exact List.dropWhile_cons_of_neg (by simp [h byte hmem])
    have hdrop : (name ++ spaces).reverse.dropWhile isSpace = name.reverse := by
      rw [List.reverse_append, List.dropWhile_append_of_pos (by simpa using hspaces), hkept]
    rw [endName, hdrop, List.reverse_reverse]
    cases name with
    | nil => exact hempty rfl
    | cons => rfl

theorem endName_lineFeeds {content : List UInt8} (h : IsName (endName content)) :
    endName (lineFeeds content) = endName content := by
  obtain ⟨spaces, hcontent, hspaces, hempty⟩ := (endName_eq_iff h).mp rfl
  have hreturn : byteOf '\r' ∉ endName content := fun hmem =>
    absurd (h _ hmem) (by decide)
  refine (endName_eq_iff h).mpr ⟨lineFeeds spaces, ?_, ?_, fun hnil => ?_⟩
  · rw [← lineFeeds_append_of_notMem hreturn, ← hcontent]
  · rw [all_lineFeeds (by decide), hspaces]
  · rw [hempty hnil]
    rfl

end Tag

theorem getLast?_of_lineFeeds (h : (lineFeeds bytes).getLast? = some (byteOf '/')) :
    bytes.getLast? = some (byteOf '/') := by
  fun_induction lineFeeds bytes with
  | case1 => contradiction
  | case2 rest hpair ih => rw [List.getLast?_cons, ih h, Option.getD_some]
  | case3 rest hlone ih =>
      rw [List.getLast?_cons] at h ⊢
      cases hlast : (lineFeeds rest).getLast? with
      | none =>
          rw [hlast] at h
          contradiction
      | some last =>
          rw [hlast] at h
          rw [ih (hlast.trans h), Option.getD_some]
  | case4 byte rest hbyte ih =>
      rw [List.getLast?_cons] at h ⊢
      cases hlast : (lineFeeds rest).getLast? with
      | none =>
          have hrest : rest = [] := by
            by_contra hne
            exact lineFeeds_ne_nil hne (List.getLast?_eq_none_iff.mp hlast)
          rw [hlast] at h
          rw [hrest]
          exact h
      | some last =>
          rw [hlast] at h
          rw [ih (hlast.trans h), Option.getD_some]

namespace Progress

theorem splitSlash_lineFeeds (content : List UInt8) :
    splitSlash (lineFeeds content) =
      (lineFeeds (splitSlash content).1, (splitSlash content).2) := by
  rw [splitSlash, splitSlash]
  by_cases hslash : content.getLast? = some (byteOf '/')
  · obtain ⟨front, rfl⟩ := List.getLast?_eq_some_iff.mp hslash
    have hlast : lineFeeds (front ++ [byteOf '/']) = lineFeeds front ++ [byteOf '/'] :=
      lineFeeds_append (by decide) front
    rw [hlast, if_pos hslash, if_pos List.getLast?_concat, List.dropLast_concat,
      List.dropLast_concat]
  · rw [if_neg hslash, if_neg fun hfound => hslash (getLast?_of_lineFeeds hfound)]

end Progress

/-- An event without the attributes of its element. -/
def Event.bare : Event → Event
  | .start name _ => .start name .empty
  | .stop name => .stop name
  | .text content => .text content

namespace Progress

variable {progress next last : Progress} {lexeme : Lexeme} {lexemes : List Lexeme}
  {events : List Event}

def Named (progress : Progress) : Prop :=
  ∀ name ∈ progress.openNames, Tag.IsName name

theorem Named.takes (hnamed : progress.Named) (h : progress.Takes lexeme events next) :
    next.Named := by
  have hgather (text : String) : (progress.gather text).Named := by
    rw [gather]
    split <;> exact hnamed
  cases h with
  | text | characterData | reference => exact hgather _
  | opened => exact List.forall_mem_cons.mpr ⟨Tag.isName_rawName _, hnamed⟩
  | closed => exact hnamed
  | endTag hopen =>
      rw [Named, hopen] at hnamed
      exact (List.forall_mem_cons.mp hnamed).2
  | aside => exact hnamed

/-- The ends of lines make no difference to what a piece leads to, but for attributes. -/
theorem Takes.lineFeeds (h : progress.Takes lexeme events next) (hnamed : progress.Named) :
    ∃ others, progress.Takes lexeme.lineFeeds others next ∧
      others.map Event.bare = events.map Event.bare := by
  have htext (text : String) :
      normalizeLineEnds (String.ofList (normalizeLineEnds text.toList)).toList =
        normalizeLineEnds text.toList := by
    rw [String.toList_ofList, normalizeLineEnds_of_notMem (notMem_normalizeLineEnds _)]
  cases h with
  | @text raw text hraw hblank =>
      refine ⟨[], ?_, rfl⟩
      rw [← htext text]
      exact .text (strict_lineFeeds hraw) fun houtside => by
        rw [all_lineFeeds (by decide), hblank houtside]
  | @characterData raw text hraw hblank =>
      refine ⟨[], ?_, rfl⟩
      rw [← htext text]
      exact .characterData (strict_lineFeeds hraw) fun houtside => by
        rw [all_lineFeeds (by decide), hblank houtside]
  | @reference raw name char hname hchar =>
      refine ⟨[], ?_, rfl⟩
      have hreturn := (Reference.notMem_of_resolve hchar).1
      refine .reference (strict_lineFeeds hname) ?_
      rw [String.toList_ofList, normalizeLineEnds_of_notMem hreturn, hchar]
  | @opened content name attributes hroot hopen hparse =>
      obtain ⟨other, hother⟩ := Tag.parse_lineFeeds hparse
      refine ⟨progress.flush ++ [.start name other], ?_, by simp [Event.bare]⟩
      have hsplit := splitSlash_lineFeeds content
      have hinner : (splitSlash (Markup.lineFeeds content)).1 =
          Markup.lineFeeds (splitSlash content).1 := congrArg Prod.fst hsplit
      rw [← (Tag.rawName_lineFeeds (splitSlash content).1).1, ← hinner]
      exact .opened hroot (by rw [hsplit, hopen]) (by rw [hinner, hother])
  | @closed content name attributes hroot hclosed hparse =>
      obtain ⟨other, hother⟩ := Tag.parse_lineFeeds hparse
      have hsplit := splitSlash_lineFeeds content
      refine ⟨progress.flush ++ [.start name other, .stop name], ?_, by simp [Event.bare]⟩
      exact .closed hroot (by rw [hsplit, hclosed]) (by rw [hsplit, hother])
  | @endTag content outer hopen =>
      have hname : Tag.IsName (Tag.endName content) := hnamed _ (hopen ▸ List.mem_cons_self)
      refine ⟨_, ?_, rfl⟩
      rw [← Tag.endName_lineFeeds hname] at hopen ⊢
      exact .endTag hopen
  | aside => exact ⟨[], .aside, rfl⟩

theorem Follows.lineFeeds (h : progress.Follows lexemes events last) (hnamed : progress.Named) :
    ∃ others, progress.Follows (lexemes.map Lexeme.lineFeeds) others last ∧
      others.map Event.bare = events.map Event.bare := by
  induction h with
  | nil => exact ⟨[], .nil _, rfl⟩
  | cons htakes _ ih =>
      obtain ⟨first, hfirst, hbare⟩ := htakes.lineFeeds hnamed
      obtain ⟨others, hothers, hrest⟩ := ih (hnamed.takes htakes)
      exact ⟨first ++ others, .cons hfirst hothers, by rw [List.map_append, List.map_append, hbare,
        hrest]⟩

end Progress

/-- A document with line feeds for the ends of all its lines. -/
def unified (source : Source) : Source :=
  { source with bytes := lineFeeds source.bytes }

/-- What ends the lines of a document makes no difference to its text and its elements. -/
theorem read_unified {source : Source} (h : (read source).failure = none) :
    (read (unified source)).failure = none ∧
      (read (unified source)).events.map Event.bare = (read source).events.map Event.bare := by
  obtain ⟨pieces, last, htiles, hfollows, hend⟩ := exists_tiles_of_read h
  obtain ⟨others, hothers, hbare⟩ := hfollows.lineFeeds (List.forall_mem_nil _)
  have hlexemes : (pieces.map Piece.lexeme).map Lexeme.lineFeeds =
      (pieces.map Piece.lineFeeds).map Piece.lexeme := by
    rw [List.map_map, List.map_map]
    rfl
  have htiles := htiles.lineFeeds
  rw [← afterMark_lineFeeds] at htiles
  rw [hlexemes] at hothers
  rw [unified, ending_of_read h, read_of_tiles htiles hothers hend]
  exact ⟨rfl, hbare⟩

end Metainfo.Markup
