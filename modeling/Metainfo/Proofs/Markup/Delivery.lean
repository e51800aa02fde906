import Mathlib.Data.List.Chain
import Metainfo.Proofs.Markup.Reading

/-!
What a document is delivered as. The events are the beginning of a single element with everything
in it, all of it if the document is read without a failure; text is delivered as a whole between two
tags and only inside that element.
-/

namespace Metainfo.Markup

open Metainfo.Utf8

namespace Event

def isText : Event → Bool
  | .text _ => true
  | .start _ _ | .stop _ => false

end Event

/-- The events so far of a document with one root element, and the names of the open elements. -/
inductive Rooted : List Event → List String → Prop
  | none : Rooted [] []
  | opened (name : String) (attributes : Attributes) {inner : List Event} {names : List String}
      (hinner : openNames [] inner = some names) :
      Rooted (.start name attributes :: inner) (names ++ [name])
  | closed (name : String) (attributes : Attributes) (children : Fragment) :
      Rooted (Fragment.element name attributes children .empty).events []

/-- Text is not empty, and no two pieces of it follow each other. -/
structure Parted (events : List Event) : Prop where
  nonempty : ∀ event ∈ events, event ≠ .text ""
  apart : events.IsChain fun first second => ¬ (first.isText ∧ second.isText)

/-- The last event is a tag, so that text may follow. -/
def EndsInTag (events : List Event) : Prop :=
  ∀ event ∈ events.getLast?, event.isText = false

variable {events later : List Event} {event : Event} {names next : List String}

namespace Rooted

/-- An event keeps to the root element: the first one opens it, and nothing follows its end. -/
theorem advance (h : Rooted events names) (hnest : nest names event = some next)
    (hroot : names = [] → events = [] ∧ ∃ name attributes, event = .start name attributes) :
    Rooted (events ++ [event]) next := by
  cases h with
  | none =>
      obtain ⟨-, name, attributes, rfl⟩ := hroot rfl
      obtain rfl := Option.some.inj hnest
      exact .opened name attributes (openNames_nil [])
  | closed name attributes children =>
      obtain ⟨hnil, -⟩ := hroot rfl
      contradiction
  | @opened name attributes inner innerNames hinner =>
      have hnext {later : List String} (hlater : nest innerNames event = some later) :
          Rooted (.start name attributes :: inner ++ [event]) (later ++ [name]) := by
        refine .opened name attributes ?_
        change openNames [] (inner ++ [event]) = _
        rw [openNames_append, hinner, Option.bind_some, openNames_cons, hlater]
        rfl
      cases event with
      | start opened openedAttributes =>
          obtain rfl := Option.some.inj hnest
          exact hnext rfl
      | text content =>
          obtain rfl := Option.some.inj hnest
          exact hnext rfl
      | stop closing =>
          have hopen := nest_stop_eq_some.mp hnest
          cases innerNames with
          | nil =>
              obtain ⟨rfl, rfl⟩ := List.cons.inj hopen
              obtain ⟨children, rfl⟩ := exists_fragment hinner
              exact .closed name attributes children
          | cons top outer =>
              obtain ⟨rfl, rfl⟩ := List.cons.inj hopen
              exact hnext (nest_stop_eq_some.mpr rfl)

theorem isPrefix (h : Rooted events names) :
    ∃ name attributes children,
      events <+: (Fragment.element name attributes children .empty).events := by
  cases h with
  | none => exact ⟨"", .empty, .empty, List.nil_prefix⟩
  | closed name attributes children => exact ⟨name, attributes, children, List.prefix_refl _⟩
  | @opened name attributes inner innerNames hinner =>
      obtain ⟨children, hprefix⟩ := isScript_iff.mpr ⟨innerNames, hinner⟩
      refine ⟨name, attributes, children, ?_⟩
      rw [Fragment.events, List.cons_append, List.cons_prefix_cons]
      exact ⟨rfl, hprefix.trans (List.prefix_append _ _)⟩

theorem eq_of_nil (h : Rooted events []) (hne : events ≠ []) :
    ∃ name attributes children,
      events = (Fragment.element name attributes children .empty).events := by
  generalize hnames : ([] : List String) = names at h
  cases h with
  | none => contradiction
  | closed name attributes children => exact ⟨name, attributes, children, rfl⟩
  | opened name attributes hinner => simp at hnames

end Rooted

namespace Parted

theorem nil : Parted [] :=
  ⟨by simp, .nil⟩

theorem tag (h : Parted events) (htag : event.isText = false) :
    Parted (events ++ [event]) ∧ EndsInTag (events ++ [event]) := by
  refine ⟨⟨?_, ?_⟩, ?_⟩
  · intro other hother
    rcases List.mem_append.mp hother with hmem | hmem
    · exact h.nonempty other hmem
    · rw [List.mem_singleton.mp hmem]
      rintro rfl
      contradiction
  · refine List.isChain_append.mpr ⟨h.apart, List.IsChain.singleton _, ?_⟩
    intro first _ second hsecond
    obtain rfl := Option.some.inj hsecond
    simp [htag]
  · intro last hlast
    rw [List.getLast?_concat] at hlast
    obtain rfl := Option.some.inj hlast
    exact htag

theorem flush (h : Parted events) (hlast : EndsInTag events) (progress : Progress) :
    Parted (events ++ progress.flush) := by
  rw [Progress.flush]
  split
  · rw [List.append_nil]
    exact h
  · rename_i hpending
    refine ⟨?_, List.isChain_append.mpr ⟨h.apart, List.IsChain.singleton _, ?_⟩⟩
    · intro other hother
      rcases List.mem_append.mp hother with hmem | hmem
      · exact h.nonempty other hmem
      · rw [List.mem_singleton.mp hmem]
        rintro hempty
        rw [Event.text.inj hempty] at hpending
        exact hpending rfl
    · intro first hfirst second hsecond
      simp [hlast first hfirst]

end Parted

/-- What may have been delivered when reading stops. -/
structure Deliverable (events : List Event) : Prop where
  rooted : ∃ names, Rooted events names
  parted : Parted events

/-- What has been delivered when so much of a document has been read. -/
structure Delivered (events : List Event) (progress : Progress) : Prop where
  rooted : Rooted events progress.names
  parted : Parted events
  endsInTag : EndsInTag events
  seenRoot : progress.seenRoot = !events.isEmpty
  pending : progress.isOutside = true → progress.pending = ""

namespace Progress

variable {progress : Progress}

theorem names_eq_nil_iff : progress.names = [] ↔ progress.isOutside = true := by
  rw [names, List.map_eq_nil_iff, isOutside, List.isEmpty_iff]

/-- A reference stands for a character, or there is a fault in it. -/
theorem takeReference_cases (progress : Progress) (raw : List UInt8) (stop : Nat) :
    (∃ char : Char,
        progress.takeReference raw stop = ⟨[], .ok (progress.gather char.toString)⟩) ∨
      ∃ fault, progress.takeReference raw stop = halt fault stop stop := by
  rw [takeReference]
  cases (strict raw).map fun name => Reference.resolve name.toList with
  | none => exact Or.inr ⟨_, rfl⟩
  | some resolution =>
      cases resolution with
      | char char => exact Or.inl ⟨char, rfl⟩
      | invalidNumber => exact Or.inr ⟨_, rfl⟩
      | unknownName => exact Or.inr ⟨_, rfl⟩

/-- A step goes on with what is delivered or stops with something that may be. -/
def Step.Delivers (events : List Event) (step : Step) : Prop :=
  match step.result with
  | .ok next => Delivered (events ++ step.events) next
  | .error _ => Deliverable (events ++ step.events)

end Progress

namespace Delivered

open Progress

variable {progress : Progress}

theorem initial : Delivered [] .initial where
  rooted := .none
  parted := .nil
  endsInTag := by simp [EndsInTag]
  seenRoot := rfl
  pending _ := rfl

theorem deliverable (h : Delivered events progress) : Deliverable events :=
  ⟨⟨_, h.rooted⟩, h.parted⟩

theorem halt (h : Delivered events progress) (fault : Fault) (offset examined : Nat) :
    (Progress.halt fault offset examined).Delivers events := by
  change Deliverable (events ++ [])
  rw [List.append_nil]
  exact h.deliverable

theorem gather (h : Delivered events progress) (text : String) :
    Step.Delivers events ⟨[], .ok (progress.gather text)⟩ := by
  change Delivered (events ++ []) (progress.gather text)
  rw [List.append_nil, Progress.gather]
  split
  · exact h
  · rename_i houtside
    exact ⟨h.rooted, h.parted, h.endsInTag, h.seenRoot, fun hinside => absurd hinside houtside⟩

/-- Pending text is inside the root element, so it may be delivered. -/
theorem flush (h : Delivered events progress) :
    Rooted (events ++ progress.flush) progress.names ∧ Parted (events ++ progress.flush) := by
  refine ⟨?_, h.parted.flush h.endsInTag progress⟩
  rw [Progress.flush]
  split
  · rw [List.append_nil]
    exact h.rooted
  · rename_i hpending
    refine h.rooted.advance rfl ?_
    intro hnames
    rw [h.pending (names_eq_nil_iff.mp hnames)] at hpending
    contradiction

/-- A tag after the pending text. -/
theorem tag (h : Delivered events progress) {next : List String}
    (htag : event.isText = false) (hnest : nest progress.names event = some next)
    (hroot : progress.isOutside = true →
      progress.seenRoot = false ∧ ∃ name attributes, event = .start name attributes) :
    Rooted (events ++ progress.flush ++ [event]) next ∧
      Parted (events ++ progress.flush ++ [event]) ∧
        EndsInTag (events ++ progress.flush ++ [event]) := by
  obtain ⟨hrooted, hparted⟩ := h.flush
  refine ⟨hrooted.advance hnest ?_, hparted.tag htag⟩
  intro hnames
  have houtside := names_eq_nil_iff.mp hnames
  obtain ⟨hseen, hstart⟩ := hroot houtside
  have hnil : events = [] := by
    have hseenRoot := h.seenRoot
    rw [hseen] at hseenRoot
    simpa using hseenRoot.symm
  rw [Progress.flush, h.pending houtside, hnil]
  exact ⟨rfl, hstart⟩

/-- After a tag nothing is pending. -/
theorem after_tag {before : List Event} {openNames : List (List UInt8)} {seenRoot : Bool}
    (hseen : seenRoot = true)
    (hrooted : Rooted (before ++ [event]) (Progress.names ⟨openNames, seenRoot, ""⟩))
    (hparted : Parted (before ++ [event]) ∧ EndsInTag (before ++ [event])) :
    Delivered (before ++ [event]) ⟨openNames, seenRoot, ""⟩ where
  rooted := hrooted
  parted := hparted.1
  endsInTag := hparted.2
  seenRoot := by simp [hseen]
  pending _ := rfl

theorem takeText (h : Delivered events progress) (raw : List UInt8) (stop examined : Nat) :
    (progress.takeText raw stop examined).Delivers events := by
  rw [Progress.takeText]
  split
  · exact h.halt ..
  · split
    · exact h.halt ..
    · exact h.gather _

theorem takeReference (h : Delivered events progress) (raw : List UInt8) (stop : Nat) :
    (progress.takeReference raw stop).Delivers events := by
  rcases progress.takeReference_cases raw stop with ⟨char, hstep⟩ | ⟨fault, hstep⟩
  · rw [hstep]
    exact h.gather _
  · rw [hstep]
    exact h.halt ..

theorem takeStart (h : Delivered events progress) (content : List UInt8) (stop : Nat) :
    (progress.takeStart content stop).Delivers events := by
  rw [Progress.takeStart]
  split
  · exact h.halt ..
  rename_i hroot
  obtain ⟨content, closed⟩ := splitSlash content
  dsimp only
  split
  · obtain ⟨hrooted, hparted⟩ := h.flush
    exact ⟨⟨_, hrooted⟩, hparted⟩
  rename_i name attributes hparse
  have hfirst : progress.isOutside = true → progress.seenRoot = false ∧
      ∃ opened given, Event.start name attributes = .start opened given := by
    intro houtside
    rw [houtside, Bool.true_and, Bool.not_eq_true] at hroot
    exact ⟨hroot, name, attributes, rfl⟩
  obtain ⟨hrooted, hparted⟩ := h.tag rfl rfl hfirst
  split
  · have hstopped := hrooted.advance (nest_stop_eq_some.mpr rfl) fun hnil => by contradiction
    have hdelivered := after_tag rfl hstopped (hparted.1.tag rfl)
    rw [List.append_assoc, List.append_assoc] at hdelivered
    exact hdelivered
  · have hnames : name :: progress.names =
        Progress.names ⟨Tag.rawName content :: progress.openNames, true, ""⟩ := by
      rw [Progress.names, Progress.names, List.map_cons, Tag.strict_rawName hparse]
      rfl
    rw [hnames] at hrooted
    have hdelivered := after_tag rfl hrooted hparted
    rw [List.append_assoc] at hdelivered
    exact hdelivered

theorem takeEnd (h : Delivered events progress) (content : List UInt8) (start stop : Nat) :
    (progress.takeEnd content start stop).Delivers events := by
  rw [Progress.takeEnd]
  split
  · exact h.halt ..
  rename_i expected outer hopen
  have hnames : progress.names =
      (strict expected).getD "" :: outer.map fun raw => (strict raw).getD "" := by
    rw [Progress.names, hopen, List.map_cons]
  have hinside : progress.isOutside = true → progress.seenRoot = false ∧
      ∃ name attributes, Event.stop ((strict expected).getD "") = .start name attributes := by
    rw [isOutside, hopen]
    intro houtside
    contradiction
  have hseen : progress.seenRoot = true := by
    rw [h.seenRoot, Bool.not_eq_true', List.isEmpty_eq_false_iff]
    rintro rfl
    have hrooted := h.rooted
    rw [hnames] at hrooted
    cases hrooted
  obtain ⟨hrooted, hparted⟩ := h.tag rfl (nest_stop_eq_some.mpr hnames) hinside
  split
  · have hdelivered := after_tag hseen hrooted hparted
    rw [List.append_assoc] at hdelivered
    exact hdelivered
  · exact h.halt ..

theorem take (h : Delivered events progress) (start stop : Nat) (lexeme : Lexeme) :
    (progress.take start stop lexeme).Delivers events := by
  cases lexeme with
  | text raw => exact h.takeText ..
  | characterData raw => exact h.takeText ..
  | reference raw => exact h.takeReference ..
  | startTag content => exact h.takeStart ..
  | endTag content => exact h.takeEnd ..
  | aside =>
      change Delivered (events ++ []) progress
      rw [List.append_nil]
      exact h

end Delivered

/-- Reading that finds no fault ends behind the root element. -/
theorem Delivered.closed {progress : Progress} (h : Delivered events progress)
    (hend : progress.fault? = none) :
    ∃ name attributes children,
      events = (Fragment.element name attributes children .empty).events := by
  rw [Progress.fault?] at hend
  split at hend
  · contradiction
  rename_i hinside
  split at hend
  · contradiction
  rename_i hseen
  rw [Bool.not_eq_true, Bool.not_eq_false'] at hinside hseen
  have hrooted := h.rooted
  rw [Progress.names_eq_nil_iff.mpr hinside] at hrooted
  refine hrooted.eq_of_nil ?_
  rintro rfl
  rw [h.seenRoot] at hseen
  contradiction

/-- What reading on adds may be delivered, and without a failure the root element is complete. -/
theorem Delivered.readFrom {progress : Progress} (h : Delivered events progress)
    (ending : Ending) (offset : Nat) (rest : List UInt8) :
    Deliverable (events ++ (Markup.readFrom ending progress offset rest).1) ∧
      ((Markup.readFrom ending progress offset rest).2 = none →
        ∃ name attributes children,
          events ++ (Markup.readFrom ending progress offset rest).1 =
            (Fragment.element name attributes children .empty).events) := by
  have hhalted {progress : Progress} {events : List Event} (h : Delivered events progress)
      (halt : Option Halt)
      (hend : halt = none → ∃ name attributes children,
        events = (Fragment.element name attributes children .empty).events) :
      Deliverable (events ++ []) ∧ (halt = none → ∃ name attributes children,
        events ++ [] = (Fragment.element name attributes children .empty).events) := by
    rw [List.append_nil]
    exact ⟨h.deliverable, hend⟩
  fun_induction Markup.readFrom ending progress offset rest generalizing events with
  | case1 => exact hhalted h _ (by simp)
  | case2 => exact hhalted h _ fun hend => h.closed (Option.map_eq_none_iff.mp hend)
  | case3 => exact hhalted h _ (by simp)
  | case4 progress offset byte bytes lexeme length hcut found halt htake =>
      have hstep := h.take offset (offset + length) lexeme
      rw [htake] at hstep
      exact ⟨hstep, by simp⟩
  | case5 progress offset byte bytes lexeme length hcut found next htake later halt hread ih =>
      have hstep := h.take offset (offset + length) lexeme
      rw [htake] at hstep
      have hrest := ih hstep
      rw [hread, List.append_assoc] at hrest
      exact hrest

/-! Why reading stops. Only an input that breaks off is unreadable. -/

def Halt.IsFault (halt : Halt) : Prop :=
  ∃ cause offset examined, halt = .fault cause offset examined

namespace Lexeme

/-- A piece is cut off or there is a fault. -/
def Faulty (cut : Cut) : Prop :=
  ∀ halt, cut = .error halt → halt.IsFault

theorem faulty_ok (piece : Lexeme × Nat) : Faulty (.ok piece) :=
  fun _ h => by contradiction

theorem faulty_fault (cause : Fault) (offset examined : Nat) :
    Faulty (.error (.fault cause offset examined)) := by
  rintro halt h
  exact ⟨_, _, _, (Except.error.inj h).symm⟩

theorem faulty_cutText (bytes : List UInt8) : Faulty (cutText .complete bytes) := by
  have hcut : cutText .complete bytes =
      .ok (.text (bytes.takeWhile fun byte => !isDelimiter byte), _) := if_neg (by simp)
  rw [hcut]
  exact faulty_ok _

theorem faulty_cutReference (rest : List UInt8) : Faulty (cutReference .complete rest) := by
  rw [cutReference]
  split
  · exact faulty_fault _ _ _
  · split
    · exact faulty_ok _
    · exact faulty_fault _ _ _

theorem faulty_cutTag (opening : Nat) (lexeme : List UInt8 → Lexeme) (rest : List UInt8) :
    Faulty (cutTag .complete opening lexeme rest) := by
  rw [cutTag]
  split
  · exact faulty_ok _
  · exact faulty_fault _ _ _
  · exact faulty_fault _ _ _

theorem faulty_cutComment (bytes : List UInt8) : Faulty (cutComment .complete bytes) := by
  rw [cutComment]
  split
  · exact faulty_fault _ _ _
  · split
    · exact faulty_ok _
    · exact faulty_fault _ _ _

theorem faulty_cutCharacterData (bytes : List UInt8) :
    Faulty (cutCharacterData .complete bytes) := by
  rw [cutCharacterData]
  split
  · exact faulty_fault _ _ _
  · split
    · exact faulty_ok _
    · exact faulty_fault _ _ _

theorem faulty_cutDoctype (bytes : List UInt8) : Faulty (cutDoctype .complete bytes) := by
  rw [cutDoctype]
  split
  · exact faulty_fault _ _ _
  · dsimp only
    split
    · split
      · exact faulty_fault _ _ _
      · exact faulty_ok _
    · exact faulty_fault _ _ _

theorem faulty_cutInstruction (rest : List UInt8) : Faulty (cutInstruction .complete rest) := by
  rw [cutInstruction]
  split
  · exact faulty_fault _ _ _
  · exact faulty_fault _ _ _
  · exact faulty_ok _

theorem faulty_cutDeclaration (bytes : List UInt8) :
    Faulty (cutDeclaration .complete bytes) := by
  rw [cutDeclaration]
  split
  · exact faulty_fault _ _ _
  split
  · exact faulty_cutCharacterData bytes
  split
  · exact faulty_cutComment bytes
  split
  · exact faulty_cutDoctype bytes
  · exact faulty_fault _ _ _

theorem faulty_cutMarkup (bytes : List UInt8) : Faulty (cutMarkup .complete bytes) := by
  rw [cutMarkup]
  split
  · exact faulty_fault _ _ _
  split
  · exact faulty_cutTag _ _ _
  split
  · exact faulty_cutDeclaration bytes
  split
  · exact faulty_cutInstruction _
  · exact faulty_cutTag _ _ _

theorem faulty_cut (byte : UInt8) (rest : List UInt8) :
    Faulty (cut .complete (byte :: rest)) := by
  rw [cut]
  split
  · exact faulty_cutMarkup _
  split
  · exact faulty_cutReference rest
  · exact faulty_cutText _

end Lexeme

namespace Progress

/-- Where a piece does not fit, there is a fault. -/
def Step.Faulty (step : Step) : Prop :=
  ∀ halt, step.result = .error halt → halt.IsFault

theorem faulty_error (found : List Event) (cause : Fault) (offset examined : Nat) :
    Step.Faulty ⟨found, .error (.fault cause offset examined)⟩ := by
  rintro halt h
  exact ⟨_, _, _, (Except.error.inj h).symm⟩

theorem faulty_ok (found : List Event) (progress : Progress) :
    Step.Faulty ⟨found, .ok progress⟩ :=
  fun _ h => by contradiction

theorem faulty_take (progress : Progress) (start stop : Nat) (lexeme : Lexeme) :
    (progress.take start stop lexeme).Faulty := by
  have htext (raw : List UInt8) (stop examined : Nat) :
      (progress.takeText raw stop examined).Faulty := by
    rw [takeText]
    split
    · exact faulty_error _ _ _ _
    · split
      · exact faulty_error _ _ _ _
      · exact faulty_ok _ _
  cases lexeme with
  | text raw => exact htext _ _ _
  | characterData raw => exact htext _ _ _
  | aside => exact faulty_ok _ _
  | reference raw =>
      rw [take]
      rcases progress.takeReference_cases raw stop with ⟨char, hstep⟩ | ⟨fault, hstep⟩
      · rw [hstep]
        exact faulty_ok _ _
      · rw [hstep]
        exact faulty_error _ _ _ _
  | startTag content =>
      rw [take, takeStart]
      split
      · exact faulty_error _ _ _ _
      · dsimp only
        split
        · exact faulty_error _ _ _ _
        · split
          · exact faulty_ok _ _
          · exact faulty_ok _ _
  | endTag content =>
      rw [take, takeEnd]
      split
      · exact faulty_error _ _ _ _
      · split
        · exact faulty_ok _ _
        · exact faulty_error _ _ _ _

end Progress

/-- An input that is there to its end is read to its end, or there is a fault in it. -/
theorem isFault_readFrom {ending : Ending} (hcomplete : ending = .complete) (progress : Progress)
    (offset : Nat) (rest : List UInt8) :
    ∀ halt ∈ (readFrom ending progress offset rest).2, halt.IsFault := by
  fun_induction readFrom ending progress offset rest with
  | case1 progress offset hfailed =>
      rw [hcomplete] at hfailed
      contradiction
  | case2 progress offset =>
      intro halt hhalt
      obtain ⟨fault, -, rfl⟩ := Option.map_eq_some_iff.mp hhalt
      exact ⟨_, _, _, rfl⟩
  | case3 progress offset byte bytes halt hcut =>
      intro shifted hshifted
      obtain rfl := Option.some.inj hshifted
      rw [hcomplete] at hcut
      obtain ⟨cause, start, examined, rfl⟩ := Lexeme.faulty_cut byte bytes halt hcut
      exact ⟨_, _, _, rfl⟩
  | case4 progress offset byte bytes lexeme length hcut found halt htake =>
      intro other hother
      obtain rfl := Option.some.inj hother
      have hstep := progress.faulty_take offset (offset + length) lexeme
      rw [htake] at hstep
      exact hstep _ rfl
  | case5 progress offset byte bytes lexeme length hcut found next htake later halt hread ih =>
      rw [hread] at ih
      exact ih

theorem deliverable_read (source : Source) :
    Deliverable (read source).events ∧
      ((read source).failure = none → ∃ name attributes children,
        (read source).events = (Fragment.element name attributes children .empty).events) := by
  have h := Delivered.initial.readFrom source.ending 0 (source.bytes.drop (markLength source.bytes))
  refine ⟨h.1, ?_⟩
  intro hnone
  exact h.2 (Option.map_eq_none_iff.mp hnone)

theorem malformed_read {source : Source} (hcomplete : source.ending = .complete)
    (hfailure : (read source).failure ≠ none) :
    ∃ fault location, (read source).failure = some (.malformed fault location) := by
  obtain ⟨failure, hfailed⟩ := Option.ne_none_iff_exists'.mp hfailure
  obtain ⟨halt, hhalt, rfl⟩ := Option.map_eq_some_iff.mp hfailed
  obtain ⟨cause, offset, examined, rfl⟩ := isFault_readFrom hcomplete _ _ _ halt hhalt
  exact ⟨_, _, hfailed⟩

end Metainfo.Markup
