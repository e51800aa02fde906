import Metainfo.Markup.Event
import Mathlib.Data.List.Basic

/-!
Properly nested events as trees, and the lists of events that can be continued to one. The open
elements alone decide which these are.
-/

namespace Metainfo.Markup

/-- Content of an element: its pieces in their order, each followed by the rest. -/
inductive Fragment where
  | empty
  | text (content : String) (rest : Fragment)
  | element (name : String) (attributes : Attributes) (children rest : Fragment)
  deriving DecidableEq, Repr

namespace Fragment

def events : Fragment → List Event
  | .empty => []
  | .text content rest => .text content :: rest.events
  | .element name attributes children rest =>
      .start name attributes :: children.events ++ .stop name :: rest.events

def append : Fragment → Fragment → Fragment
  | .empty, other => other
  | .text content rest, other => .text content (rest.append other)
  | .element name attributes children rest, other =>
      .element name attributes children (rest.append other)

theorem events_append (fragment other : Fragment) :
    (fragment.append other).events = fragment.events ++ other.events := by
  induction fragment with
  | empty => rfl
  | text content rest ih => simp [append, events, ih]
  | element name attributes children rest _ ih => simp [append, events, ih]

end Fragment

/-- A list of events that is the beginning of a properly nested one. -/
def IsScript (events : List Event) : Prop :=
  ∃ fragment : Fragment, events <+: fragment.events

theorem IsScript.of_append {events later : List Event} (h : IsScript (events ++ later)) :
    IsScript events := by
  obtain ⟨fragment, hprefix⟩ := h
  exact ⟨fragment, (List.prefix_append events later).trans hprefix⟩

/-- The names of the open elements after an event, innermost first, unless it closes an element
that is not open there. -/
def nest (names : List String) : Event → Option (List String)
  | .start name _ => some (name :: names)
  | .stop name =>
      match names with
      | [] => none
      | inner :: outer => if name = inner then some outer else none
  | .text _ => some names

def openNames (names : List String) (events : List Event) : Option (List String) :=
  events.foldlM nest names

@[simp]
theorem openNames_nil (names : List String) : openNames names [] = some names :=
  rfl

@[simp]
theorem openNames_cons (names : List String) (event : Event) (events : List Event) :
    openNames names (event :: events) = (nest names event).bind (openNames · events) :=
  rfl

@[simp]
theorem openNames_append (names : List String) (first second : List Event) :
    openNames names (first ++ second) = (openNames names first).bind (openNames · second) :=
  List.foldlM_append

theorem nest_stop_eq_some {names outer : List String} {name : String} :
    nest names (.stop name) = some outer ↔ names = name :: outer := by
  cases names with
  | nil => simp [nest]
  | cons inner names =>
      by_cases h : name = inner
      · simp [nest, h]
      · simp [nest, h, Ne.symm h]

@[simp]
theorem openNames_fragment (fragment : Fragment) (names : List String) :
    openNames names fragment.events = some names := by
  induction fragment generalizing names with
  | empty => rfl
  | text content rest ih => simp [Fragment.events, nest, ih]
  | element name attributes children rest ihChildren ihRest =>
      simp [Fragment.events, nest, ihChildren, ihRest]

theorem openNames_stops (names : List String) :
    openNames names (names.map Event.stop) = some [] := by
  induction names with
  | nil => rfl
  | cons name names ih => simpa [nest] using ih

/-- The innermost open element and what has been read of its content. -/
theorem exists_open {events : List Event} {name : String} {outer : List String}
    (h : openNames [] events = some (name :: outer)) :
    ∃ before attributes children,
      events = before ++ .start name attributes :: Fragment.events children ∧
        openNames [] before = some outer := by
  induction hn : events.length using Nat.strongRecOn generalizing events name outer with
  | ind n ih =>
      rcases List.eq_nil_or_concat events with rfl | ⟨init, last, rfl⟩
      · simp at h
      · subst hn
        rw [List.concat_eq_append, openNames_append] at h
        obtain ⟨names, hinit, hlast⟩ := Option.bind_eq_some_iff.mp h
        simp only [openNames_cons, openNames_nil, Option.bind_fun_some] at hlast
        cases last with
        | start opened attributes =>
            obtain ⟨rfl, rfl⟩ := List.cons.inj (Option.some.inj hlast)
            exact ⟨init, attributes, .empty, by simp [Fragment.events], hinit⟩
        | text content =>
            obtain rfl := Option.some.inj hlast
            obtain ⟨before, attributes, children, rfl, hbefore⟩ :=
              ih _ (by simp) hinit rfl
            refine ⟨before, attributes, children.append (.text content .empty), ?_, hbefore⟩
            simp [Fragment.events_append, Fragment.events]
        | stop closed =>
            -- The element that closes, and then the one around it, each shorter than the whole.
            obtain rfl := nest_stop_eq_some.mp hlast
            obtain ⟨middle, closedAttributes, inside, rfl, hmiddle⟩ :=
              ih _ (by simp) hinit rfl
            obtain ⟨before, attributes, children, rfl, hbefore⟩ :=
              ih middle.length (by simp) hmiddle rfl
            refine ⟨before, attributes,
              children.append (.element closed closedAttributes inside .empty), ?_, hbefore⟩
            simp [Fragment.events_append, Fragment.events]

/-- Events that close whatever they open are those of a tree. -/
theorem exists_fragment {events : List Event} (h : openNames [] events = some []) :
    ∃ fragment : Fragment, events = fragment.events := by
  induction hn : events.length using Nat.strongRecOn generalizing events with
  | ind n ih =>
      rcases List.eq_nil_or_concat events with rfl | ⟨init, last, rfl⟩
      · exact ⟨.empty, rfl⟩
      · subst hn
        rw [List.concat_eq_append, openNames_append] at h
        obtain ⟨names, hinit, hlast⟩ := Option.bind_eq_some_iff.mp h
        simp only [openNames_cons, openNames_nil, Option.bind_fun_some] at hlast
        cases last with
        | start opened attributes => simp [nest] at hlast
        | text content =>
            obtain rfl := Option.some.inj hlast
            obtain ⟨fragment, rfl⟩ := ih _ (by simp) hinit rfl
            refine ⟨fragment.append (.text content .empty), ?_⟩
            simp [Fragment.events_append, Fragment.events]
        | stop closed =>
            obtain rfl := nest_stop_eq_some.mp hlast
            obtain ⟨before, attributes, children, rfl, hbefore⟩ := exists_open hinit
            obtain ⟨fragment, rfl⟩ := ih before.length (by simp) hbefore rfl
            refine ⟨fragment.append (.element closed attributes children .empty), ?_⟩
            simp [Fragment.events_append, Fragment.events]

theorem isScript_iff {events : List Event} :
    IsScript events ↔ ∃ names, openNames [] events = some names := by
  constructor
  · rintro ⟨fragment, later, hfragment⟩
    have hwhole : openNames [] (events ++ later) = some [] := by
      rw [hfragment, openNames_fragment]
    rw [openNames_append] at hwhole
    obtain ⟨names, hnames, -⟩ := Option.bind_eq_some_iff.mp hwhole
    exact ⟨names, hnames⟩
  · rintro ⟨names, hnames⟩
    have hwhole : openNames [] (events ++ names.map Event.stop) = some [] := by
      simp [hnames, openNames_stops]
    obtain ⟨fragment, hfragment⟩ := exists_fragment hwhole
    exact ⟨fragment, names.map Event.stop, hfragment⟩

/-- An element that is not closed contains the beginning of a properly nested list of events. -/
theorem isScript_of_not_closed {name : String} {outer : List String} {events : List Event}
    (h : (openNames (name :: outer) events).isSome)
    (hopen : ¬ ∃ (children : Fragment) (closing : String) (rest : List Event),
      events = children.events ++ .stop closing :: rest) : IsScript events := by
  -- With the elements opened inside on top, either they account for all that closes or the
  -- element itself closes.
  have hinside (before after : List Event) (inner : List String)
      (hbefore : openNames [] before = some inner)
      (hafter : (openNames (inner ++ name :: outer) after).isSome)
      (hevents : events = before ++ after) : (openNames inner after).isSome := by
    induction after generalizing before inner with
    | nil => rfl
    | cons event after ih =>
        rw [openNames_cons] at hafter ⊢
        have hnext (inner' : List String) (hnest : nest inner event = some inner')
            (hrest : (openNames (inner' ++ name :: outer) after).isSome) :
            ((nest inner event).bind (openNames · after)).isSome := by
          rw [hnest]
          apply ih (before ++ [event]) inner'
          · simp [hbefore, hnest]
          · exact hrest
          · simpa using hevents
        cases event with
        | start opened attributes => exact hnext (opened :: inner) rfl hafter
        | text content => exact hnext inner rfl hafter
        | stop closing =>
            cases inner with
            | nil =>
                obtain ⟨children, rfl⟩ := exists_fragment hbefore
                exact absurd ⟨children, closing, after, hevents⟩ hopen
            | cons top inner =>
                obtain ⟨later, hlater⟩ := Option.isSome_iff_exists.mp hafter
                obtain ⟨names, hnames, hrest⟩ := Option.bind_eq_some_iff.mp hlater
                obtain ⟨rfl, rfl⟩ := List.cons.inj (nest_stop_eq_some.mp hnames)
                exact hnext inner (nest_stop_eq_some.mpr rfl) (Option.isSome_of_eq_some hrest)
  exact isScript_iff.mpr (Option.isSome_iff_exists.mp (hinside [] events [] rfl h rfl))

theorem not_closed_of_isScript {events : List Event} (h : IsScript events) :
    ¬ ∃ (children : Fragment) (closing : String) (rest : List Event),
      events = children.events ++ .stop closing :: rest := by
  rintro ⟨children, closing, rest, rfl⟩
  obtain ⟨names, hnames⟩ := isScript_iff.mp h
  simp [nest] at hnames

end Metainfo.Markup
