import Metainfo.Element.Basic

/-!
Look-up in a list of transitions.  The list is regrouped so that the transitions of one source
stand together, in the order in which they were given, and the place where each group begins is
noted.
-/

namespace Metainfo

structure TransitionTable where
  transitions : List Transition
  /-- Where the group of each source begins, if it has one. -/
  first : Array (Option Nat)
  /-- The source of the last transition into each target. -/
  parents : Array Element
  deriving Repr

namespace TransitionTable

def grouped (transitions : List Transition) : List Transition :=
  Element.all.flatMap fun source => transitions.filter (·.source = source)

def note (table : TransitionTable) (position : Nat) (transition : Transition) :
    TransitionTable :=
  { table with
    first :=
      if (table.first.getD transition.source.index none).isSome then table.first
      else table.first.setIfInBounds transition.source.index (some position)
    parents := table.parents.setIfInBounds transition.target.index transition.source }

def noteFrom (table : TransitionTable) (position : Nat) : List Transition → TransitionTable
  | [] => table
  | transition :: rest => noteFrom (table.note position transition) (position + 1) rest

def ofList (transitions : List Transition) : TransitionTable :=
  let transitions := grouped transitions
  noteFrom
    ⟨transitions, Array.replicate Element.all.length none,
      Array.replicate Element.all.length .start⟩
    0 transitions

def lookup (table : TransitionTable) (source : Element) (tag : String) : Option Transition := do
  let start ← table.first.getD source.index none
  ((table.transitions.drop start).takeWhile (·.source = source)).find? (·.tag = tag)

def parent (table : TransitionTable) (element : Element) : Element :=
  table.parents.getD element.index .start

end TransitionTable

def vocabularyTable : TransitionTable :=
  .ofList vocabulary

end Metainfo
