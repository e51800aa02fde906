import Metainfo.Description
import Metainfo.Element.Table
import Metainfo.Ingest.Completion
import Metainfo.Markup.Event

/-!
Reading the events of a document into a pool.  Nesting is followed with two counters: the number
of open elements, and the depth of the innermost one that means something.  While they differ, an
element that means nothing is open, and everything in it is passed over.
-/

namespace Metainfo

open Metainfo.Markup
open Metainfo.Naming

structure Context where
  pool : Pool
  depth : Nat
  /-- The depth of the innermost open element that means something. -/
  knownDepth : Nat
  element : Element
  /-- The depth of the outermost open element that is left out for its language. -/
  skipDepth : Option Nat
  captures : Bool
  content : ContentBuffer
  description : Description
  /-- The record of the open application. -/
  record : Option RecordId
  findings : Completion.Findings
  completed : List RecordId
  /-- The ids whose desktop entries were asked for, with the root switch. -/
  queries : List (String × Bool)

namespace Context

def noFindings : Completion.Findings := ⟨none, false⟩

def initial (pool : Pool) : Context where
  pool
  depth := 0
  knownDepth := 0
  element := .start
  skipDepth := none
  captures := false
  content := .empty
  description := .empty
  record := none
  findings := noFindings
  completed := []
  queries := []

def takeText (context : Context) : String × Context :=
  let content := context.content.collapse
  (content.text, { context with content })

/-- The attribute that says that an element is for one language only. -/
def languageAttribute : String := "xml:lang"

def defaultCategory : String := "desktop"

def categoryOf (attributes : Attributes) : String :=
  ((attributes.get? "type").filter (!·.isEmpty)).getD defaultCategory

def enter (context : Context) (attributes : Attributes) : Context :=
  match context.element with
  | .application =>
      match context.pool.addRecord with
      | (record, pool) =>
          { context with
            pool := pool.setText record .category (categoryOf attributes)
            record := some record
            findings := noFindings }
  | .description => { context with description := context.description.reset }
  | .orderedList | .unorderedList =>
      { context with description := context.description.startList }
  | _ => context

def closeApplication (settings : IngestSettings) (context : Context) (record : RecordId) :
    Context :=
  let defaulted := Completion.fillDefaults context.pool record
  let asked := Completion.query? settings context.findings defaulted record
  { context with
    pool := Completion.complete settings context.findings context.pool record
    record := none
    findings := { context.findings with id := none }
    completed := context.completed ++ [record]
    queries := context.queries ++ (asked.map fun id => (id, settings.flags.useRoot)).toList }

def setGatheredText (context : Context) (record : RecordId) (key : TextKey) : Context :=
  match context.takeText with
  | (value, context) => { context with pool := context.pool.setText record key value }

def addGatheredText (context : Context) (record : RecordId) (key : ListKey) : Context :=
  match context.takeText with
  | (value, context) => { context with pool := context.pool.addToList record key value }

def describe (context : Context)
    (assemble : Description → ContentBuffer → Description × ContentBuffer) : Context :=
  match assemble context.description context.content with
  | (description, content) => { context with description, content }

/-- What closing the current element does for an open record. -/
def leaveIn (settings : IngestSettings) (context : Context) (record : RecordId) : Context :=
  match context.element with
  | .application => context.closeApplication settings record
  | .id =>
      match context.takeText with
      | (id, context) => { context with findings := { context.findings with id := some id } }
  | .name =>
      match context.takeText with
      | (name, context) =>
          { context with
            pool := Completion.setNameText context.pool record (applicationName name) }
  | .summary =>
      { context.setGatheredText record .summary with
        findings := { context.findings with hasSummary := true } }
  | .url => context.setGatheredText record .url
  | .licence => context.addGatheredText record .license
  | .group => context.addGatheredText record .group
  | .extensions => context.addGatheredText record .extensions
  | .keyword => context.addGatheredText record .keywords
  | .pkgname =>
      match context.takeText with
      | (package, context) =>
          { context with pool := Completion.linkPackage context.pool record package }
  | .description =>
      match context.description.finish with
      | (some text, description) =>
          { context with
            description
            pool := context.pool.setText record .description text }
      | (none, description) => { context with description }
  | .paragraph => context.describe Description.paragraph
  | .unorderedItem => context.describe Description.unorderedItem
  | .orderedItem => context.describe Description.orderedItem
  | .unorderedList | .orderedList =>
      { context with description := context.description.endList }
  | .start | .keywords => context

def leave (settings : IngestSettings) (context : Context) : Context :=
  match context.record with
  | none => context
  | some record => context.leaveIn settings record

/-- An element opens.  An element for one language only, and everything in it, is followed but
has no effect. -/
def start (context : Context) (name : String) (attributes : Attributes) : Context :=
  let depth := context.depth + 1
  if context.depth ≠ context.knownDepth then { context with depth }
  else
    match vocabularyTable.lookup context.element name with
    | none => { context with depth }
    | some transition =>
        let skipDepth :=
          match context.skipDepth with
          | some skipped => some skipped
          | none => if (attributes.get? languageAttribute).isSome then some depth else none
        let entered :=
          { context with
            depth
            knownDepth := depth
            element := transition.target
            skipDepth
            captures := transition.captures && skipDepth.isNone
            content := context.content.clear }
        if skipDepth.isSome then entered else entered.enter attributes

def stop (settings : IngestSettings) (context : Context) : Context :=
  let depth := context.depth - 1
  if context.depth ≠ context.knownDepth then { context with depth }
  else
    let closing := context.depth
    let shallower := { context with depth, knownDepth := context.knownDepth - 1 }
    let left :=
      match context.skipDepth with
      | none => shallower.leave settings
      | some skipped =>
          if closing > skipped then shallower
          else if closing = skipped then { shallower with skipDepth := none }
          else { shallower with skipDepth := none }.leave settings
    { left with element := vocabularyTable.parent left.element, captures := false }

def text (context : Context) (content : String) : Context :=
  if context.captures then
    { context with content := context.content.append (Utf8.encode content) }
  else context

def step (settings : IngestSettings) (context : Context) : Event → Context
  | .start name attributes => context.start name attributes
  | .stop _ => context.stop settings
  | .text content => context.text content

def run (settings : IngestSettings) (context : Context) (events : List Event) : Context :=
  events.foldl (step settings) context

def abort (context : Context) : Context :=
  match context.record with
  | none => context
  | some record => { context with pool := context.pool.discard record, record := none }

end Context

end Metainfo
