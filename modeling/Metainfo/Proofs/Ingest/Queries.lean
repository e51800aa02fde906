import Metainfo.Proofs.Ingest.Portrait

/-!
The desktop entries that are asked for. Each closed application asks for at most one, by its id and
only to fill a gap, and the answers have no part in it.
-/

namespace Metainfo

open Metainfo.Markup
open Metainfo.Naming

/-- Desktop entries are looked up, and there is something to look them up in. -/
def IngestSettings.looksUp (settings : IngestSettings) : Bool :=
  settings.flags.checkDesktopFile && settings.resolver.isSome

namespace Application

/-- The id of an application that lacks a name or a summary. -/
def wanted? (application : Application) : Option String :=
  application.id?.filter fun _ =>
    (application.content.childValues "name").isEmpty ||
      (application.content.childValues "summary").isEmpty

/-- What an application asks for. -/
def query? (settings : IngestSettings) (application : Application) : Option (String × Bool) :=
  if settings.looksUp then application.wanted?.map fun id => (id, settings.flags.useRoot) else none

theorem filterMap_query? (settings : IngestSettings) (applications : List Application) :
    applications.filterMap (query? settings) =
      if settings.looksUp then
        (applications.filterMap wanted?).map fun id => (id, settings.flags.useRoot)
      else [] := by
  split
  · rename_i hlooks
    rw [List.map_filterMap]
    exact List.filterMap_congr fun application _ => if_pos hlooks
  · rename_i hlooks
    exact List.filterMap_eq_nil_iff.mpr fun application _ => if_neg hlooks

end Application

namespace Completion

variable {settings : IngestSettings} {findings : Findings} {pool : Pool} {record : RecordId}
  {fields : Fields}

/-- A gap is seen in the fields, whatever is known of the record besides. -/
theorem query?_fillDefaults (h : pool.Shows record fields)
    (hsummary : findings.hasSummary = (fields.text .summary).isSome) :
    query? settings findings (fillDefaults pool record) record =
      if settings.looksUp then
        findings.id.filter fun _ => fields.name.isNone || (fields.text .summary).isNone
      else none := by
  rw [query?, h.fillDefaults.isNone_name?, hsummary, IngestSettings.looksUp, Option.not_isSome]
  cases settings.flags.checkDesktopFile <;> cases settings.resolver <;> cases findings.id <;>
    simp [Option.filter]

end Completion

namespace Context

open Metainfo.Frame

variable {settings : IngestSettings} {pool : Pool} {context : Context} {frames : List Frame}
  {application : Application}

theorem Drafts.queries_stop {record : RecordId} {found : Option String} {targets : List String}
    (h : context.Drafts record found targets) (hat : context.At .application)
    (settings : IngestSettings) :
    (context.stop settings).queries = context.queries ++
      ((Completion.query? settings context.findings
        (Completion.fillDefaults context.pool record) record).map fun id =>
          (id, settings.flags.useRoot)).toList := by
  rw [stop_known hat.depth hat.skipDepth, leave_of_some settings h.shallower.isOpen, leaveIn,
    element_shallower, hat.element]
  rfl

/-- The gaps of an application are those of what it says. -/
theorem query?_said {record : RecordId} {findings : Completion.Findings}
    (h : pool.Shows record (.ofDetails
      (.text .category (categoryOf application.tag.attributes) :: application.content.details)))
    (hfindings : findings = application.content.details.foldl Detail.note noFindings)
    (settings : IngestSettings) :
    (Completion.query? settings findings (Completion.fillDefaults pool record) record).map
        (fun id => (id, settings.flags.useRoot)) = application.query? settings := by
  obtain ⟨-, -, -, -, -, -, hsummary, -, -, hname⟩ := application.content.ofDetails_details
  have hid : findings.id = application.id? := by
    rw [hfindings, Detail.id_foldl_note, Fragment.ids_details, noFindings, Option.or_none]
    rfl
  have hfound : findings.hasSummary =
      (application.content.childValues "summary").getLast?.isSome := by
    rw [hfindings, Detail.hasSummary_foldl_note, noFindings, Bool.or_false]
    exact congrArg Option.isSome hsummary
  have hempty (values : List String) : values.getLast?.isNone = values.isEmpty := by
    cases values <;> simp
  rw [Fields.ofDetails_category] at h
  rw [Completion.query?_fillDefaults h (by simp [hfound, hsummary]), hid, Application.query?]
  cases settings.looksUp with
  | false => rfl
  | true => simp [hname, hsummary, Application.wanted?, hempty]

/-- When an application closes, it asks for its desktop entry if it wants one. -/
theorem Follows.queries_stop (h : context.Follows frames) (hwell : context.pool.WellFormed)
    (hopens : context.OpensRecord application.tag.name application.tag.attributes)
    (settings : IngestSettings) :
    (((context.start application.tag.name application.tag.attributes).run settings
      application.content.events).stop settings).queries =
        context.queries ++ (application.query? settings).toList := by
  obtain ⟨transition, -, hstart, -⟩ := h.start_of_opensRecord hopens
  obtain ⟨hdrafts, hat⟩ := h.drafts_start hwell hopens
  have hcontent : IsScript application.content.events := ⟨_, List.prefix_refl _⟩
  obtain ⟨-, -, -, hqueries⟩ := h.run_opened settings hopens hcontent
  obtain ⟨description, content, captures, hinner⟩ :=
    hat.says_content hdrafts.isOpen settings application.content
  have hshows := (hwell.shows_addRecord.write
    (.text .category (categoryOf application.tag.attributes))).foldl_write
      application.content.details
  rw [(hdrafts.run_children hat settings application.content).queries_stop
    (hat.run settings application.content) settings, hqueries, hinner, hstart]
  exact congrArg (fun query => context.queries ++ query.toList) (query?_said hshows rfl settings)

/-- The last event of a document so far advances the reading, and the tags tell whether it closes a
record. -/
theorem advance_last (settings : IngestSettings) (pool : Pool) {events : List Event} {event : Event}
    (h : IsScript (events ++ [event])) :
    let context := (initial pool).run settings events
    Advance context (context.step settings event) ∧
      StartTag.closesRecord (events.foldl StartTag.follow []) event =
        (context.record.isSome && (context.step settings event).record.isNone) := by
  intro context
  obtain ⟨names, hnames⟩ := isScript_iff.mp h
  rw [openNames_append] at hnames
  obtain ⟨inner, hinner, hlast⟩ := Option.bind_eq_some_iff.mp hnames
  obtain ⟨hfollows, hlength⟩ := (follows_initial pool).run settings rfl hinner
  change context.Follows (followAll (StartTag.frames []) events) at hfollows
  have hframes := StartTag.frames_followAll [] events
  rw [← hframes] at hfollows
  have hstop : ∀ name, event = .stop name → events.foldl StartTag.follow [] ≠ [] := by
    rintro name rfl hnil
    obtain ⟨outer, houter, -⟩ := Option.bind_eq_some_iff.mp hlast
    rw [hnil] at hframes
    rw [nest_stop_eq_some.mp houter] at hlength
    change ([] : List Frame) = followAll [] events at hframes
    rw [← hframes] at hlength
    contradiction
  refine ⟨hfollows.advance settings fun name hevent hnil => hstop name hevent ?_,
    hfollows.closesRecord_eq settings hstop⟩
  have hzero := StartTag.length_frames (events.foldl StartTag.follow [])
  rw [hnil] at hzero
  exact List.length_eq_zero_iff.mp hzero.symm

/-- The applications that are closed ask one after the other, whatever the answers are. -/
theorem queries_run (settings : IngestSettings) (hpool : pool.WellFormed) {document : Fragment}
    {events : List Event} (hevents : events <+: document.events) :
    ((initial pool).run settings events).queries =
      (document.recorded.take (StartTag.closedRecords [] events)).filterMap
        (Application.query? settings) := by
  induction events using List.reverseRecOn with
  | nil => rfl
  | append_singleton events event ih =>
      have hscript : IsScript (events ++ [event]) := ⟨document, hevents⟩
      have hearlier := ih ((List.prefix_append events [event]).trans hevents)
      obtain ⟨hadvance, hmatches⟩ := advance_last settings pool hscript
      rw [StartTag.closedRecords_append, StartTag.closedRecords, run_append]
      cases hcloses : StartTag.closesRecord (events.foldl StartTag.follow []) event with
      | false =>
          refine Eq.trans ?_ hearlier
          cases hadvance with
          | idle hsame hnext hcompleted hqueries => exact hqueries
          | opened id hid hrecord hedited hnext hcompleted hqueries => exact hqueries
          | edited id hrecord hedited hnext hcompleted hqueries => exact hqueries
          | closed id hrecord hedited hnext hcompleted =>
              rw [hcloses, hrecord, hnext] at hmatches
              contradiction
      | true =>
          obtain ⟨application, before, happlication, hmem, hstands⟩ :=
            exists_stands_of_closes hevents hcloses
          obtain ⟨hopens, -⟩ := hstands.opensRecord hmem hscript settings pool
          have hsplit : events ++ [event] =
              (before ++ .start application.tag.name application.tag.attributes ::
                application.content.events) ++ [.stop application.tag.name] := by
            simp [hstands.split, Application.Stands.document_events]
          obtain ⟨rfl, hlast⟩ := List.append_inj' hsplit rfl
          obtain rfl := List.head_eq_of_cons_eq hlast
          have hbefore : IsScript before := hscript.of_append.of_append
          have hfollows := follows_run settings pool hbefore
          have hwell := (sound_run settings hpool hbefore).pool
          have hcontent : IsScript application.content.events := ⟨_, List.prefix_refl _⟩
          obtain ⟨-, -, -, hinside⟩ := hfollows.run_opened settings hopens hcontent
          rw [run_append, run_cons] at hearlier ⊢
          refine (hfollows.queries_stop hwell hopens settings).trans ?_
          rw [← hinside, Bool.toNat_true, StartTag.closedRecords, Nat.add_zero, List.take_add_one,
            happlication, List.filterMap_append, ← hearlier]
          rfl

end Context

/-- A document that is given up is asked for nothing more. -/
theorem queries_ingestReading (settings : IngestSettings) (pool : Pool) (events : List Event)
    (failure : Option Failure) :
    (ingestReading settings pool ⟨events, failure⟩).queries =
      ((Context.initial pool).run settings events).queries := by
  cases failure with
  | none => rfl
  | some failure =>
      change ((Context.initial pool).run settings events).abort.queries = _
      rw [Context.abort]
      split <;> rfl

end Metainfo
