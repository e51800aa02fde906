import Metainfo.Proofs.Ingest.Completion
import Metainfo.Proofs.Ingest.Details

/-!
The relations of the record of an open application. Only its package names and its id matter for
them, and they are as if nothing else were in the document.
-/

namespace Metainfo

open Metainfo.Markup

namespace Completion

/-- Of all details only the package names add targets, each name once. -/
theorem linked_foldl_write {pool : Pool} {record : RecordId} {arch version : Option StringId}
    {targets : List String} (h : pool.Linked record arch version id targets)
    (details : List Detail) :
    (details.foldl (Detail.write record) pool).Linked record arch version id
      ((details.filterMap Detail.package?).foldl addNew targets) := by
  induction details generalizing pool targets with
  | nil => exact h
  | cons detail details ih =>
      cases detail with
      | id value => exact ih h
      | package value => exact ih (linked_linkPackage h value)
      | name value => exact ih (linked_setNameText h value)
      | text key value => exact ih (h.setText key value)
      | item key value => exact ih (h.addToList key value)

end Completion

namespace Context

variable {settings : IngestSettings} {context : Context} {record : RecordId}
  {found : Option String} {targets : List String} {name : String} {attributes : Attributes}

/-- A record is open, with the id found so far and the targets to which it is tied so far. -/
structure Drafts (context : Context) (record : RecordId) (found : Option String)
    (targets : List String) : Prop where
  isOpen : context.record = some record
  lastId : context.findings.id = found
  linked : context.pool.Linked record none none id targets

namespace Drafts

theorem shallower (h : context.Drafts record found targets) :
    context.shallower.Drafts record found targets :=
  ⟨h.isOpen, h.lastId, h.linked⟩

/-- The content of an application leaves the last id and the package names, each name once. -/
theorem run_children (h : context.Drafts record found targets) (hat : context.At .application)
    (settings : IngestSettings) (fragment : Fragment) :
    (context.run settings fragment.events).Drafts record
      ((fragment.childValues "id").getLast?.or found)
      ((fragment.childValues "pkgname").foldl addNew targets) := by
  obtain ⟨description, content, captures, hrun⟩ := hat.says_content h.isOpen settings fragment
  rw [hrun, ← fragment.ids_details, ← fragment.packages_details]
  refine ⟨h.isOpen, ?_, Completion.linked_foldl_write h.linked fragment.details⟩
  rw [← h.lastId]
  exact Detail.id_foldl_note fragment.details context.findings

theorem stop_application (h : context.Drafts record found targets)
    (hat : context.At .application) (settings : IngestSettings) :
    (context.stop settings).pool =
        Completion.complete settings context.findings context.pool record ∧
      (context.stop settings).completed = context.completed ++ [record] := by
  rw [stop_known hat.depth hat.skipDepth, leave_of_some settings h.shallower.isOpen, leaveIn,
    element_shallower, hat.element]
  exact ⟨rfl, rfl⟩

end Drafts

theorem linked_addRecord {pool : Pool} (h : pool.WellFormed) :
    pool.addRecord.2.Linked pool.addRecord.1 none none id [] := by
  have hrecord : pool.addRecord.2.record? pool.addRecord.1 = some .empty := by
    simp [Pool.record?_addRecord]
  refine ⟨h.addRecord, Pool.isLive_iff.mpr ⟨_, hrecord⟩, ?_, ?_, ?_, ?_, ?_⟩
  · rw [Pool.arch?, hrecord]
    rfl
  · rw [Pool.version?, hrecord]
    rfl
  · rw [Pool.name?, hrecord]
    simp [Record.empty]
  · rw [Pool.requires, hrecord]
    rfl
  · rw [Pool.provides, hrecord]
    rfl

/-- The start tag of an application allocates its record. -/
theorem Follows.start_of_opensRecord {frames : List Frame} (h : context.Follows frames)
    (hopens : context.OpensRecord name attributes) :
    ∃ transition, transition.target = .application ∧
      context.start name attributes =
        { context.inside transition none with
          pool := context.pool.addRecord.2.setText context.pool.addRecord.1 .category
            (categoryOf attributes)
          record := some context.pool.addRecord.1
          findings := noFindings } ∧
      (context.start name attributes).At .application := by
  obtain ⟨hopened, houter⟩ := h.opened_of_opensRecord hopens
  obtain ⟨hdepth, hlocalized, transition, htransition, htarget⟩ := h.transition_of_known hopened
  have hskip := h.skipDepth.trans (Frame.outermostLocalized_eq_none.mpr houter)
  rw [start_known hdepth htransition hskip hlocalized]
  exact ⟨transition, htarget,
    (context.inside transition none).enter_application attributes htarget,
    htarget ▸ context.at_inside transition attributes⟩

/-- A record begins without an id and without targets. -/
theorem Follows.drafts_start {frames : List Frame} (h : context.Follows frames)
    (hwell : context.pool.WellFormed) (hopens : context.OpensRecord name attributes) :
    (context.start name attributes).Drafts context.pool.addRecord.1 none [] ∧
      (context.start name attributes).At .application := by
  obtain ⟨transition, -, hstart, hat⟩ := h.start_of_opensRecord hopens
  refine ⟨?_, hat⟩
  rw [hstart]
  exact ⟨rfl, rfl, (linked_addRecord hwell).setText _ _⟩

end Context

end Metainfo
