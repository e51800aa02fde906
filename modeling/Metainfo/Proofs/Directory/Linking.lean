import Metainfo.Proofs.Directory.Batch

/-!
The links of the records of a directory. A document is tied to the records that listed its file
before the run, by the names that they had then; neither the place of the directory below a root
nor what the documents before it come to has a part in it.
-/

namespace Metainfo

open Metainfo.Markup
open Metainfo.Naming
open Metainfo.Utf8

/-- The names of the records that list a file, each once, in the order of the records. -/
def Pool.namesListing (pool : Pool) (path : String) : List String :=
  ((pool.recordsListing path).filterMap fun record =>
    (pool.name? record).bind pool.resolve?).eraseDups

theorem IngestSettings.OwnersLive.ownerNames_nil {settings : IngestSettings} {pool : Pool}
    (h : settings.OwnersLive pool) :
    settings.ownerNames pool [] =
      settings.owners.filterMap fun owner => (pool.name? owner).bind pool.resolve? :=
  List.filterMap_congr fun _ howner => h.ownerName?_eq howner []

/-- A record without packages of its own requires its owners, else its file. -/
theorem Application.requires_portrait_of_no_packages {settings : IngestSettings}
    {application : Application} (h : application.packages = []) {filename : String}
    (hfilename : settings.filename = some filename) (owners : List String) :
    (application.portrait settings owners).requires =
      (if owners.eraseDups = [] then ["appdata(" ++ filename ++ ")"] else owners.eraseDups).map
        fun name => ⟨name, none⟩ := by
  rw [portrait, targets, h, Completion.targets, if_neg (by simp), Completion.fileTarget, hfilename]
  cases owners with
  | nil => rfl
  | cons owner owners =>
      rw [if_pos (List.cons_ne_nil _ _), List.eraseDups_cons, if_neg (List.cons_ne_nil _ _)]
      refine List.map_congr_left fun name _ => ?_
      rw [Completion.requirement, if_neg (by simp)]

namespace DirectoryIngest

/-- The names of the owners of a document are those of the records that list its file. -/
theorem names_of_job? {settings : DirectoryIngest} {files : Files} {pool : Pool} {path : Path}
    {directory name : String} {job : Job} (hpool : pool.WellFormed)
    (hsearch : settings.flags.searchFileLists = true) (haccepted : isMetadataFile name = true)
    (hslash : '/' ∉ name.toList)
    (hjob : settings.job? files path (settings.candidates pool (.ofString directory)) name =
      some job) :
    (job.settings.owners.filterMap fun owner => (pool.name? owner).bind pool.resolve?).eraseDups =
      pool.namesListing (trimmedDirectory directory ++ "/" ++ name) := by
  have hdisplay : (Path.ofString directory).display = directory := lossy_encode directory
  rw [eq_of_job? hjob, candidates, if_pos hsearch, hdisplay]
  exact Pool.eraseDups_searchFiles hpool hslash (hasMetadataEnding_of_isMetadataFile haccepted) _

/-- Each record that a document completes is that of one of its applications. If this names no
package, the record requires the names of the records that list the file of the document beforehand,
or the file itself if there are none. -/
theorem poolLeft_links_owners (settings : DirectoryIngest) (files : Files) (pool : Pool)
    (directory name : String) {names : List (List UInt8)} {before after : List String} {job : Job}
    (hpool : pool.Reachable) (hsearch : settings.flags.searchFileLists = true)
    (hlist : files.list (settings.lookupPath (.ofString directory)) = .ok names)
    (hvisited : documentNames names = before ++ name :: after) (hslash : '/' ∉ name.toList)
    (hknown : ∀ record ∈ pool.recordsListing (trimmedDirectory directory ++ "/" ++ name),
      ∀ number, pool.name? record = some number → pool.Knows number) :
    let path := settings.lookupPath (.ofString directory)
    let jobs := settings.job? files path (settings.candidates pool (.ofString directory))
    let owners := pool.namesListing (trimmedDirectory directory ++ "/" ++ name)
    let final := settings.poolLeft files pool (.ofString directory)
    jobs name = some job →
      ∀ document : Fragment, (Markup.read job.source).events <+: document.events →
        ∀ (index : Nat) (record : RecordId),
          (job.completed (poolAfter pool (before.filterMap jobs)))[index]? = some record →
            ∃ application : Application, document.recorded[index]? = some application ∧
              (application.packages = [] →
                (final.requires record).map final.spell? =
                  (if owners = [] then ["appdata(" ++ name ++ ")"] else owners).map
                    fun name => some ⟨name, none⟩) := by
  intro path jobs owners final hjob document hdocument index record hrecord
  have hjobs : (documentNames names).filterMap jobs =
      before.filterMap jobs ++ job :: after.filterMap jobs := by
    rw [hvisited, List.filterMap_append, List.filterMap_cons, hjob]
  have haccepted : isMetadataFile name = true := by
    have hmem : name ∈ documentNames names := hvisited ▸ List.mem_append_right _ List.mem_cons_self
    exact (List.mem_filter.mp ((perm_documentNames names).mem_iff.mp hmem)).2
  have howners : job.settings.OwnersLive pool := by
    refine ownersLive_of_job? hpool.wellFormed hjob fun owner howner => ?_
    have hlisted := mem_recordsListing_of_job? hpool.wellFormed hjob howner
    rw [show (Path.ofString directory).display = directory from lossy_encode directory] at hlisted
    exact hknown owner hlisted
  have hsince := since_poolAfter hpool.wellFormed (before.filterMap jobs)
  obtain ⟨hlater, hsame⟩ := howners.kept hsince.kept
  obtain ⟨hlt, hnumber⟩ := completedRecords_getElem? hrecord
  obtain ⟨application, hplace⟩ : ∃ application,
      (document.recorded.take job.count)[index]? = some application := by
    rw [← length_take_recorded hdocument] at hlt
    exact ⟨_, List.getElem?_eq_getElem hlt⟩
  have hdepicts := ingest_portraits job.settings hsince.wellFormed hlater hdocument hplace
  rw [hsame, ← hnumber] at hdepicts
  have hkept := (since_poolAfter (since_ingest hsince.wellFormed job).wellFormed
    (after.filterMap jobs)).kept record hdepicts.isLive
  have hfinal : final.Depicts record
      (application.portrait job.settings (job.settings.ownerNames pool [])) := by
    refine depicts_poolLeft hpool.wellFormed hlist ?_
    rw [hjobs, poolAfter_append, poolAfter_cons]
    exact hdepicts.kept hkept
  refine ⟨application, (List.getElem?_take_of_lt hlt).symm.trans hplace, fun hpackages => ?_⟩
  have hfilename : job.settings.filename = some name := by rw [eq_of_job? hjob, documentSettings]
  rw [hfinal.requires, Application.requires_portrait_of_no_packages hpackages hfilename,
    howners.ownerNames_nil, names_of_job? hpool.wellFormed hsearch haccepted hslash hjob,
    List.map_map]
  rfl

/-- A directory below a root. The malformed document that comes first is listed by no record. -/
theorem poolLeft_links_owners_below_root :
    let broken := Source.ofBytes (encode "<components><component/></oops>")
    let sound := Source.ofBytes (encode "<component><id>foo.desktop</id></component>")
    let files := Files.ofDocuments (.ofString "r/m")
      [("a.metainfo.xml", broken), ("b.metainfo.xml", sound)]
    let named := Pool.empty.addRecord.2.intern "foo-data"
    let pool := (named.2.setName ⟨0⟩ named.1).addToList ⟨0⟩ .files "m/b.metainfo.xml"
    let settings := (ofFlags { Flags.none with searchFileLists := true, useRoot := true }).withRoot
      (.ofString "r")
    let final := settings.poolLeft files pool (.ofString "m/")
    (final.requires ⟨1⟩).map final.spell? = [some ⟨"appdata(a.metainfo.xml)", none⟩] ∧
      (final.requires ⟨2⟩).map final.spell? = [some ⟨"foo-data", none⟩] := by
  intro broken sound files named pool settings final
  have hreachable : pool.Reachable :=
    ⟨[.addRecord, .intern "foo-data", .setName ⟨0⟩ named.1,
      .addToList ⟨0⟩ .files "m/b.metainfo.xml"], rfl⟩
  have hlookup : settings.lookupPath (.ofString "m/") = .ofString "r/m" := by decide +kernel
  have hlist : files.list (settings.lookupPath (.ofString "m/")) =
      .ok (["a.metainfo.xml", "b.metainfo.xml"].map encode) := by
    rw [hlookup]
    exact Files.list_ofDocuments _ _
  have hvisited (before : List String) {name : String} {after : List String}
      (h : ["a.metainfo.xml", "b.metainfo.xml"] = before ++ name :: after) :
      documentNames (["a.metainfo.xml", "b.metainfo.xml"].map encode) = before ++ name :: after :=
    (documentNames_of_accepted (by decide +kernel) (by decide)).trans h
  have hsearch (strings : Interner) (name : StringId) :
      let pool := (({ Pool.empty.addRecord.2 with strings } : Pool).setName ⟨0⟩ name).addToList ⟨0⟩
        .files "m/b.metainfo.xml"
      pool.searchFiles (Path.ofString "m/").display = [(⟨0⟩, "b.metainfo.xml")] ∧
        pool.recordsListing "m/a.metainfo.xml" = [] ∧
        pool.recordsListing "m/b.metainfo.xml" = [⟨0⟩] := by
    refine ⟨?_, ?_, ?_⟩ <;> cbv
  obtain ⟨hcandidates, hunlisted, hlisting⟩ := hsearch named.2.strings named.1
  change settings.candidates pool (.ofString "m/") = [(⟨0⟩, "b.metainfo.xml")] at hcandidates
  change pool.recordsListing "m/a.metainfo.xml" = [] at hunlisted
  change pool.recordsListing "m/b.metainfo.xml" = [⟨0⟩] at hlisting
  have hresolve : pool.resolve? named.1 = some "foo-data" :=
    Pool.wellFormed_empty.strings.resolve?_intern "foo-data"
  have hname : pool.name? ⟨0⟩ = some named.1 := rfl
  let first : Job := ⟨settings.documentSettings files "a.metainfo.xml" [], broken⟩
  let second : Job := ⟨settings.documentSettings files "b.metainfo.xml" [⟨0⟩], sound⟩
  let jobs := settings.job? files (settings.lookupPath (.ofString "m/"))
    (settings.candidates pool (.ofString "m/"))
  have hfirst : jobs "a.metainfo.xml" = some first := by
    simp only [jobs]
    rw [hlookup, hcandidates]
    rfl
  have hsecond : jobs "b.metainfo.xml" = some second := by
    simp only [jobs]
    rw [hlookup, hcandidates]
    rfl
  constructor
  · let document : Fragment :=
      .element "components" .empty (.element "component" .empty .empty .empty) .empty
    have hfile : trimmedDirectory "m/" ++ "/" ++ "a.metainfo.xml" = "m/a.metainfo.xml" := by
      decide +kernel
    have hnames : pool.namesListing "m/a.metainfo.xml" = [] := by
      rw [Pool.namesListing, hunlisted]
      rfl
    have hcompleted : (first.completed (poolAfter pool []))[0]? = some ⟨1⟩ := by
      rw [Job.completed, completedRecords_eq]
      decide +kernel
    have hknown : ∀ record ∈ pool.recordsListing (trimmedDirectory "m/" ++ "/" ++ "a.metainfo.xml"),
        ∀ number, pool.name? record = some number → pool.Knows number := by
      simp [hfile, hunlisted]
    obtain ⟨found, hfound, hlinks⟩ := poolLeft_links_owners settings files pool "m/"
      "a.metainfo.xml" hreachable rfl hlist (hvisited [] rfl) (by decide) hknown hfirst document
      (by decide +kernel) 0 ⟨1⟩ hcompleted
    have hrecorded : document.recorded = [⟨⟨"component", .empty⟩, .empty⟩] := by cbv
    rw [hrecorded] at hfound
    obtain rfl := Option.some.inj hfound
    have hrequires := hlinks rfl
    rw [hfile, hnames] at hrequires
    exact hrequires
  · let application : Application :=
      ⟨⟨"component", .empty⟩, .element "id" .empty (.text "foo.desktop" .empty) .empty⟩
    have hfile : trimmedDirectory "m/" ++ "/" ++ "b.metainfo.xml" = "m/b.metainfo.xml" := by
      decide +kernel
    have hnames : pool.namesListing "m/b.metainfo.xml" = ["foo-data"] := by
      rw [Pool.namesListing, hlisting, List.filterMap_cons, hname, Option.bind_some, hresolve]
      rfl
    have hknown : ∀ record ∈ pool.recordsListing (trimmedDirectory "m/" ++ "/" ++ "b.metainfo.xml"),
        ∀ number, pool.name? record = some number → pool.Knows number := by
      intro record hrecord number hnumber
      rw [hfile, hlisting] at hrecord
      obtain rfl := List.mem_singleton.mp hrecord
      obtain rfl := Option.some.inj hnumber
      exact ⟨"foo-data", hresolve⟩
    have hearlier : ["a.metainfo.xml"].filterMap jobs = [first] := by
      rw [List.filterMap_cons, hfirst]
      rfl
    have hcompleted : (second.completed (poolAfter pool [first]))[0]? = some ⟨2⟩ := by
      rw [Job.completed, completedRecords_eq,
        (since_poolAfter hreachable.wellFormed [first]).nextRecords]
      decide +kernel
    rw [← hearlier] at hcompleted
    obtain ⟨found, hfound, hlinks⟩ := poolLeft_links_owners settings files pool "m/"
      "b.metainfo.xml" hreachable rfl hlist (hvisited ["a.metainfo.xml"] rfl) (by decide) hknown
      hsecond application.document (by decide +kernel) 0 ⟨2⟩ hcompleted
    have hrecorded : application.document.recorded = [application] :=
      application.recorded_document (by decide)
    rw [hrecorded] at hfound
    obtain rfl := Option.some.inj hfound
    have hrequires := hlinks (by decide +kernel)
    rw [hfile, hnames] at hrequires
    exact hrequires

/-- The owner of a document has no name to be found before the run, but its name has the number
that the pool gives out next, and so the record is tied to itself instead of to its file. -/
theorem poolLeft_links_unissued :
    let source := Source.ofBytes (encode "<component><id>foo.desktop</id></component>")
    let files := Files.ofDocuments (.ofString "d") [("a.metainfo.xml", source)]
    let pool := (Pool.empty.addRecord.2.setName ⟨0⟩ ⟨4⟩).addToList ⟨0⟩ .files "d/a.metainfo.xml"
    let settings := ofFlags { Flags.none with searchFileLists := true }
    let final := settings.poolLeft files pool (.ofString "d")
    pool.Reachable ∧ pool.namesListing "d/a.metainfo.xml" = [] ∧
      (final.requires ⟨1⟩).map final.spell? = [some ⟨"application:foo", none⟩] := by
  intro source files pool settings final
  have hpool : pool.Reachable :=
    ⟨[.addRecord, .setName ⟨0⟩ ⟨4⟩, .addToList ⟨0⟩ .files "d/a.metainfo.xml"], rfl⟩
  have hcandidates : settings.candidates pool (.ofString "d") = [(⟨0⟩, "a.metainfo.xml")] := by cbv
  have hnone : pool.namesListing "d/a.metainfo.xml" = [] := by
    have hlisting : pool.recordsListing "d/a.metainfo.xml" = [⟨0⟩] := by cbv
    have hname : pool.name? ⟨0⟩ = some ⟨4⟩ := rfl
    have hresolve : pool.resolve? ⟨4⟩ = none := Interner.resolve?_initial
    rw [Pool.namesListing, hlisting, List.filterMap_cons, hname, Option.bind_some, hresolve]
    rfl
  let application : Application :=
    ⟨⟨"component", .empty⟩, .element "id" .empty (.text "foo.desktop" .empty) .empty⟩
  let job : Job := ⟨settings.documentSettings files "a.metainfo.xml" [⟨0⟩], source⟩
  have hread : Markup.read source = ⟨application.document.events, none⟩ := by decide +kernel
  have hlist : files.list (settings.lookupPath (.ofString "d")) =
      .ok (["a.metainfo.xml"].map encode) := Files.list_ofDocuments _ _
  have hjobs : (documentNames (["a.metainfo.xml"].map encode)).filterMap (settings.job? files
      (settings.lookupPath (.ofString "d")) (settings.candidates pool (.ofString "d"))) =
      [job] := by
    have hnames : documentNames (["a.metainfo.xml"].map encode) = ["a.metainfo.xml"] :=
      documentNames_of_accepted (by decide +kernel) (by decide)
    rw [hnames, hcandidates]
    rfl
  have howners : job.settings.owners = [⟨0⟩] := rfl
  have hdetails : application.content.details = [.id "foo.desktop"] := by decide +kernel
  have hnext : pool.name? ⟨0⟩ = some (pool.strings.intern "application:foo").1 :=
    congrArg some (Interner.intern_initial (by decide)).symm
  obtain ⟨plain, hrequires, hdepicts⟩ := exists_depicts_next hread hpool.wellFormed (by decide)
    (by decide +kernel) howners (by decide) hdetails (by decide +kernel) hnext
  have hfinal : final.Depicts ⟨1⟩ plain := by
    refine depicts_poolLeft hpool.wellFormed hlist ?_
    rw [hjobs]
    exact hdepicts
  exact ⟨hpool, hnone, hfinal.requires.trans (congrArg (List.map some) hrequires)⟩

end DirectoryIngest

end Metainfo
