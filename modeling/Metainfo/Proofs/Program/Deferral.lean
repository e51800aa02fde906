import Metainfo.Proofs.Directory.Batch
import Metainfo.Proofs.Program.Documents

/-!
When the staged writes are carried out cannot be told from what comes of documents: not from those
that are ingested in turn, not from a directory, and not from what the program puts out.
-/

namespace Metainfo

/-- Two computations fail in the same way, or succeed with results that are related. -/
inductive SameEnd {Error Result : Type} (relation : Result → Result → Prop) :
    Except Error Result → Except Error Result → Prop where
  | failed (error : Error) : SameEnd relation (.error error) (.error error)
  | done {result other : Result} (h : relation result other) :
      SameEnd relation (.ok result) (.ok other)

/-- What related results have in common is the same in the end. -/
theorem SameEnd.map_eq {Error Result Shown : Type} {relation : Result → Result → Prop}
    {first second : Except Error Result} (h : SameEnd relation first second)
    {shown : Result → Shown}
    (hshown : ∀ result other, relation result other → shown other = shown result) :
    second.map shown = first.map shown := by
  cases h with
  | failed => rfl
  | done h => exact congrArg Except.ok (hshown _ _ h)

theorem SameEnd.bind {Error Result Next : Type} {relation : Result → Result → Prop}
    {related : Next → Next → Prop} {first second : Except Error Result}
    (h : SameEnd relation first second) {next nextOther : Result → Except Error Next}
    (hnext : ∀ result other, relation result other →
      SameEnd related (next result) (nextOther other)) :
    SameEnd related (first >>= next) (second >>= nextOther) := by
  cases h with
  | failed error => exact .failed error
  | done h => exact hnext _ _ h

namespace DirectoryIngest

def deferring (settings : DirectoryIngest) (defer : Bool) : DirectoryIngest :=
  { settings with flags := settings.flags.deferring defer }

/-- Two runs over a directory have the same to report and leave pools that are alike. -/
structure Progress.Alike (progress other : Progress) : Prop where
  report : other.report = progress.report
  queries : other.queries = progress.queries
  pool : progress.pool.Alike other.pool

theorem run_deferring (settings : DirectoryIngest) (files : Files) {pool : Pool}
    (hpool : pool.Coherent) (directory : Path) (defer : Bool) :
    SameEnd Progress.Alike (settings.run files pool directory)
      ((settings.deferring defer).run files pool directory) := by
  cases hlist : files.list (settings.lookupPath directory) with
  | error error =>
      rw [run_of_list_error pool hlist,
        @run_of_list_error (settings.deferring defer) _ _ pool _ hlist]
      exact .failed _
  | ok names =>
      rw [run_of_list_ok pool hlist, @run_of_list_ok (settings.deferring defer) _ _ pool _ hlist]
      refine .done ⟨rfl, rfl, ?_⟩
      exact (Pool.Alike.refl (coherent_poolAfter hpool _)).carriedOut settings.flags.deferWrites
        defer

end DirectoryIngest

def Config.deferring (config : Config) (defer : Bool) : Config :=
  { config with deferWrites := defer }

namespace Program

/-- Two runs have the same to say and leave pools that are alike. -/
structure Progress.Alike (progress other : Progress) : Prop where
  clean : other.clean = progress.clean
  messages : other.messages = progress.messages
  pool : progress.pool.Alike other.pool

theorem ingestDocuments_deferring (files : Files) (flags : Flags) (desktopFiles : DesktopFiles)
    (input : Source) (paths : List Path) (defer : Bool) :
    (ingestDocuments files flags desktopFiles .empty input paths).Alike
      (ingestDocuments files (flags.deferring defer) desktopFiles .empty input paths) := by
  obtain ⟨hpool, hclean⟩ := ingestDocuments_spec files flags desktopFiles .empty input paths
  obtain ⟨hother, hotherClean⟩ :=
    ingestDocuments_spec files (flags.deferring defer) desktopFiles .empty input paths
  refine ⟨hotherClean.trans hclean.symm, ?_, ?_⟩
  · simp only [ingestDocuments]
    split <;> split <;> rfl
  · rw [hpool, hother]
    exact (Pool.Alike.refl (coherent_poolAfter Pool.coherent_empty _)).carriedOut
      flags.deferWrites defer

theorem ingestDirectory_deferring (files : Files) (config : Config) (input : Source)
    (path : Option Path) (defer : Bool) :
    SameEnd Progress.Alike (ingestDirectory files config input path)
      (ingestDirectory files (config.deferring defer) input path) := by
  have hsettings : directoryIngest files (config.deferring defer) =
      (directoryIngest files config).deferring defer := by
    obtain ⟨root, _⟩ := config
    cases root <;> rfl
  have hrun := (directoryIngest files config).run_deferring files Pool.coherent_empty
    (path.getD config.appdataDir) defer
  rw [← hsettings] at hrun
  refine hrun.bind fun progress other h => .done ⟨?_, ?_, h.pool⟩
  · exact congrArg Report.isClean h.report
  · exact congrArg (fun report => report.problems.map Problem.display) h.report

/-- What a command comes to, up to the way in which its pool holds it. -/
theorem ingestCommand_deferring (machine : Machine) (config : Config) (command : Command)
    (defer : Bool) :
    SameEnd Progress.Alike (ingestCommand machine config command)
      (ingestCommand machine (config.deferring defer) command) := by
  cases command with
  | documents paths =>
      exact .done (ingestDocuments_deferring machine.files config.flags (desktopFiles config)
        machine.input paths defer)
  | directory path => exact ingestDirectory_deferring machine.files config machine.input path defer

theorem Progress.Alike.render {progress other : Progress} (h : progress.Alike other)
    (json : Bool) : Program.render json other.pool = Program.render json progress.pool := by
  rw [Program.render, Program.render, h.pool.views]

/-- Two machines with the same files, on which the settings differ only in whether writes stay
staged, put out the same. -/
theorem runWith_deferring {machine other : Machine} {options otherOptions : Options}
    (hfiles : other.files = machine.files) (hinput : other.input = machine.input)
    (hcommand : otherOptions.command = options.command)
    (hjson : otherOptions.switches.json = options.switches.json) (defer : Bool)
    (hsettings : settings other otherOptions.switches =
      (settings machine options.switches).map (·.deferring defer)) :
    runWith other otherOptions = runWith machine options := by
  have hmachine (config : Config) :
      ingestCommand other config options.command =
        ingestCommand machine config options.command := by
    cases options.command <;> simp only [ingestCommand, hfiles, hinput]
  rw [runWith, runWith, hsettings]
  cases settings machine options.switches with
  | error error => rfl
  | ok config =>
      simp only [Except.map, hcommand, hjson, hmachine]
      match ingestCommand machine config options.command,
        ingestCommand machine (config.deferring defer) options.command,
        ingestCommand_deferring machine config options.command defer with
      | _, _, .failed _ => rfl
      | _, _, .done h => simp only [h.render, h.clean, h.messages]

end Program

/-- Documents that are ingested in turn come to the same whether their writes stay staged, are
carried out when all are done, or are carried out after each: they end alike, and nothing that can
be seen of the pool tells the one from the other. So a directory has the same report and shows the
same, and the program puts out the same, whether or not the writes stay staged. -/
theorem deferral_unobservable (pool : Pool) (hpool : pool.Reachable) (hclosed : pool.Closed) :
    (∀ jobs : List Job,
      let deferred := jobs.map (·.deferring true)
      let immediate := jobs.map (·.deferring false)
      let staged := poolAfter pool deferred
      (ingestInTurn pool immediate).map Ingested.result =
          (ingestInTurn pool deferred).map Ingested.result ∧
        (ingestInTurn pool immediate).map Ingested.queries =
          (ingestInTurn pool deferred).map Ingested.queries ∧
        ∀ final ∈ [staged.internalize, poolAfter pool immediate],
          final.records = staged.records ∧ (∀ id, final.view id = staged.view id) ∧
            final.observe = staged.observe ∧
            ∀ directory, final.searchFiles directory = staged.searchFiles directory) ∧
    (∀ (settings : DirectoryIngest) (files : Files) (directory : Path),
      let shown (progress : DirectoryIngest.Progress) :=
        (progress.report, progress.queries, progress.pool.views, progress.pool.observe,
          progress.pool.searchFiles)
      ((settings.deferring false).run files pool directory).map shown =
        ((settings.deferring true).run files pool directory).map shown) ∧
    ∀ (machine other : Machine) (options otherOptions : Options) (defer : Bool),
      other.files = machine.files → other.input = machine.input →
        otherOptions.command = options.command →
          otherOptions.switches.json = options.switches.json →
            Program.settings other otherOptions.switches =
                (Program.settings machine options.switches).map (·.deferring defer) →
              Program.runWith other otherOptions = Program.runWith machine options := by
  have hcoherent : pool.Coherent := ⟨hpool.wellFormed, hclosed⟩
  refine ⟨fun jobs => ?_, fun settings files directory => ?_, ?_⟩
  · intro deferred immediate staged
    have hsame : immediate = deferred.map (·.deferring false) := by
      simp only [deferred, immediate, List.map_map]
      rfl
    obtain ⟨hingested, hafter⟩ := alike_ingestInTurn (.refl hcoherent) deferred false
    rw [← hsame] at hingested hafter
    refine ⟨Ingested.Alike.map_eq (fun _ _ h => h.result) hingested,
      Ingested.Alike.map_eq (fun _ _ h => h.queries) hingested, fun final hfinal => ?_⟩
    have halike : staged.Alike final := by
      rcases List.mem_pair.mp hfinal with rfl | rfl
      · exact hafter.left.alike_internalize
      · exact hafter
    exact ⟨halike.records, congrFun halike.view, halike.observe, congrFun halike.searchFiles⟩
  · intro shown
    have hrun := (settings.deferring true).run_deferring files hcoherent directory false
    refine hrun.map_eq fun progress other h => ?_
    simp only [shown, h.report, h.queries, h.pool.views, h.pool.observe, h.pool.searchFiles]
  · intro machine other options otherOptions defer hfiles hinput hcommand hjson hsettings
    exact Program.runWith_deferring hfiles hinput hcommand hjson defer hsettings

/-- A pool whose record lists a document, that document behind a malformed one, and a variable
that keeps the writes of the program staged. -/
theorem deferral_unobservable_malformed :
    let broken := Source.ofBytes (Utf8.encode "<components><component/></oops>")
    let sound := Source.ofBytes (Utf8.encode "<component><id>foo.desktop</id></component>")
    let pool := Pool.empty.addRecord.2.addToList ⟨0⟩ .files "m/b.metainfo.xml"
    let jobs : List Job := [⟨.ofFlags .none, broken⟩,
      ⟨{ IngestSettings.ofFlags .none with owners := [⟨0⟩] }, sound⟩]
    let machine (environment : List (String × String)) : Machine :=
      ⟨.none, .ofString "", environment, sound⟩
    let options : Options :=
      ⟨.documents [Program.inputPath], ⟨none, none, false, false, true, 0⟩⟩
    (∀ id, (poolAfter pool (jobs.map (·.deferring false))).view id =
        (poolAfter pool (jobs.map (·.deferring true))).view id) ∧
      Program.runWith (machine [("APPDATA_DEFER_INTERNALIZE", "true")]) options =
        Program.runWith (machine []) options := by
  intro broken sound pool jobs machine options
  have hpool : pool.Reachable :=
    ⟨[.addRecord, .addToList ⟨0⟩ .files "m/b.metainfo.xml"], rfl⟩
  have hclosed : pool.Closed := by
    have hadded := @Pool.Coherent.perform _ Pool.coherent_empty .addRecord
      (by simp [Operation.arguments])
    exact (@Pool.Coherent.perform _ hadded (.addToList ⟨0⟩ .files "m/b.metainfo.xml")
      (by simp [Operation.arguments])).closed
  have hsettings : Program.settings (machine [("APPDATA_DEFER_INTERNALIZE", "true")])
      options.switches =
        (Program.settings (machine []) options.switches).map (·.deferring true) := by
    decide +kernel
  obtain ⟨hjobs, -, hrun⟩ := deferral_unobservable pool hpool hclosed
  obtain ⟨-, -, hfinal⟩ := hjobs jobs
  refine ⟨(hfinal _ (List.mem_pair.mpr (Or.inr rfl))).2.1, ?_⟩
  exact hrun (machine []) (machine [("APPDATA_DEFER_INTERNALIZE", "true")]) options options true
    rfl rfl rfl rfl hsettings

end Metainfo
