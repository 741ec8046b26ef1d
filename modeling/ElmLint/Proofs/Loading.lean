import ElmLint.Session

/-!
# Reading the settings of a check

A configuration or a manifest is read in the documented way, to a value or to an error of its own kind, exactly when what stands
at its path is legible: a file that is there has to be UTF-8 (`readDocument_documented_iff`). A check that cannot use one of them
reports that and ends with the status for failures; it breaks off exactly at the first one that is not legible
(`run_check_of_loaded`).
-/

namespace ElmLint

open CommandLine

/-! ## Documents -/

/-- The outcome of reading a document is a value or an error in the document. -/
def Documented {ε α : Type} (outcome : Except (DocumentError ε) α) : Prop :=
  (∃ a, outcome = .ok a) ∨ ∃ e, outcome = .error (.document e)

theorem documented_ok {ε α : Type} (a : α) : Documented (.ok a : Except (DocumentError ε) α) := .inl ⟨a, rfl⟩

theorem documented_document {ε α : Type} (e : ε) : Documented (.error (.document e) : Except (DocumentError ε) α) :=
  .inr ⟨e, rfl⟩

theorem not_documented_breakdown {ε α : Type} (cause : Breakdown) :
    ¬ Documented (.error (.breakdown cause) : Except (DocumentError ε) α) := by
  rintro (⟨a, h⟩ | ⟨e, h⟩) <;> cases h

/-- The path can be looked at, and a file that stands there is UTF-8. -/
def FileTree.Legible (tree : FileTree) (path : TreePath) : Prop :=
  path.hasNull = false ∧ ∀ bytes, tree.find path = .ok (.file bytes) → ∃ text, Utf8.decode bytes = .ok text

/-- A document is read in the documented way exactly when it is legible, whatever it is read as. -/
theorem readDocument_documented_iff {ε α : Type} (tree : FileTree) (path : TreePath) (unreadable : AccessError → ε)
    (notJson : JsonProblem → Position → ε) (ofJson : JsonValue → Except ε α) :
    Documented (readDocument tree path unreadable notJson ofJson) ↔ tree.Legible path := by
  unfold readDocument FileTree.readText FileTree.Legible
  cases hnull : path.hasNull with
  | true => simp [not_documented_breakdown]
  | false =>
    cases hfind : tree.find path with
    | error e => simp [documented_document]
    | ok found =>
      cases found with
      | directory entries => simp [documented_document]
      | file bytes =>
        cases hdecode : Utf8.decode bytes with
        | error e => simp [not_documented_breakdown, hdecode]
        | ok text =>
          simp only [Bool.false_eq_true, if_false, Except.ok.injEq, FileTree.file.injEq, forall_eq', hdecode, exists_eq', true_and,
            iff_true]
          cases JsonValue.read (normalizeNewlines text) with
          | error e => exact documented_document _
          | ok value =>
            cases hvalue : ofJson value with
            | error e => simp only [hvalue]; exact documented_document e
            | ok a => simp only [hvalue]; exact documented_ok a

theorem Config.load_documented_iff (tree : FileTree) (path : TreePath) :
    Documented (Config.load tree path) ↔ tree.Legible path := by
  rw [Config.load, readDocument_documented_iff]

theorem Manifest.load_documented_iff (tree : FileTree) (path : TreePath) :
    Documented (Manifest.load tree path) ↔ tree.Legible path := by
  rw [Manifest.load, readDocument_documented_iff]

theorem documented_mapError {ε ζ α : Type} (f : ε → ζ) (outcome : Except (DocumentError ε) α) :
    Documented (outcome.mapError (·.map f)) ↔ Documented outcome := by
  rcases outcome with (cause | e) | a
  · exact iff_of_false (not_documented_breakdown cause) (not_documented_breakdown cause)
  · exact iff_of_true (documented_document (f e)) (documented_document e)
  · exact iff_of_true (documented_ok a) (documented_ok a)

theorem documented_map {ε α β : Type} (f : α → β) (outcome : Except (DocumentError ε) α) :
    Documented (outcome.map f) ↔ Documented outcome := by
  rcases outcome with (cause | e) | a
  · exact iff_of_false (not_documented_breakdown cause) (not_documented_breakdown cause)
  · exact iff_of_true (documented_document e) (documented_document e)
  · exact iff_of_true (documented_ok (f a)) (documented_ok a)

/-- The manifest that a text names can be read. -/
def FileTree.HoldsManifest (tree : FileTree) (text : Text) : Prop :=
  ∃ path m, TreePath.ofText text = .ok path ∧ Manifest.load tree path = .ok m

/-- The text names a path at which what stands is legible. -/
def FileTree.LegibleAt (tree : FileTree) (text : Text) : Prop := ∃ path, TreePath.ofText text = .ok path ∧ tree.Legible path

/-- Reading manifests ends without an error exactly when each of them can be read. -/
theorem Config.loadEach_error?_eq_none_iff (tree : FileTree) (texts : List Text) :
    (loadEach tree texts).error? = none ↔ ∀ text ∈ texts, tree.HoldsManifest text := by
  induction texts with
  | nil => simp [loadEach]
  | cons text texts ih =>
    rw [List.forall_mem_cons, ← ih, loadEach]
    cases hpath : TreePath.ofText text with
    | error e => simp [FileTree.HoldsManifest, hpath]
    | ok path => cases hload : Manifest.load tree path <;> simp [FileTree.HoldsManifest, hpath, hload]

/-- Reading manifests breaks off exactly when the first of them that cannot be read is not legible. -/
theorem Config.loadEach_breaks_iff (tree : FileTree) (texts : List Text) :
    (∃ cause, (loadEach tree texts).error? = some (.breakdown cause)) ↔
      ∃ before text after, texts = before ++ text :: after ∧ (∀ t ∈ before, tree.HoldsManifest t) ∧ ¬ tree.LegibleAt text := by
  induction texts with
  | nil => simp [loadEach]
  | cons text texts ih =>
    have hsplit : (∃ before text' after, text :: texts = before ++ text' :: after ∧ (∀ t ∈ before, tree.HoldsManifest t) ∧
          ¬ tree.LegibleAt text') ↔
        ¬ tree.LegibleAt text ∨ tree.HoldsManifest text ∧ ∃ cause, (loadEach tree texts).error? = some (.breakdown cause) := by
      rw [ih]
      constructor
      · rintro ⟨_ | ⟨_, before⟩, text', after, heq, hbefore, hnot⟩
        · cases heq
          exact .inl hnot
        · cases heq
          rw [List.forall_mem_cons] at hbefore
          exact .inr ⟨hbefore.1, before, text', after, rfl, hbefore.2, hnot⟩
      · rintro (hnot | ⟨hholds, before, text', after, rfl, hbefore, hnot⟩)
        · exact ⟨[], text, texts, rfl, by simp, hnot⟩
        · exact ⟨text :: before, text', after, rfl, List.forall_mem_cons.2 ⟨hholds, hbefore⟩, hnot⟩
    rw [hsplit, loadEach]
    cases hpath : TreePath.ofText text with
    | error e => simp [FileTree.LegibleAt, hpath]
    | ok path =>
      have hlegible := Manifest.load_documented_iff tree path
      rcases hload : Manifest.load tree path with (cause | e) | m
      · rw [hload, iff_false_left (not_documented_breakdown cause)] at hlegible
        simp [FileTree.LegibleAt, hpath, hlegible, hload, DocumentError.map]
      · rw [hload, iff_true_left (documented_document e)] at hlegible
        simp [FileTree.LegibleAt, FileTree.HoldsManifest, hpath, hlegible, hload, DocumentError.map]
      · rw [hload, iff_true_left (documented_ok m)] at hlegible
        simp [FileTree.LegibleAt, FileTree.HoldsManifest, hpath, hlegible, hload]

namespace Session

/-! ## What a check reads -/

/-- The settings of a check, or why they cannot be had. -/
def loadSettings (tree : FileTree) (r : CheckRequest) : Except (DocumentError Failure) Config := do
  match ← (configPath tree r).mapError .breakdown with
  | none => return override r {}
  | some path => return override r (← (Config.load tree path).mapError (·.map (ConfigError.failure path.render)))

/-- The interfaces of the modules outside the project, or why they cannot be had. -/
def loadInterfaces (tree : FileTree) (r : CheckRequest) (c : Config) : Except (DocumentError Failure) Manifest :=
  match (c.loadManifests tree).error? with
  | some e => .error e
  | none => if r.manifests.contains none then .error (.breakdown .noValue) else .ok (c.loadManifests tree).merged

/-- All that a check reads before it looks at sources. -/
def loaded (tree : FileTree) (r : CheckRequest) : Except (DocumentError Failure) (Config × Manifest) := do
  let config ← loadSettings tree r
  return (config, ← loadInterfaces tree r config)

/-- Looking for a configuration in the directory that one is in never breaks off: its name is short enough. -/
theorem exists_configPath (tree : FileTree) (r : CheckRequest) : ∃ path?, configPath tree r = .ok path? := by
  unfold configPath
  split
  · have hplace : (TreePath.ofString ".").append [Config.fileName] = ⟨"", ["elmcheck.json"]⟩ := by decide +kernel
    have hnull : TreePath.hasNull ⟨"", ["elmcheck.json"]⟩ = false := by decide +kernel
    have hshort : ¬ maxPathBytes < (TreePath.render ⟨"", ["elmcheck.json"]⟩).utf8ByteSize := by decide +kernel
    have hname : ¬ maxNameBytes < "elmcheck.json".utf8ByteSize := by decide +kernel
    have hfind : tree.find ⟨"", ["elmcheck.json"]⟩ ≠ .error .nameTooLong := by
      rw [FileTree.find, if_neg hshort]
      change FileTree.walk [] tree ["elmcheck.json"] ≠ _
      cases tree with
      | file bytes => simp [FileTree.walk]
      | directory entries =>
        cases hentry : entries.lookup "elmcheck.json" <;> simp [FileTree.walk, hname, hentry]
    rw [Config.discover, hplace]
    simp only [FileTree.isFile, FileTree.testAt, hnull]
    rcases htree : tree.find ⟨"", ["elmcheck.json"]⟩ with (_ | _ | _ | _) | found
    all_goals first | exact absurd htree hfind | exact ⟨_, rfl⟩
  · exact ⟨_, rfl⟩

/-- The settings of a check are read in the documented way exactly when the configuration, if there is one, is legible. -/
theorem loadSettings_documented_iff (tree : FileTree) (r : CheckRequest) :
    Documented (loadSettings tree r) ↔ ∀ path, configPath tree r = .ok (some path) → tree.Legible path := by
  obtain ⟨path?, hpath⟩ := exists_configPath tree r
  cases path? with
  | none =>
    have hsettings : loadSettings tree r = .ok (override r {}) := by rw [loadSettings, hpath]; rfl
    simp [hsettings, hpath, documented_ok]
  | some path =>
    have hsettings : loadSettings tree r =
        ((Config.load tree path).mapError (·.map (ConfigError.failure path.render))).map (override r) := by
      rw [loadSettings, hpath]
      rfl
    have hlegible := Config.load_documented_iff tree path
    rw [← documented_mapError (ConfigError.failure path.render)] at hlegible
    simp only [hsettings, documented_map, hlegible, hpath, Except.ok.injEq, Option.some.injEq, forall_eq']

/-- The interfaces that settings name are read in the documented way exactly when the first manifest that cannot be read, if there
is one, is legible, and no manifest was left out on the command line. -/
theorem loadInterfaces_documented_iff (tree : FileTree) (r : CheckRequest) (c : Config) :
    Documented (loadInterfaces tree r c) ↔
      (∀ before text after, c.manifestPaths = before ++ text :: after → (∀ t ∈ before, tree.HoldsManifest t) →
        tree.LegibleAt text) ∧
      ((∀ text ∈ c.manifestPaths, tree.HoldsManifest text) → none ∉ r.manifests) := by
  have hbreaks := Config.loadEach_breaks_iff tree c.manifestPaths
  have hnone := Config.loadEach_error?_eq_none_iff tree c.manifestPaths
  have hlegible : (∀ before text after, c.manifestPaths = before ++ text :: after → (∀ t ∈ before, tree.HoldsManifest t) →
      tree.LegibleAt text) ↔ ¬ ∃ cause, (Config.loadEach tree c.manifestPaths).error? = some (.breakdown cause) := by
    simp only [hbreaks, not_exists, not_and, Classical.not_not]
  rw [hlegible, ← hnone, loadInterfaces, Config.loadManifests]
  rcases (Config.loadEach tree c.manifestPaths).error? with _ | (cause | e)
  · by_cases hvalue : none ∈ r.manifests <;> simp [hvalue, documented_ok, not_documented_breakdown]
  · simp [not_documented_breakdown]
  · simp [documented_document]

/-! ## How a script ends that reads -/

/-- Whatever was written before, the script writes some outputs after it and comes to an outcome. -/
def Yields {α : Type} (script : Script α) (written : List Output) (outcome : Except Ending α) : Prop :=
  ∀ before, script.run before = (outcome, before ++ written)

theorem yields_pure {α : Type} (a : α) : Yields (pure a) [] (.ok a) := by
  intro before
  rw [List.append_nil]
  rfl

theorem yields_breakOff {α : Type} (cause : Breakdown) : Yields (breakOff cause : Script α) [] (.error (.broken cause)) := by
  intro before
  rw [List.append_nil]
  rfl

theorem yields_write (o : Output) : Yields (write o) [o] (.ok ()) := fun _ => rfl

theorem run_bind {α β : Type} (script : Script α) (next : α → Script β) (before : List Output) :
    (script >>= next).run before = match script.run before with
      | (.ok a, after) => (next a).run after
      | (.error ending, after) => (.error ending, after) := by
  change (match script.run before with | (outcome, after) => ExceptT.bindCont next outcome after) = _
  rcases script.run before with ⟨ending | a, after⟩ <;> rfl

theorem Yields.bind {α β : Type} {script : Script α} {next : α → Script β} {a : α} {written more : List Output}
    {outcome : Except Ending β} (h : Yields script written (.ok a)) (hnext : Yields (next a) more outcome) :
    Yields (script >>= next) (written ++ more) outcome := by
  intro before
  rw [run_bind, h before]
  simp only
  rw [hnext, List.append_assoc]

theorem Yields.bind_error {α β : Type} {script : Script α} {next : α → Script β} {ending : Ending} {written : List Output}
    (h : Yields script written (.error ending)) : Yields (script >>= next) written (.error ending) := by
  intro before
  rw [run_bind, h before]

/-- Records are written, and the script goes on. -/
theorem exists_yields_log (level : LogLevel) (records : List LogRecord) : ∃ written, Yields (log level records) written (.ok ()) := by
  unfold log
  induction records.filter (·.reaches level) with
  | nil => exact ⟨[], yields_pure ()⟩
  | cons record records ih =>
    obtain ⟨written, hwritten⟩ := ih
    exact ⟨_, (yields_write _).bind hwritten⟩

/-- Outputs are written one after another. -/
theorem yields_forM_write (outputs : List Output) : Yields (outputs.forM write) outputs (.ok ()) := by
  induction outputs with
  | nil => exact yields_pure ()
  | cons o outputs ih => exact (yields_write o).bind ih

theorem Yields.ofScript_error {script : Script Nat} {written : List Output} {ending : Ending}
    (h : Yields script written (.error ending)) : ofScript script = ⟨written, ending⟩ := by
  rw [ofScript, h []]
  rfl

/-- What is written last when a document cannot be used. -/
def lastWords {α : Type} : Except (DocumentError Failure) α → List Output
  | .error (.document failure) => [.err (failure.render ++ "\n")]
  | _ => []

@[simp] theorem lastWords_ok {α : Type} (a : α) : lastWords (.ok a) = [] := rfl

/-- How a session ends in which a document cannot be had. -/
def endingOf : DocumentError Failure → Ending
  | .document _ => .exit withFailures
  | .breakdown cause => .broken cause

/-- The script reads a document: it has the document for its result, or ends the session for want of it. -/
def Reads {α : Type} (script : Script α) (outcome : Except (DocumentError Failure) α) : Prop :=
  ∃ written, Yields script (written ++ lastWords outcome) (outcome.mapError endingOf)

theorem reads_document {α : Type} (outcome : Except (DocumentError Failure) α) : Reads (document outcome) outcome := by
  refine ⟨[], ?_⟩
  rcases outcome with (cause | failure) | a
  · exact yields_breakOff cause
  · exact fun _ => rfl
  · exact yields_pure a

theorem reads_orBreakOff {α : Type} (outcome : Except Breakdown α) : Reads (orBreakOff outcome) (outcome.mapError .breakdown) := by
  refine ⟨[], ?_⟩
  cases outcome with
  | error cause => exact yields_breakOff cause
  | ok a => exact yields_pure a

theorem Reads.bind {α β : Type} {script : Script α} {next : α → Script β} {outcome : Except (DocumentError Failure) α}
    {outcomeOf : α → Except (DocumentError Failure) β} (h : Reads script outcome)
    (hnext : ∀ a, Reads (next a) (outcomeOf a)) : Reads (script >>= next) (outcome >>= outcomeOf) := by
  obtain ⟨written, h⟩ := h
  rcases outcome with (cause | failure) | a
  · exact ⟨written, h.bind_error⟩
  · exact ⟨written, h.bind_error⟩
  · obtain ⟨more, hmore⟩ := hnext a
    refine ⟨written ++ more, ?_⟩
    rw [lastWords_ok, List.append_nil] at h
    rw [List.append_assoc]
    exact h.bind hmore

theorem Reads.after_log {α : Type} {script : Script α} {outcome : Except (DocumentError Failure) α} (level : LogLevel)
    (records : List LogRecord) (h : Reads script outcome) : Reads (log level records >>= fun _ => script) outcome := by
  obtain ⟨logged, hlogged⟩ := exists_yields_log level records
  obtain ⟨written, h⟩ := h
  exact ⟨logged ++ written, List.append_assoc logged written _ ▸ hlogged.bind h⟩

theorem reads_settings (tree : FileTree) (level : LogLevel) (r : CheckRequest) :
    Reads (settings tree level r) (loadSettings tree r) := by
  refine (reads_orBreakOff _).bind fun path? => ?_
  cases path? with
  | none => exact ⟨[], yields_pure _⟩
  | some path =>
    have hread (outcome : Except (DocumentError Failure) Config) :
        Reads (do return override r (← document outcome)) (do return override r (← outcome)) :=
      (reads_document outcome).bind fun c => ⟨[], yields_pure (override r c)⟩
    by_cases hconfig : r.config.isEmpty
    · simp only [hconfig, if_true]
      exact (hread _).after_log level _
    · simp only [hconfig]
      exact hread _

theorem reads_interfaces (tree : FileTree) (level : LogLevel) (r : CheckRequest) (c : Config) :
    Reads (interfaces tree level r c) (loadInterfaces tree r c) := by
  refine Reads.after_log level _ ?_
  rw [loadInterfaces]
  cases (c.loadManifests tree).error? with
  | some e => exact reads_document (.error e)
  | none =>
    by_cases hvalue : r.manifests.contains none
    · simp only [hvalue, if_true]
      exact ⟨[], yields_breakOff _⟩
    · simp only [hvalue]
      exact ⟨[], yields_pure _⟩

theorem reads_loaded (tree : FileTree) (level : LogLevel) (r : CheckRequest) :
    Reads (do let config ← settings tree level r; return (config, ← interfaces tree level r config)) (loaded tree r) :=
  (reads_settings tree level r).bind fun c => (reads_interfaces tree level r c).bind fun _ => ⟨[], yields_pure _⟩

/-- A check goes on with what it has read. -/
theorem check_eq_bind (tree : FileTree) (level : LogLevel) (quiet : Bool) (r : CheckRequest) :
    check tree level quiet r =
      (do let config ← settings tree level r; return (config, ← interfaces tree level r config)) >>=
        fun (config, manifest) => checkWith tree level quiet r config manifest := by
  simp only [check, bind_assoc, pure_bind]

/-- A check reads its settings and interfaces in the documented way exactly when the configuration is legible and so is the first
manifest that cannot be read. -/
theorem loaded_documented_iff (tree : FileTree) (r : CheckRequest) :
    Documented (loaded tree r) ↔
      (∀ path, configPath tree r = .ok (some path) → tree.Legible path) ∧
      ∀ c, loadSettings tree r = .ok c → Documented (loadInterfaces tree r c) := by
  rw [← loadSettings_documented_iff, loaded]
  rcases loadSettings tree r with (cause | failure) | c
  · exact iff_of_false (not_documented_breakdown cause) fun h => not_documented_breakdown cause h.1
  · exact iff_of_true (documented_document failure) ⟨documented_document failure, fun c h => by cases h⟩
  · simp only [Except.ok.injEq, forall_eq', documented_ok, true_and]
    exact documented_map (Prod.mk c) (loadInterfaces tree r c)

/-- Reading settings and interfaces is documented exactly for legible files, and a check does with it what is documented: one that
cannot use a file reports that last and ends with the status for failures, one that reads them all goes on with them, and only one
with a file that is not legible breaks off. -/
theorem run_check_of_loaded (tree : FileTree) (i : Invocation) (r : CheckRequest) (hcheck : i.command = some (.check r)) :
    (∀ path bytes, path.hasNull = false → tree.find path = .ok (.file bytes) →
      (Documented (Config.load tree path) ↔ ∃ text, Utf8.decode bytes = .ok text) ∧
      (Documented (Manifest.load tree path) ↔ ∃ text, Utf8.decode bytes = .ok text)) ∧
    (∀ failure, loaded tree r = .error (.document failure) →
      ∃ written, run tree i = ⟨written ++ [.err (failure.render ++ "\n")], .exit withFailures⟩) ∧
    (∀ cause, loaded tree r = .error (.breakdown cause) → ∃ written, run tree i = ⟨written, .broken cause⟩) ∧
    (∀ config manifest, loaded tree r = .ok (config, manifest) →
      ∃ written : List Output, run tree i =
        ofScript (do written.forM write; checkWith tree (levelOf i.verbosity) i.verbosity.quiet r config manifest)) ∧
    (Documented (loaded tree r) ↔
      (∀ path, configPath tree r = .ok (some path) → tree.Legible path) ∧
      ∀ config, loadSettings tree r = .ok config →
        (∀ before text after, config.manifestPaths = before ++ text :: after → (∀ t ∈ before, tree.HoldsManifest t) →
          tree.LegibleAt text) ∧
        ((∀ text ∈ config.manifestPaths, tree.HoldsManifest text) → none ∉ r.manifests)) := by
  have hrun : run tree i = ofScript (check tree (levelOf i.verbosity) i.verbosity.quiet r) := by rw [run, script, hcheck]
  obtain ⟨written, hreads⟩ := reads_loaded tree (levelOf i.verbosity) r
  rw [hrun, check_eq_bind]
  refine ⟨fun path bytes hnull hfind => ?_, fun failure hloaded => ?_, fun cause hloaded => ?_,
    fun config manifest hloaded => ?_, ?_⟩
  · have hlegible : tree.Legible path ↔ ∃ text, Utf8.decode bytes = .ok text := by
      simp only [FileTree.Legible, hnull, hfind, Except.ok.injEq, FileTree.file.injEq, forall_eq', true_and]
    rw [← hlegible]
    exact ⟨Config.load_documented_iff tree path, Manifest.load_documented_iff tree path⟩
  · rw [hloaded] at hreads
    exact ⟨written, hreads.bind_error.ofScript_error⟩
  · rw [hloaded] at hreads
    exact ⟨_, hreads.bind_error.ofScript_error⟩
  · rw [hloaded] at hreads
    rw [lastWords_ok, List.append_nil] at hreads
    refine ⟨written, ?_⟩
    rw [ofScript, ofScript, run_bind, hreads, run_bind, yields_forM_write]
    rfl
  · simp only [loaded_documented_iff, loadInterfaces_documented_iff]

set_option maxRecDepth 100000 in
/-- A configuration that is no JSON is reported, and the check of the file beside it ends with status 2. -/
theorem run_check_reports_one_configuration :
    ∃ written failure, run (.directory [("elmcheck.json", .file [123]), ("A.elm", .file [])])
        ⟨{}, some (.check { files := ["A.elm"] })⟩ = ⟨written ++ [.err (Failure.render failure ++ "\n")], .exit 2⟩ ∧
      failure.kind = .configuration := by
  have hloaded : (match loaded (.directory [("elmcheck.json", .file [123]), ("A.elm", .file [])]) { files := ["A.elm"] } with
      | .error (.document failure) => failure.kind == .configuration
      | _ => false) = true := by decide +kernel
  obtain ⟨-, hfails, -⟩ := run_check_of_loaded (.directory [("elmcheck.json", .file [123]), ("A.elm", .file [])])
    ⟨{}, some (.check { files := ["A.elm"] })⟩ { files := ["A.elm"] } rfl
  generalize loaded _ { files := ["A.elm"] } = outcome at hloaded hfails
  rcases outcome with (cause | failure) | c
  · cases hloaded
  · obtain ⟨written, hwritten⟩ := hfails failure rfl
    exact ⟨written, failure, hwritten, by simpa using hloaded⟩
  · cases hloaded

set_option maxRecDepth 100000 in
/-- A configuration that holds the byte `0xFF` alone can be found and read, and yet it is neither settings nor refused as a
configuration: the check breaks off without a word. -/
theorem run_check_breaks_off :
    FileTree.find (.directory [("elmcheck.json", .file [255])]) ⟨"", ["elmcheck.json"]⟩ = .ok (.file [255]) ∧
      ¬ Documented (Config.load (.directory [("elmcheck.json", .file [255])]) ⟨"", ["elmcheck.json"]⟩) ∧
      (run (.directory [("elmcheck.json", .file [255])]) ⟨{}, some (.check { files := ["A.elm"] })⟩).ending =
        .broken (.encoding ⟨0, 255, 1, .invalidStart⟩) := by
  have hfind : FileTree.find (.directory [("elmcheck.json", .file [255])]) ⟨"", ["elmcheck.json"]⟩ = .ok (.file [255]) := by
    rfl
  refine ⟨hfind, ?_, by decide +kernel⟩
  rw [Config.load_documented_iff]
  rintro ⟨-, hdecodes⟩
  obtain ⟨text, htext⟩ := hdecodes _ hfind
  cases htext

end Session

end ElmLint
