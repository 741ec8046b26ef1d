import ElmLint.Project
import ElmLint.Proofs.Parse
import ElmLint.Proofs.Run

/-!
# Which files end a run

A run over readable files with options that its checkers accept returns its results unless one of the files holds a literal
without a value (`runFiles_returns_iff`): a text with an escape beyond the last code point, or a number whose digits have no value
or are too many (`Literal.error?`). Then the modules are checked as if the other files were not there, and each of the other files
is reported by one failure.
-/

namespace ElmLint

/-! ## Reading files -/

/-- The file can be read, and holds a literal without a value. -/
def FileTree.BreaksOff (tree : FileTree) (path : TreePath) : Prop :=
  ∃ text, tree.readText path = .ok text ∧ HoldsValuelessLiteral (String.ofList text)

/-- A failure that reports the source at a path. -/
def Failure.Reports (path : TreePath) (f : Failure) : Prop := f.kind = .source ∧ f.span.file = path.render

/-- What comes of a file that can be read: a module, a failure that reports it, or the end of the run. -/
theorem Module.load_cases {tree : FileTree} {path : TreePath} {text : List Char} (h : tree.readText path = .ok text) :
    (∃ m, Module.load tree path = .ok m ∧ ¬ tree.BreaksOff path) ∨
    (∃ error failure, Module.load tree path = .error error ∧ error.report path.render = .ok failure ∧
      failure.Reports path ∧ ¬ tree.BreaksOff path) ∨
    ∃ error, Module.load tree path = .error (.source (.literal error)) ∧ tree.BreaksOff path := by
  have hload : Module.load tree path = (Module.parse (String.ofList text) path.render).mapError .source := by
    rw [Module.load, h]
  have hbreaks : tree.BreaksOff path ↔ HoldsValuelessLiteral (String.ofList text) := by
    constructor
    · rintro ⟨text', h', hvalueless⟩
      rw [h] at h'
      cases h'
      exact hvalueless
    · exact fun hvalueless => ⟨text, h, hvalueless⟩
  rw [hload, hbreaks]
  rcases Module.parse_cases (String.ofList text) path.render with ⟨m, hparse, hnot⟩ | ⟨position, hparse, hnot⟩ |
    ⟨l, _, next, -, -, -, hparse, hnot⟩ | ⟨error, hparse, hvalueless⟩
  · exact .inl ⟨m, by rw [hparse]; rfl, hnot⟩
  · exact .inr (.inl ⟨_, _, by rw [hparse]; rfl, rfl, ⟨rfl, rfl⟩, hnot⟩)
  · exact .inr (.inl ⟨_, _, by rw [hparse]; rfl, rfl, ⟨rfl, rfl⟩, hnot⟩)
  · exact .inr (.inr ⟨error, by rw [hparse]; rfl, hvalueless⟩)

/-- The modules among some files. -/
def modulesAmong (tree : FileTree) (paths : List TreePath) : List Module :=
  paths.filterMap fun path => (Module.load tree path).toOption

/-- The files that are no modules. -/
def failingAmong (tree : FileTree) (paths : List TreePath) : List TreePath :=
  paths.filter fun path => (Module.load tree path).toOption.isNone

/-- Reading files either ends at one that holds a literal without a value, or gives all modules among them and one failure
for each of the others. -/
theorem readSources_cases {tree : FileTree} : ∀ {paths : List TreePath},
    (∀ path ∈ paths, ∃ text, tree.readText path = .ok text) →
    (∃ s, readSources tree paths = .ok s ∧ (∀ path ∈ paths, ¬ tree.BreaksOff path) ∧
      s.modules = modulesAmong tree paths ∧
      List.Forall₂ (fun path failure => failure.Reports path) (failingAmong tree paths) s.failures) ∨
    ∃ error, readSources tree paths = .error (.literal error) ∧ ∃ path ∈ paths, tree.BreaksOff path
  | [], _ => .inl ⟨{}, rfl, nofun, rfl, .nil⟩
  | path :: paths, h => by
    obtain ⟨text, htext⟩ := h path List.mem_cons_self
    have hrest := readSources_cases fun p hp => h p (List.mem_cons_of_mem path hp)
    rcases Module.load_cases htext with ⟨m, hload, hnot⟩ | ⟨error, failure, hload, hreport, hfailure, hnot⟩ |
      ⟨error, hload, hbreaks⟩
    · have hstep : readSources tree (path :: paths) =
          (readSources tree paths).map fun s => { s with modules := m :: s.modules } := by rw [readSources, hload]
      rcases hrest with ⟨s, hread, hnone, hmodules, hfailures⟩ | ⟨error, hread, p, hp, hbreaks⟩
      · refine .inl ⟨{ s with modules := m :: s.modules }, ?_, List.forall_mem_cons.2 ⟨hnot, hnone⟩, ?_, ?_⟩
        · rw [hstep, hread]
          rfl
        · rw [modulesAmong, List.filterMap_cons, hload, hmodules]
          rfl
        · rw [failingAmong, List.filter_cons_of_neg (by rw [hload]; exact Bool.false_ne_true)]
          exact hfailures
      · exact .inr ⟨error, by rw [hstep, hread]; rfl, p, List.mem_cons_of_mem path hp, hbreaks⟩
    · have hstep : readSources tree (path :: paths) =
          (readSources tree paths).map fun s => { s with failures := failure :: s.failures } := by
        rw [readSources, hload]
        simp only [hreport]
      rcases hrest with ⟨s, hread, hnone, hmodules, hfailures⟩ | ⟨error, hread, p, hp, hbreaks⟩
      · refine .inl ⟨{ s with failures := failure :: s.failures }, ?_, List.forall_mem_cons.2 ⟨hnot, hnone⟩, ?_, ?_⟩
        · rw [hstep, hread]
          rfl
        · rw [modulesAmong, List.filterMap_cons, hload, hmodules]
          rfl
        · rw [failingAmong, List.filter_cons_of_pos (by rw [hload]; rfl)]
          exact .cons hfailure hfailures
      · exact .inr ⟨error, by rw [hstep, hread]; rfl, p, List.mem_cons_of_mem path hp, hbreaks⟩
    · refine .inr ⟨error, ?_, path, List.mem_cons_self, hbreaks⟩
      rw [readSources, hload]
      rfl

/-! ## Checking files -/

namespace Runner

variable {r : Runner} {names : Option (List String)}

/-- No checker that is selected rejects the options of the runner. -/
def AcceptsOptions (r : Runner) (names : Option (List String)) : Prop :=
  ∀ c ∈ r.selected names, ∀ ctx : CheckContext, ctx.options = r.options → ∀ failure, c.check ctx ≠ .error (.options failure)

/-- The checker for ignored errors does not reject options that ask for an origin check. -/
theorem ignoredErrorChecker_accepts {ctx : CheckContext} {check : OriginCheck} (h : ctx.options.Asks check) (failure : Failure) :
    ignoredErrorChecker.check ctx ≠ .error (.options failure) := by
  intro hcheck
  change reportIgnoredErrors ctx = _ at hcheck
  rw [reportIgnoredErrors, h.ofOptions] at hcheck
  cases hcheck

theorem acceptsOptions_of_asks {check : OriginCheck} (honly : r.selected names = [ignoredErrorChecker])
    (hoptions : r.options.Asks check) : r.AcceptsOptions names := by
  intro c hc ctx hctx failure
  rw [honly, List.mem_singleton] at hc
  subst hc
  exact ignoredErrorChecker_accepts (hctx ▸ hoptions) failure

/-- With options that its checkers accept a run over modules goes through all of them. -/
theorem exists_runModules (haccepts : r.AcceptsOptions names) (ms : List Module) :
    ∃ results, r.runModules ms names = .ok results ∧ results.failures = [] := by
  have hcontribution : ∀ (s : Suppressions) (m : Module), ∀ c ∈ r.selected names,
      { r with suppressions := s }.contribution (r.context m (r.projectManifest ms)) c =
        .ok ((({ r with suppressions := s }.contribution (r.context m (r.projectManifest ms)) c).toOption).getD []) := by
    intro s m c hc
    have hcheck := haccepts c hc (r.context m (r.projectManifest ms)) rfl
    rw [contribution]
    split
    · rfl
    · rfl
    · next failure h => exact absurd h (hcheck failure)
  obtain ⟨results, hrun, -, -, hfailures⟩ := runEach_ok ms r.suppressions {} fun m _ =>
    contributes_of_checkers (fun s m c =>
      (({ r with suppressions := s }.contribution (r.context m (r.projectManifest ms)) c).toOption).getD [])
      fun s => hcontribution s m
  exact ⟨results, hrun, hfailures⟩

/-- When a run over readable files returns, with options that its checkers accept: exactly when none of the files holds a
literal without a value. Its diagnostics and files are then those of a run over the modules among the files, in their order,
and each of the other files has one failure of its own, in their order. A source is read as a module, or else reported as one
with a syntax error, exactly when it holds no literal without a value. -/
theorem runFiles_returns_iff (tree : FileTree) (paths : List TreePath)
    (hreadable : ∀ path ∈ paths, ∃ text, tree.readText path = .ok text) (haccepts : r.AcceptsOptions names) :
    ((∃ results, r.runFiles tree paths names = .ok results) ↔
      ∀ path ∈ paths, ∀ text, tree.readText path = .ok text → ¬ HoldsValuelessLiteral (String.ofList text)) ∧
    (∀ results, r.runFiles tree paths names = .ok results →
      ∃ run, r.runModules (modulesAmong tree paths) names = .ok run ∧
        results.diagnostics = run.diagnostics ∧ results.files = run.files ∧
        List.Forall₂ (fun path failure => failure.Reports path) (failingAmong tree paths) results.failures) ∧
    ∀ source file, ((∃ m, Module.parse source file = .ok m) ∨
      ∃ error failure, Module.parse source file = .error error ∧ error.report file = .ok failure ∧
        failure.kind = .source ∧ failure.span.file = file) ↔ ¬ HoldsValuelessLiteral source := by
  obtain ⟨run, hrun, hnone⟩ := exists_runModules haccepts (modulesAmong tree paths)
  rcases readSources_cases hreadable with ⟨s, hread, hnot, hmodules, hfailures⟩ | ⟨error, hread, path, hpath, hbreaks⟩
  · have hreturns : r.runFiles tree paths names = .ok { run with failures := run.failures ++ s.failures } := by
      rw [runFiles, hread]
      simp only [runSources, hmodules, hrun]
    refine ⟨⟨fun _ path hpath text htext hvalueless => hnot path hpath ⟨text, htext, hvalueless⟩, fun _ => ⟨_, hreturns⟩⟩,
      fun results hresults => ?_, Module.reportable_iff⟩
    rw [hreturns] at hresults
    cases hresults
    refine ⟨run, hrun, rfl, rfl, ?_⟩
    rw [hnone]
    exact hfailures
  · have hends : r.runFiles tree paths names = .error (.breakdown (.literal error)) := by rw [runFiles, hread]
    obtain ⟨text, htext, hvalueless⟩ := hbreaks
    refine ⟨⟨?_, fun h => absurd hvalueless (h path hpath text htext)⟩, ?_, Module.reportable_iff⟩
    · rintro ⟨results, hresults⟩
      rw [hends] at hresults
      cases hresults
    · intro results hresults
      rw [hends] at hresults
      cases hresults

/-- Files that pass a test on being readable are readable. -/
theorem readable_of_all {tree : FileTree} {paths : List TreePath}
    (h : (paths.all fun path => (tree.readText path).toOption.isSome) = true) :
    ∀ path ∈ paths, ∃ text, tree.readText path = .ok text := by
  intro path hpath
  have hsome := List.all_eq_true.1 h path hpath
  cases htext : tree.readText path with
  | error e => rw [htext] at hsome; cases hsome
  | ok text => exact ⟨text, rfl⟩

set_option maxRecDepth 100000 in
/-- Of two files, `x =` and `y = 1`, the first is no module. It is reported, and the run returns. -/
theorem runFiles_returns_with_failure :
    ∃ results failure, ({} : Runner).runFiles (.directory [("X.elm", .file [120, 32, 61]),
        ("Y.elm", .file [121, 32, 61, 32, 49])]) [⟨"", ["X.elm"]⟩, ⟨"", ["Y.elm"]⟩] none = .ok results ∧
      results.failures = [failure] ∧ failure.Reports ⟨"", ["X.elm"]⟩ := by
  have hreturns : (({} : Runner).runFiles (.directory [("X.elm", .file [120, 32, 61]),
      ("Y.elm", .file [121, 32, 61, 32, 49])]) [⟨"", ["X.elm"]⟩, ⟨"", ["Y.elm"]⟩] none).toOption.isSome = true := by
    decide +kernel
  have hfailing : failingAmong (.directory [("X.elm", .file [120, 32, 61]), ("Y.elm", .file [121, 32, 61, 32, 49])])
      [⟨"", ["X.elm"]⟩, ⟨"", ["Y.elm"]⟩] = [⟨"", ["X.elm"]⟩] := by decide +kernel
  have haccepts : ({} : Runner).AcceptsOptions none := acceptsOptions_of_asks rfl (.exact rfl (by decide) (by decide))
  obtain ⟨-, hresults, -⟩ := runFiles_returns_iff (.directory [("X.elm", .file [120, 32, 61]),
    ("Y.elm", .file [121, 32, 61, 32, 49])]) [⟨"", ["X.elm"]⟩, ⟨"", ["Y.elm"]⟩] (readable_of_all (by decide +kernel)) haccepts
  generalize ({} : Runner).runFiles _ _ none = outcome at hreturns hresults ⊢
  cases outcome with
  | error e => cases hreturns
  | ok results =>
    obtain ⟨-, -, -, -, hfailures⟩ := hresults results rfl
    rw [hfailing] at hfailures
    obtain ⟨failure, rest, hreports, hrest, heq⟩ := List.forall₂_cons_left_iff.1 hfailures
    rw [List.forall₂_nil_left_iff] at hrest
    exact ⟨results, failure, rfl, by rw [heq, hrest], hreports⟩

set_option maxRecDepth 100000 in
/-- The file `x = "\u{110000}"` names a number that is no code point. It can be read and the options are accepted, and yet
the run ends without results. -/
theorem runFiles_ends_without_results :
    (∀ path ∈ [⟨"", ["X.elm"]⟩], ∃ text, (FileTree.directory [("X.elm", .file [120, 32, 61, 32, 34, 92, 117, 123, 49, 49, 48,
        48, 48, 48, 125, 34])]).readText path = .ok text) ∧
      ({} : Runner).AcceptsOptions none ∧
      ¬ ∃ results, ({} : Runner).runFiles (.directory [("X.elm", .file [120, 32, 61, 32, 34, 92, 117, 123, 49, 49, 48, 48,
        48, 48, 125, 34])]) [⟨"", ["X.elm"]⟩] none = .ok results := by
  refine ⟨readable_of_all (by decide +kernel), acceptsOptions_of_asks rfl (.exact rfl (by decide) (by decide)), ?_⟩
  have hnone : (({} : Runner).runFiles (.directory [("X.elm", .file [120, 32, 61, 32, 34, 92, 117, 123, 49, 49, 48, 48, 48,
      48, 125, 34])]) [⟨"", ["X.elm"]⟩] none).toOption.isNone = true := by decide +kernel
  rintro ⟨results, hresults⟩
  rw [hresults] at hnone
  cases hnone

end Runner

end ElmLint
