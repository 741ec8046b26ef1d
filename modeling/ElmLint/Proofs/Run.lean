import ElmLint.Proofs.IgnoredError
import ElmLint.Run

/-!
# What runs report

A run over modules goes on as long as its checkers contribute: its diagnostics are what they contribute module after module,
each with the directives of that module and of those before it in force (`runEach_ok`). With the checker for ignored
errors alone, that is one diagnostic for each pattern that ignores an error and is not suppressed
(`runModules_reports_ignored_errors`).
-/

namespace ElmLint

/-! ## Runs that go on -/

namespace Runner

variable {r : Runner} {names : Option (List String)} {manifest : Manifest}

/-- Checkers that contribute are all recorded, one after another. -/
theorem runCheckers_ok {ctx : CheckContext} {contribute : Checker → List Diagnostic} :
    ∀ (cs : List Checker) (results : RunResults), (∀ c ∈ cs, r.contribution ctx c = .ok (contribute c)) →
      ∃ results', r.runCheckers ctx cs results = .ok results' ∧
        results'.diagnostics = results.diagnostics ++ cs.flatMap contribute ∧ results'.files = results.files ∧
        results'.failures = results.failures
  | [], results, _ => ⟨results, rfl, (List.append_nil _).symm, rfl, rfl⟩
  | c :: cs, results, h => by
    obtain ⟨results', hrun, hdiagnostics, hfiles, hfailures⟩ :=
      runCheckers_ok cs (results.record c.name (contribute c)) fun d hd => h d (List.mem_cons_of_mem c hd)
    refine ⟨results', ?_, ?_, hfiles, hfailures⟩
    · rw [runCheckers, h c List.mem_cons_self]
      exact hrun
    · rw [hdiagnostics, List.flatMap_cons, ← List.append_assoc]
      rfl

/-- Whether all checkers contribute to runs over a module, and what: it may depend on the suppressions in force. -/
def Contributes (r : Runner) (names : Option (List String)) (manifest : Manifest)
    (contribute : Suppressions → Module → List Diagnostic) (m : Module) : Prop :=
  ∀ s : Suppressions, ∃ results, { r with suppressions := s }.run m names manifest = .ok results ∧
    results.diagnostics = contribute (s.loadInline m) m ∧ results.files = [m.file] ∧ results.failures = []

/-- Checkers that contribute to a module contribute to the run over it. -/
theorem contributes_of_checkers (contribute : Suppressions → Module → Checker → List Diagnostic) {m : Module}
    (h : ∀ s, ∀ c ∈ r.selected names,
      { r with suppressions := s }.contribution (r.context m manifest) c = .ok (contribute s m c)) :
    r.Contributes names manifest (fun s m => (r.selected names).flatMap (contribute s m)) m := by
  intro s
  obtain ⟨results, hrun, hdiagnostics, hfiles, hfailures⟩ :=
    runCheckers_ok (r.selected names) { files := [m.file] } (h (s.loadInline m))
  exact ⟨results, hrun, hdiagnostics, hfiles, hfailures⟩

/-- A run over modules returns when the run over the first one does, and then the run over the others with the runner that is
handed on. -/
theorem runEach_cons_eq_ok_iff {m : Module} {ms : List Module} {results results' : RunResults} :
    (runEach names manifest r (m :: ms) results).1 = .ok results' ↔
      ∃ more, r.run m names manifest = .ok more ∧
        (runEach names manifest (r.observe m) ms (results.extend more)).1 = .ok results' := by
  rw [runEach]
  cases r.run m names manifest with
  | ok more => simp
  | error failure => simp

/-- A run over modules, each with the directives of the modules up to it in force. -/
theorem runEach_ok {contribute : Suppressions → Module → List Diagnostic} :
    ∀ (ms : List Module) (s : Suppressions) (results : RunResults),
      (∀ m ∈ ms, r.Contributes names manifest contribute m) →
      ∃ results', (runEach names manifest { r with suppressions := s } ms results).1 = .ok results' ∧
        results'.diagnostics = results.diagnostics ++
          ms.zipIdx.flatMap (fun (m, i) => contribute ((ms.take (i + 1)).foldl Suppressions.loadInline s) m) ∧
        results'.files = results.files ++ ms.map Module.file ∧ results'.failures = results.failures
  | [], s, results, _ => ⟨results, rfl, (List.append_nil _).symm, (List.append_nil _).symm, rfl⟩
  | m :: ms, s, results, h => by
    obtain ⟨more, hrun, hmore, hfile, hnone⟩ := h m List.mem_cons_self s
    obtain ⟨results', hrest, hdiagnostics, hfiles, hfailures⟩ :=
      runEach_ok ms (s.loadInline m) (results.extend more) fun m' hm' => h m' (List.mem_cons_of_mem m hm')
    refine ⟨results', runEach_cons_eq_ok_iff.2 ⟨more, hrun, hrest⟩, ?_, ?_, ?_⟩
    · rw [hdiagnostics, RunResults.extend, hmore, List.append_assoc, List.zipIdx_cons, List.flatMap_cons, Nat.zero_add,
        List.zipIdx_succ, List.flatMap_map]
      rfl
    · rw [hfiles, RunResults.extend, hfile, List.append_assoc]
      rfl
    · rw [hfailures, RunResults.extend, hnone, List.append_nil]

end Runner

/-! ## Options -/

/-- Options that ask for an origin check: that any constructor counts, or that those of one module do, whose path has segments
and no empty one. -/
inductive CheckOptions.Asks (o : CheckOptions) : OriginCheck → Prop where
  | any (hkind : o.originCheck = "any") : Asks o .any
  | exact (hkind : o.originCheck = "exact") (hpath : o.resultModule ≠ [])
    (hsegments : ∀ segment ∈ o.resultModule, segment.isEmpty = false) : Asks o (.exact o.resultModule)

theorem CheckOptions.Asks.ofOptions {o : CheckOptions} {check : OriginCheck} (h : o.Asks check) :
    OriginCheck.ofOptions o.originCheck o.resultModule = .ok check := by
  cases h with
  | any hkind => rw [OriginCheck.ofOptions, if_pos hkind]
  | exact hkind hpath hsegments =>
    have hvalid : ¬ (o.resultModule.isEmpty || o.resultModule.any (·.isEmpty)) = true := by
      simp only [Bool.or_eq_true, List.isEmpty_iff, List.any_eq_true, not_or, not_exists, not_and, Bool.not_eq_true]
      exact ⟨hpath, hsegments⟩
    have hne : o.originCheck ≠ ("any" : Text) := by
      rw [hkind]
      decide
    rw [OriginCheck.ofOptions, if_neg hne, if_pos hkind, if_neg hvalid]

/-! ## Manifests of projects -/

namespace Manifest

theorem isEmpty_add (m : Manifest) (i : Interface) : (m.add i).isEmpty = false := by
  have hentries : ∀ entries : List (ModulePath × Interface), (OrderedMap.putEntry i.name i entries).isEmpty = false := by
    intro entries
    cases entries with
    | nil => rfl
    | cons entry rest =>
      rw [OrderedMap.putEntry]
      split <;> rfl
  exact hentries m.entries

theorem isEmpty_ofInterfaces {is : List Interface} (h : is ≠ []) : (ofInterfaces is).isEmpty = false := by
  rw [← List.dropLast_append_getLast h, ofInterfaces, List.foldl_append]
  exact isEmpty_add _ _

theorem isEmpty_orCore (m : Manifest) : m.orCore.isEmpty = false := by
  unfold orCore
  split
  · exact isEmpty_ofInterfaces (by decide)
  · next h => rwa [Bool.not_eq_true] at h

/-- The manifest of a project has the core library, or what stands for it, so it is never empty. -/
theorem orCore_projectManifest (r : Runner) (ms : List Module) : (r.projectManifest ms).orCore = r.projectManifest ms := by
  have hvalues : r.manifest.orCore.values ≠ [] := by
    have h := isEmpty_orCore r.manifest
    intro hnil
    rw [OrderedMap.values, List.map_eq_nil_iff] at hnil
    rw [OrderedMap.isEmpty, hnil] at h
    cases h
  rw [orCore, if_neg]
  rw [Runner.projectManifest, merge, isEmpty_ofInterfaces (List.append_ne_nil_of_left_ne_nil hvalues _)]
  exact Bool.false_ne_true

end Manifest

/-! ## Runs of the checker for ignored errors -/

/-- All that the checker for ignored errors reports are diagnostics of findings in the file that it looks at. -/
theorem ignoredErrorChecker_reports {ctx : CheckContext} {report : CheckReport} (h : ignoredErrorChecker.check ctx = .ok report)
    {d : Diagnostic} (hd : d ∈ report.diagnostics) : ∃ check f, d = Finding.diagnostic ctx.module.file check f := by
  change reportIgnoredErrors ctx = _ at h
  unfold reportIgnoredErrors at h
  split at h
  · cases h
  · next check _ =>
    cases h
    obtain ⟨f, -, rfl⟩ := List.mem_map.1 hd
    exact ⟨check, f, rfl⟩

/-- A diagnostic for each pattern of a module that ignores an error. -/
def Module.ignoringDiagnostics (m : Module) (scope : Scope) (check : OriginCheck) : List Diagnostic :=
  (m.ignoringPatterns scope check).map fun p => p.finding.diagnostic m.file check

namespace Runner

variable (r : Runner) (ms : List Module) (names : Option (List String)) (check : OriginCheck)

/-- What the checker for ignored errors contributes to a module with different places. -/
theorem contributes_ignoredErrorChecker {m : Module} (hnodup : (m.references.map Reference.range).Nodup)
    (honly : r.selected names = [ignoredErrorChecker]) (hoptions : r.options.Asks check) (manifest : Manifest) :
    r.Contributes names manifest
      (fun s m => s.filter (m.ignoringDiagnostics (Scope.ofModule m manifest.orCore) check)) m := by
  have hchecker : ∀ s, ∀ c ∈ r.selected names, { r with suppressions := s }.contribution (r.context m manifest) c =
      .ok (s.filter (m.ignoringDiagnostics (Scope.ofModule m manifest.orCore) check)) := by
    intro s c hc
    rw [honly, List.mem_singleton] at hc
    subst hc
    have hreport : ignoredErrorChecker.check (r.context m manifest) = reportIgnoredErrors (r.context m manifest) := rfl
    have hasked : OriginCheck.ofOptions (r.context m manifest).options.originCheck
        (r.context m manifest).options.resultModule = .ok check := hoptions.ofOptions
    rw [contribution, hreport, reportIgnoredErrors, hasked]
    simp only [context, m.ignoredErrors_eq hnodup, List.map_map]
    rfl
  intro s
  obtain ⟨results, hrun, hdiagnostics, hrest⟩ := contributes_of_checkers
    (fun s m _ => s.filter (m.ignoringDiagnostics (Scope.ofModule m manifest.orCore) check)) hchecker s
  simp only [honly, List.flatMap_cons, List.flatMap_nil, List.append_nil] at hdiagnostics
  exact ⟨results, hrun, hdiagnostics, hrest⟩

/-- The meaning of a run with the checker for ignored errors alone over parsed modules. It reports, module after module, the
patterns inside the arms of the `case` expressions that ignore an error by the scope of their module, in order, as far as
they are not suppressed by what was suppressed before or by the directives of the modules up to theirs. Before any are
suppressed, the diagnostics of a module are what the search with its lookup table finds. -/
theorem runModules_reports_ignored_errors (hparsed : ∀ m ∈ ms, ∃ source file, Module.parse source file = .ok m)
    (honly : r.selected names = [ignoredErrorChecker]) (hoptions : r.options.Asks check) :
    (∃ results, r.runModules ms names = .ok results ∧
      results.diagnostics = ms.zipIdx.flatMap fun (m, i) =>
        ((ms.take (i + 1)).foldl Suppressions.loadInline r.suppressions).filter
          (m.ignoringDiagnostics (Scope.ofModule m (r.projectManifest ms)) check)) ∧
    ∀ m ∈ ms, m.ignoringDiagnostics (Scope.ofModule m (r.projectManifest ms)) check =
      (m.ignoredErrors (some (LookupTable.build m (r.projectManifest ms)).resolver) check).map
        (Finding.diagnostic m.file check) := by
  have hnodup : ∀ m ∈ ms, (m.references.map Reference.range).Nodup := by
    intro m hm
    obtain ⟨source, file, hparse⟩ := hparsed m hm
    exact Module.nodup_references hparse
  constructor
  · obtain ⟨results, hrun, hdiagnostics, -⟩ := runEach_ok ms r.suppressions {} fun m hm =>
      contributes_ignoredErrorChecker r names check (hnodup m hm) honly hoptions (r.projectManifest ms)
    rw [Manifest.orCore_projectManifest] at hdiagnostics
    exact ⟨results, hrun, hdiagnostics⟩
  · intro m hm
    rw [m.ignoredErrors_eq (hnodup m hm), Manifest.orCore_projectManifest, List.map_map]
    rfl

set_option maxRecDepth 100000 in
/-- Of two ignored errors the second is suppressed by its comment, and the first is reported. -/
theorem runModules_reports_one_of_two :
    ∃ m results, Module.parse ("f r =\n    case r of\n        Ok (Err _) -> 0\n        Ok _ -> 1\n" ++
        "        Err _ -> 2 -- elmcheck-suppress\n") "F.elm" = .ok m ∧
      ({ options := { originCheck := "any" } } : Runner).runModules [m] none = .ok results ∧
      results.diagnostics.map (·.range.start) = [⟨3, 13⟩] := by
  obtain ⟨m, hparse, hreported⟩ := Module.exists_parse_of_any
    ("f r =\n    case r of\n        Ok (Err _) -> 0\n        Ok _ -> 1\n" ++ "        Err _ -> 2 -- elmcheck-suppress\n")
    "F.elm" (fun m => ([m].zipIdx.flatMap fun (m', i) => (([m].take (i + 1)).foldl Suppressions.loadInline {}).filter
      (m'.ignoringDiagnostics (Scope.ofModule m' (({ options := { originCheck := "any" } } : Runner).projectManifest [m]))
        .any)).map (·.range.start) == [⟨3, 13⟩]) (by decide +kernel)
  have hparsed : ∀ m' ∈ [m], ∃ source file, Module.parse source file = .ok m' := by
    intro m' hm'
    rw [List.mem_singleton.1 hm']
    exact ⟨_, _, hparse⟩
  obtain ⟨⟨results, hrun, hdiagnostics⟩, -⟩ :=
    runModules_reports_ignored_errors { options := { originCheck := "any" } } [m] none .any hparsed rfl (.any rfl)
  refine ⟨m, results, hparse, hrun, ?_⟩
  rw [hdiagnostics]
  exact beq_iff_eq.1 hreported

end Runner

end ElmLint
