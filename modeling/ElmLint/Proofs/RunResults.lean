import ElmLint.Proofs.OrderedMap
import ElmLint.Proofs.Project
import Mathlib.Algebra.GroupWithZero.Nat

/-!
# What results hold after runs and extensions

The diagnostics of a run are kept twice: in one list, and in one list for each checker. Both are made of the same executions of
checkers, in their order (`RunResults.Records`). Recording one more execution keeps this up, and so does extending results by other
ones; hence it holds of all results, however they came about. What an execution contributes depends on its own checker, module and
suppressions only, so a checker that breaks down leaves alone what the others report.
-/

namespace ElmLint

/-- Of the items with a key none is lost with those that have another key. -/
theorem filter_filter_of_ne {α κ : Type} [DecidableEq κ] (key : α → κ) {k k' : κ} (hne : k' ≠ k) (as : List α) :
    (as.filter (key · != k)).filter (key · == k') = as.filter (key · == k') := by
  rw [List.filter_filter]
  refine List.filter_congr fun a _ => ?_
  by_cases ha : key a = k' <;> simp [ha, hne]

/-- Sorting the items of a list by a key loses none and doubles none, when the keys differ from each other and each item has one. -/
theorem flatMap_filter_perm {α κ : Type} [DecidableEq κ] {key : α → κ} : ∀ {keys : List κ} {as : List α}, keys.Nodup →
    (∀ a ∈ as, key a ∈ keys) → (keys.flatMap fun k => as.filter (key · == k)).Perm as
  | [], as, _, h => by
    have hnil : as = [] := List.eq_nil_iff_forall_not_mem.2 fun a ha => List.not_mem_nil (h a ha)
    simp [hnil]
  | k :: keys, as, hnodup, h => by
    obtain ⟨hk, hnodup⟩ := List.nodup_cons.1 hnodup
    have hothers : ∀ k' ∈ keys, (as.filter (key · != k)).filter (key · == k') = as.filter (key · == k') :=
      fun k' hk' => filter_filter_of_ne key (ne_of_mem_of_not_mem hk' hk) as
    have hrest : (keys.flatMap fun k' => as.filter (key · == k')).Perm (as.filter (key · != k)) := by
      rw [← List.flatMap_congr hothers]
      refine flatMap_filter_perm hnodup fun a ha => ?_
      obtain ⟨ha, hne⟩ := List.mem_filter.1 ha
      exact (List.mem_cons.1 (h a ha)).resolve_left (by simpa using hne)
    rw [List.flatMap_cons]
    exact (hrest.append_left _).trans (List.filter_append_perm _ as)

/-! ## Executions -/

/-- An execution of a checker: what it sees of a module, and what is suppressed then. -/
structure Execution where
  checker : Checker
  ctx : CheckContext
  suppressions : Suppressions

namespace Execution

/-- What an execution contributes, or why it ends the run. -/
def outcome (e : Execution) : Except Failure (List Diagnostic) :=
  ({ suppressions := e.suppressions } : Runner).contribution e.ctx e.checker

/-- The diagnostics that an execution contributes. -/
def diagnostics (e : Execution) : List Diagnostic := e.outcome.toOption.getD []

/-- An execution lets the run go on. -/
def Returns (e : Execution) : Prop := ∃ ds, e.outcome = .ok ds

theorem diagnostics_of_outcome {e : Execution} {ds : List Diagnostic} (h : e.outcome = .ok ds) : e.diagnostics = ds := by
  simp [diagnostics, h, Except.toOption]

/-- An execution that breaks down contributes the one diagnostic that says so. -/
theorem diagnostics_of_breakdown {e : Execution} {reason : String} (h : e.checker.check e.ctx = .error (.breakdown reason)) :
    e.diagnostics = [Runner.breakdownDiagnostic e.checker.name e.ctx.module.file reason] := by
  apply diagnostics_of_outcome
  rw [outcome, Runner.contribution, h]

theorem returns_of_accepts {e : Execution} (h : ∀ failure, e.checker.check e.ctx ≠ .error (.options failure)) : e.Returns := by
  rw [Returns, outcome, Runner.contribution]
  split
  · exact ⟨_, rfl⟩
  · exact ⟨_, rfl⟩
  · next failure hcheck => exact absurd hcheck (h failure)

end Execution

/-- The checker puts its name on what it reports. -/
def Checker.Signs (c : Checker) : Prop := ∀ ctx report, c.check ctx = .ok report → ∀ d ∈ report.diagnostics, d.checker = c.name

theorem signs_ignoredErrorChecker : ignoredErrorChecker.Signs := by
  intro ctx report h d hd
  obtain ⟨check, f, rfl⟩ := ignoredErrorChecker_reports h hd
  rfl

theorem Execution.checker_of_mem {e : Execution} (h : e.checker.Signs) {d : Diagnostic} (hd : d ∈ e.diagnostics) :
    d.checker = e.checker.name := by
  rw [diagnostics, outcome, Runner.contribution] at hd
  split at hd
  · next report hreport => exact h _ _ hreport d (List.mem_of_mem_filter hd)
  · rw [List.mem_singleton.1 hd, Runner.breakdownDiagnostic]
  · cases hd

/-- Of the diagnostics that executions contribute, those with a name come from the checkers of that name. -/
theorem flatMap_diagnostics_filter {name : String} {es : List Execution} (hsigns : ∀ e ∈ es, e.checker.Signs) :
    (es.filter (·.checker.name == name)).flatMap Execution.diagnostics =
      (es.flatMap Execution.diagnostics).filter (·.checker == name) := by
  induction es with
  | nil => rfl
  | cons e es ih =>
    rw [List.forall_mem_cons] at hsigns
    have hown : ∀ d ∈ e.diagnostics, d.checker = e.checker.name := fun _ => Execution.checker_of_mem hsigns.1
    have hkept : e.diagnostics.filter (·.checker == name) = if e.checker.name = name then e.diagnostics else [] := by
      split
      · next hname => exact List.filter_eq_self.2 fun d hd => by simp [hown d hd, hname]
      · next hname => exact List.filter_eq_nil_iff.2 fun d hd => by simp [hown d hd, hname]
    rw [List.flatMap_cons, List.filter_append, ← ih hsigns.2, hkept]
    by_cases hname : e.checker.name = name <;> simp [hname]

/-! ## Results and the executions that they record -/

namespace RunResults

/-- The counts that a summary shows, one for each checker. -/
def counts (r : RunResults) : List Nat := r.checkerNames.map fun name => (r.ofChecker name).length

/-- The results hold what executions contributed, one after another: all diagnostics, those of each checker, and the names of the
checkers. -/
structure Records (results : RunResults) (es : List Execution) : Prop where
  diagnostics : results.diagnostics = es.flatMap Execution.diagnostics
  ofChecker : ∀ name, results.ofChecker name = (es.filter (·.checker.name == name)).flatMap Execution.diagnostics
  checkerNames : ∀ name, name ∈ results.checkerNames ↔ ∃ e ∈ es, e.checker.name = name

theorem getD_find?_appendTo (m : OrderedMap String (List Diagnostic)) (name other : String) (ds : List Diagnostic) :
    ((appendTo m name ds).find? other).getD [] = (m.find? other).getD [] ++ if other = name then ds else [] := by
  rw [appendTo, OrderedMap.find?_insert]
  by_cases h : other = name
  · subst h
    simp
  · simp [h]

theorem getD_find?_foldl_appendTo (name : String) : ∀ (entries : List (String × List Diagnostic))
    (m : OrderedMap String (List Diagnostic)), (entries.map Prod.fst).Nodup →
    ((entries.foldl (fun m (name, ds) => appendTo m name ds) m).find? name).getD [] =
      (m.find? name).getD [] ++ ((entries.find? (·.1 = name)).map Prod.snd).getD []
  | [], m, _ => by simp
  | (other, ds) :: entries, m, h => by
    rw [List.map_cons, List.nodup_cons] at h
    rw [List.foldl_cons, getD_find?_foldl_appendTo name entries _ h.2, getD_find?_appendTo, List.append_assoc]
    congr 1
    -- The name of the first entry does not come again, so the others add nothing to what it adds.
    by_cases hname : other = name
    · subst hname
      have hnone : entries.find? (·.1 = other) = none := by
        rw [List.find?_eq_none]
        intro entry hentry
        have hne : entry.1 ≠ other := fun e => h.1 (List.mem_map.2 ⟨entry, hentry, e⟩)
        simpa using hne
      simp [hnone]
    · simp [hname, Ne.symm hname]

/-- Extending results adds the diagnostics of each checker to those that it has. -/
theorem ofChecker_extend (r s : RunResults) (name : String) :
    (r.extend s).ofChecker name = r.ofChecker name ++ s.ofChecker name :=
  getD_find?_foldl_appendTo name s.byChecker.entries r.byChecker s.byChecker.nodup

theorem union_cons (names : List String) (other : String) (more : List String) :
    union names (other :: more) = union (if names.contains other then names else names ++ [other]) more := rfl

theorem mem_union {name : String} : ∀ {more names : List String}, name ∈ union names more ↔ name ∈ names ∨ name ∈ more
  | [], names => by simp [union]
  | other :: more, names => by
    rw [union_cons, mem_union]
    by_cases h : other ∈ names
    · rw [if_pos (by simpa using h), List.mem_cons]
      constructor
      · exact Or.imp_right .inr
      · rintro (hname | rfl | hname)
        · exact .inl hname
        · exact .inl h
        · exact .inr hname
    · rw [if_neg (by simpa using h), List.mem_append, List.mem_singleton, List.mem_cons, or_assoc]

theorem nodup_union : ∀ {more names : List String}, names.Nodup → (union names more).Nodup
  | [], _, h => h
  | other :: more, names, h => by
    rw [union_cons]
    apply nodup_union
    split
    · exact h
    · next hother =>
      rw [List.contains_iff_mem] at hother
      exact h.append (List.nodup_singleton other) (List.disjoint_singleton.2 hother)

namespace Records

variable {results r s : RunResults} {es es' : List Execution}

theorem start (files : List String) : ({ files := files } : RunResults).Records [] :=
  ⟨rfl, fun _ => rfl, fun _ => by simp⟩

/-- Recording one more execution. -/
theorem record (h : results.Records es) {e : Execution} {ds : List Diagnostic} (he : e.outcome = .ok ds) :
    (results.record e.checker.name ds).Records (es ++ [e]) where
  diagnostics := by
    rw [List.flatMap_append, ← h.diagnostics, List.flatMap_singleton, Execution.diagnostics_of_outcome he]
    rfl
  ofChecker := by
    intro name
    rw [List.filter_append, List.flatMap_append, ← h.ofChecker name]
    refine (getD_find?_appendTo results.byChecker e.checker.name name ds).trans ?_
    by_cases hname : name = e.checker.name
    · subst hname
      simp [Execution.diagnostics_of_outcome he, RunResults.ofChecker]
    · simp [hname, Ne.symm hname, RunResults.ofChecker]
  checkerNames := by
    intro name
    show name ∈ results.checkerNames ++ [e.checker.name] ↔ _
    rw [List.mem_append, h.checkerNames]
    simp [or_and_right, exists_or, eq_comm]

/-- Extending results that record some executions by results that record others. -/
theorem extend (h : r.Records es) (h' : s.Records es') : (r.extend s).Records (es ++ es') where
  diagnostics := by
    rw [List.flatMap_append, ← h.diagnostics, ← h'.diagnostics]
    rfl
  ofChecker := by
    intro name
    rw [ofChecker_extend, h.ofChecker, h'.ofChecker, List.filter_append, List.flatMap_append]
  checkerNames := by
    intro name
    refine mem_union.trans ?_
    rw [h.checkerNames, h'.checkerNames]
    simp [or_and_right, exists_or]

/-- What is kept for a checker are its diagnostics, when all checkers put their names on theirs. -/
theorem ofChecker_eq_filter (h : results.Records es) (hsigns : ∀ e ∈ es, e.checker.Signs) (name : String) :
    results.ofChecker name = results.diagnostics.filter (·.checker == name) := by
  rw [h.ofChecker, h.diagnostics, flatMap_diagnostics_filter hsigns]

/-- The diagnostics of the checkers together are as many as there are. -/
theorem sum_counts (h : results.Records es) (hnodup : results.checkerNames.Nodup) :
    results.counts.sum = results.diagnostics.length := by
  have hsorted : (results.checkerNames.flatMap fun name => es.filter (·.checker.name == name)).Perm es :=
    flatMap_filter_perm hnodup fun e he => (h.checkerNames _).2 ⟨e, he, rfl⟩
  calc results.counts.sum
      = (results.checkerNames.flatMap fun name => results.ofChecker name).length := List.length_flatMap.symm
    _ = ((results.checkerNames.flatMap fun name => es.filter (·.checker.name == name)).flatMap Execution.diagnostics).length := by
      rw [List.flatMap_assoc, funext h.ofChecker]
    _ = (es.flatMap Execution.diagnostics).length := (hsorted.flatMap_right _).length_eq
    _ = results.diagnostics.length := by rw [h.diagnostics]

end Records

end RunResults

/-! ## Runs -/

namespace Runner

variable {r : Runner} {names names' : Option (List String)} {manifest : Manifest}

/-- The executions of checkers on one module. -/
def executionsOn (r : Runner) (ctx : CheckContext) (cs : List Checker) : List Execution := cs.map fun c => ⟨c, ctx, r.suppressions⟩

/-- The executions of checkers on modules one after another, each with the directives of that module and of those before it. -/
def executionsEach (names : Option (List String)) (manifest : Manifest) : Runner → List Module → List Execution
  | _, [] => []
  | r, m :: ms =>
    (r.observe m).executionsOn (r.context m manifest) (r.selected names) ++ executionsEach names manifest (r.observe m) ms

/-- The executions that a run over the modules of a project consists of. -/
def executions (r : Runner) (ms : List Module) (names : Option (List String)) : List Execution :=
  executionsEach names (r.projectManifest ms) r ms

theorem outcome_eq (ctx : CheckContext) (c : Checker) : (⟨c, ctx, r.suppressions⟩ : Execution).outcome = r.contribution ctx c := rfl

/-- A run over one module goes through when all its executions do. -/
theorem runCheckers_returns {ctx : CheckContext} : ∀ (cs : List Checker) (results : RunResults),
    (∀ e ∈ r.executionsOn ctx cs, e.Returns) → ∃ results', r.runCheckers ctx cs results = .ok results'
  | [], results, _ => ⟨results, rfl⟩
  | c :: cs, results, h => by
    obtain ⟨⟨ds, hds⟩, hrest⟩ := List.forall_mem_cons.1 h
    rw [outcome_eq] at hds
    rw [runCheckers, hds]
    exact runCheckers_returns cs _ hrest

theorem runCheckers_records {ctx : CheckContext} : ∀ (cs : List Checker) {es : List Execution} {results results' : RunResults},
    results.Records es → r.runCheckers ctx cs results = .ok results' →
      results'.Records (es ++ r.executionsOn ctx cs) ∧ ∀ e ∈ r.executionsOn ctx cs, e.Returns
  | [], es, results, results', h, hrun => by
    cases hrun
    exact ⟨by simpa [executionsOn] using h, List.forall_mem_nil _⟩
  | c :: cs, es, results, results', h, hrun => by
    rw [runCheckers] at hrun
    split at hrun
    · next ds hds =>
      rw [← outcome_eq] at hds
      obtain ⟨hrecords, hreturns⟩ := runCheckers_records cs (h.record hds) hrun
      rw [List.append_assoc] at hrecords
      exact ⟨hrecords, List.forall_mem_cons.2 ⟨⟨ds, hds⟩, hreturns⟩⟩
    · cases hrun

theorem runEach_returns : ∀ (ms : List Module) (r : Runner) (results : RunResults),
    (∀ e ∈ executionsEach names manifest r ms, e.Returns) → ∃ results', (runEach names manifest r ms results).1 = .ok results'
  | [], _, results, _ => ⟨results, rfl⟩
  | m :: ms, r, results, h => by
    obtain ⟨hfirst, hrest⟩ := List.forall_mem_append.1 h
    obtain ⟨more, hmore⟩ := runCheckers_returns (r.selected names) { files := [m.file] } hfirst
    obtain ⟨results', hresults'⟩ := runEach_returns ms (r.observe m) (results.extend more) hrest
    exact ⟨results', runEach_cons_eq_ok_iff.2 ⟨more, hmore, hresults'⟩⟩

/-- A run over modules records all its executions, and no name of a checker twice. -/
theorem runEach_records : ∀ (ms : List Module) {r : Runner} {es : List Execution} {results results' : RunResults},
    results.Records es → results.checkerNames.Nodup → (runEach names manifest r ms results).1 = .ok results' →
      results'.Records (es ++ executionsEach names manifest r ms) ∧ results'.checkerNames.Nodup ∧
        ∀ e ∈ executionsEach names manifest r ms, e.Returns
  | [], r, es, results, results', h, hnodup, hrun => by
    cases hrun
    exact ⟨by simpa [executionsEach] using h, hnodup, List.forall_mem_nil _⟩
  | m :: ms, r, es, results, results', h, hnodup, hrun => by
    obtain ⟨more, hmore, hrun⟩ := runEach_cons_eq_ok_iff.1 hrun
    obtain ⟨hown, hfirst⟩ := runCheckers_records _ (.start [m.file]) hmore
    obtain ⟨hrecords, hnodup, hrest⟩ := runEach_records ms (h.extend hown) (RunResults.nodup_union hnodup) hrun
    rw [List.nil_append, List.append_assoc] at hrecords
    exact ⟨hrecords, hnodup, List.forall_mem_append.2 ⟨hfirst, hrest⟩⟩

theorem runModules_records {ms : List Module} {results : RunResults} (h : r.runModules ms names = .ok results) :
    results.Records (r.executions ms names) ∧ results.checkerNames.Nodup ∧ ∀ e ∈ r.executions ms names, e.Returns :=
  runEach_records ms (.start []) List.nodup_nil h

theorem checker_of_mem_executionsEach : ∀ {ms : List Module} {r : Runner} {e : Execution},
    e ∈ executionsEach names manifest r ms → e.checker ∈ r.selected names
  | m :: ms, r, e, h => by
    rcases List.mem_append.1 h with h | h
    · obtain ⟨c, hc, rfl⟩ := List.mem_map.1 h
      exact hc
    · exact checker_of_mem_executionsEach (r := r.observe m) h

/-- With checkers of one name changed, the executions of the others stay as they are. -/
theorem executionsEach_filter {broken : String} {registry : Registry} : ∀ (ms : List Module) {r : Runner},
    (({ r with registry := registry }.selected names').filter (·.name != broken) =
      (r.selected names).filter (·.name != broken)) →
    (executionsEach names' manifest { r with registry := registry } ms).filter (·.checker.name != broken) =
      (executionsEach names manifest r ms).filter (·.checker.name != broken)
  | [], _, _ => rfl
  | m :: ms, r, h => by
    have hmap : ∀ cs : List Checker, ((r.observe m).executionsOn (r.context m manifest) cs).filter (·.checker.name != broken) =
        (r.observe m).executionsOn (r.context m manifest) (cs.filter (·.name != broken)) := fun cs => List.filter_map
    have hrest := executionsEach_filter ms (r := r.observe m) h
    rw [executionsEach, executionsEach, List.filter_append, List.filter_append, hmap, ← h, ← hmap, ← hrest]
    rfl

/-- When checkers of one name are taken out, put in, or replaced by such that accept all options, a run still goes through, and the
others report what they did. -/
theorem runModules_without {ms : List Module} {results : RunResults} (hrun : r.runModules ms names = .ok results) {broken : String}
    {registry : Registry} (hothers : ({ r with registry := registry }.selected names').filter (·.name != broken) =
      (r.selected names).filter (·.name != broken))
    (haccept : ∀ c ∈ { r with registry := registry }.selected names', c.name = broken →
      ∀ ctx failure, c.check ctx ≠ .error (.options failure)) :
    ∃ results', { r with registry := registry }.runModules ms names' = .ok results' ∧
      ∀ name ≠ broken, results'.ofChecker name = results.ofChecker name := by
  obtain ⟨hrecords, -, hreturns⟩ := runModules_records hrun
  have hsame : ({ r with registry := registry }.executions ms names').filter (·.checker.name != broken) =
      (r.executions ms names).filter (·.checker.name != broken) := executionsEach_filter ms hothers
  have hgoes : ∀ e ∈ { r with registry := registry }.executions ms names', e.Returns := by
    intro e he
    -- An execution of another checker is one of the run that returned.
    by_cases hname : e.checker.name = broken
    · exact Execution.returns_of_accepts (haccept _ (checker_of_mem_executionsEach he) hname e.ctx)
    · have hmem : e ∈ (r.executions ms names).filter (·.checker.name != broken) :=
        hsame ▸ List.mem_filter.2 ⟨he, by simpa using hname⟩
      exact hreturns e (List.mem_of_mem_filter hmem)
  obtain ⟨results', hrun'⟩ := runEach_returns ms { r with registry := registry } {} hgoes
  refine ⟨results', hrun', fun name hname => ?_⟩
  have hkept := filter_filter_of_ne (fun e : Execution => e.checker.name) hname
  rw [(runModules_records hrun').1.ofChecker, hrecords.ofChecker, ← hkept, hsame, hkept]

end Runner

/-! ## Extensions -/

namespace RunResults

/-- Several results, after the first of two of them, which are given by their places, was extended by the second. -/
def extendAt (pool : List RunResults) (call : Nat × Nat) : List RunResults :=
  match pool[call.1]?, pool[call.2]? with
  | some r, some s => pool.set call.1 (r.extend s)
  | _, _ => pool

/-- Several results after extensions, one after another. -/
def extendEach (calls : List (Nat × Nat)) (pool : List RunResults) : List RunResults := calls.foldl extendAt pool

variable {P : RunResults → Prop}

theorem forall_mem_extendAt (hextend : ∀ r s, P r → P s → P (r.extend s)) {pool : List RunResults} (h : ∀ r ∈ pool, P r)
    (call : Nat × Nat) : ∀ r ∈ extendAt pool call, P r := by
  unfold extendAt
  split
  · next r s hr hs =>
    intro results hresults
    rcases List.mem_or_eq_of_mem_set hresults with hmem | rfl
    · exact h results hmem
    · exact hextend r s (h r (List.mem_of_getElem? hr)) (h s (List.mem_of_getElem? hs))
  · exact h

theorem forall_mem_extendEach (hextend : ∀ r s, P r → P s → P (r.extend s)) : ∀ (calls : List (Nat × Nat))
    {pool : List RunResults}, (∀ r ∈ pool, P r) → ∀ r ∈ extendEach calls pool, P r
  | [], _, h => h
  | call :: calls, _, h => forall_mem_extendEach hextend calls (forall_mem_extendAt hextend h call)

/-! ## Consistency -/

/-- The first line of a summary, with a number of diagnostics. -/
def headline (r : RunResults) (total : Nat) : String :=
  "Checked " ++ toString r.files.length ++ " files: " ++ toString total ++ " diagnostics (" ++ toString (r.count .error) ++
    " errors, " ++ toString (r.count .warning) ++ " warnings), " ++ toString r.failures.length ++ " files failed"

/-- The line of a summary for a checker, with its number of findings. -/
def countLine (elapsed : String → String) (name : String) (count : Nat) : String :=
  "  " ++ name ++ ": " ++ toString count ++ " findings (" ++ elapsed name ++ ")"

/-- Results that agree with themselves: no checker is named twice, the counts in the summary add up to the total that it shows, and
each diagnostic is in the list of its severity and in no other. -/
structure Consistent (r : RunResults) : Prop where
  nodup : r.checkerNames.Nodup
  total : r.counts.sum = r.diagnostics.length
  summary : ∀ elapsed, r.summary elapsed =
    "\n".intercalate (r.headline r.counts.sum :: List.zipWith (countLine elapsed) r.checkerNames r.counts)
  severities : (Severity.all.flatMap r.bySeverity).Perm r.diagnostics
  severity : ∀ s, ∀ d ∈ r.bySeverity s, d.severity = s

theorem Records.consistent {results : RunResults} {es : List Execution} (h : results.Records es)
    (hnodup : results.checkerNames.Nodup) : results.Consistent where
  nodup := hnodup
  total := h.sum_counts hnodup
  summary := by
    intro elapsed
    have hlines : List.zipWith (countLine elapsed) results.checkerNames results.counts =
        results.checkerNames.map fun name => countLine elapsed name (results.ofChecker name).length := by
      rw [counts, List.zipWith_map_right, List.zipWith_self]
    rw [h.sum_counts hnodup, hlines]
    rfl
  severities := flatMap_filter_perm (by decide) fun d _ => by cases d.severity <;> decide
  severity := fun _ _ hd => beq_iff_eq.1 (List.mem_filter.1 hd).2

end RunResults

/-- A run over the modules of a project. -/
structure ProjectRun where
  runner : Runner
  modules : List Module
  names : Option (List String)

namespace ProjectRun

/-- The checkers that the run executes on each module. -/
def checkers (run : ProjectRun) : List Checker := run.runner.selected run.names

/-- The run goes through with these results. -/
def Returns (run : ProjectRun) (results : RunResults) : Prop := run.runner.runModules run.modules run.names = .ok results

/-- The results record executions of checkers of some runs, and name no checker twice. -/
def Recorded (runs : List ProjectRun) (results : RunResults) : Prop :=
  results.checkerNames.Nodup ∧ ∃ es, results.Records es ∧ ∀ e ∈ es, ∃ run ∈ runs, e.checker ∈ run.checkers

theorem Recorded.extend {runs : List ProjectRun} (r s : RunResults) (h : Recorded runs r) (h' : Recorded runs s) :
    Recorded runs (r.extend s) := by
  obtain ⟨hnodup, es, hrecords, hes⟩ := h
  obtain ⟨-, es', hrecords', hes'⟩ := h'
  exact ⟨RunResults.nodup_union hnodup, es ++ es', hrecords.extend hrecords', List.forall_mem_append.2 ⟨hes, hes'⟩⟩

theorem Returns.recorded {runs : List ProjectRun} {run : ProjectRun} (hrun : run ∈ runs) {results : RunResults}
    (h : run.Returns results) : Recorded runs results := by
  obtain ⟨hrecords, hnodup, -⟩ := Runner.runModules_records h
  exact ⟨hnodup, _, hrecords, fun e he => ⟨run, hrun, Runner.checker_of_mem_executionsEach he⟩⟩

/-- Results stay consistent. Take the results of some runs over projects, and extend some of them by others, or by themselves,
again and again. No result names a checker twice, its counts add up, and its severities divide its diagnostics; and when the
checkers put their names on what they report, what is kept for a name are the diagnostics with that name, in their order.

The results of a run are what its executions contribute, one after another. An execution that breaks down contributes one
diagnostic, which says so. With the checker taken out or replaced, in this registry or another one, the run goes through as well,
unless the new one rejects its options, and what it keeps for the others is the same. -/
theorem results_stay_consistent :
    (∀ (runs : List ProjectRun) (pool : List RunResults) (calls : List (Nat × Nat)),
      (∀ results ∈ pool, ∃ run ∈ runs, run.Returns results) →
      ∀ results ∈ RunResults.extendEach calls pool, results.Consistent ∧
        ((∀ run ∈ runs, ∀ c ∈ run.checkers, c.Signs) →
          ∀ name, results.ofChecker name = results.diagnostics.filter (·.checker == name))) ∧
    ∀ (r : Runner) (ms : List Module) (names : Option (List String)) (results : RunResults), r.runModules ms names = .ok results →
      results.Records (r.executions ms names) ∧
      (∀ e ∈ r.executions ms names, ∀ reason, e.checker.check e.ctx = .error (.breakdown reason) →
        e.diagnostics = [Runner.breakdownDiagnostic e.checker.name e.ctx.module.file reason]) ∧
      ∀ (broken : String) (registry : Registry) (names' : Option (List String)),
        ({ r with registry := registry }.selected names').filter (·.name != broken) =
          (r.selected names).filter (·.name != broken) →
        (∀ c ∈ { r with registry := registry }.selected names', c.name = broken →
          ∀ ctx failure, c.check ctx ≠ .error (.options failure)) →
        ∃ results', { r with registry := registry }.runModules ms names' = .ok results' ∧
          ∀ name ≠ broken, results'.ofChecker name = results.ofChecker name := by
  constructor
  · intro runs pool calls hreturns
    have hpool : ∀ results ∈ pool, Recorded runs results := by
      intro results hresults
      obtain ⟨run, hrun, h⟩ := hreturns results hresults
      exact h.recorded hrun
    intro results hresults
    obtain ⟨hnodup, es, hrecords, hes⟩ := RunResults.forall_mem_extendEach Recorded.extend calls hpool results hresults
    refine ⟨hrecords.consistent hnodup, fun hsigns => hrecords.ofChecker_eq_filter fun e he => ?_⟩
    obtain ⟨run, hrun, hchecker⟩ := hes e he
    exact hsigns run hrun e.checker hchecker
  · intro r ms names results hrun
    exact ⟨(Runner.runModules_records hrun).1, fun e _ reason => Execution.diagnostics_of_breakdown,
      fun _ _ _ hothers haccept => Runner.runModules_without hrun hothers haccept⟩

/-- A checker that always breaks down. -/
def brokenChecker : Checker where
  name := "broken"
  description := "always fails"
  errorIds := []
  severity := .warning
  check := fun _ => .error (.breakdown "kaboom")

set_option maxRecDepth 100000 in
/-- A run over a module with one ignored error, with the checker for ignored errors and a broken one: there are two diagnostics. Its
results extended by themselves are consistent, and without the broken checker the error is still reported. -/
theorem consistent_with_broken_checker : ∃ m results results',
    Module.parse "f r =\n    case r of\n        Err _ -> 0\n" "F.elm" = .ok m ∧
    Returns ⟨{ registry := Registry.builtin.register brokenChecker, options := { originCheck := "any" } }, [m], none⟩ results ∧
    results.diagnostics.length = 2 ∧ (results.extend results).Consistent ∧
    (results.extend results).ofChecker "broken" = (results.extend results).diagnostics.filter (·.checker == "broken") ∧
    Returns ⟨{ options := { originCheck := "any" } }, [m], none⟩ results' ∧
    results'.ofChecker ignoredErrorName = results.ofChecker ignoredErrorName := by
  obtain ⟨m, hparse, htest⟩ := Module.exists_parse_of_any "f r =\n    case r of\n        Err _ -> 0\n" "F.elm"
    (fun m => (({ registry := Registry.builtin.register brokenChecker, options := { originCheck := "any" } } : Runner).runModules
      [m] none).toOption.any fun results => results.diagnostics.length == 2) (by decide +kernel)
  obtain ⟨results, hreturns, hlength⟩ := exists_ok_of_any _ _ htest
  obtain ⟨hconsistent, halone⟩ := results_stay_consistent
  have hextended := hconsistent
    [⟨{ registry := Registry.builtin.register brokenChecker, options := { originCheck := "any" } }, [m], none⟩] [results] [(0, 0)]
    (List.forall_mem_singleton.2 ⟨_, List.mem_singleton_self _, hreturns⟩) (results.extend results) (List.mem_singleton_self _)
  have hsigns : ∀ c ∈ [ignoredErrorChecker, brokenChecker], c.Signs := by
    simp only [List.forall_mem_cons]
    exact ⟨signs_ignoredErrorChecker, nofun, List.forall_mem_nil _⟩
  obtain ⟨-, -, hwithout⟩ := halone _ [m] none results hreturns
  obtain ⟨results', hreturns', hsame⟩ := hwithout "broken" .builtin none rfl fun c hc hname => by
    rw [List.mem_singleton.1 hc] at hname
    exact absurd hname (by decide)
  exact ⟨m, results, results', hparse, hreturns, beq_iff_eq.1 hlength, hextended.1,
    hextended.2 (List.forall_mem_singleton.2 hsigns) "broken", hreturns', hsame ignoredErrorName (by decide)⟩

end ProjectRun

end ElmLint
