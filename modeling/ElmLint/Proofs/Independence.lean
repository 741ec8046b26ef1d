import ElmLint.Proofs.Manifest
import ElmLint.Proofs.Project
import ElmLint.Proofs.Scope
import Mathlib.Data.List.Pairwise
import Mathlib.Data.List.Perm.Basic

/-!
# Modules of a project do not interfere

All modules of a project share the directives that a runner has seen and the manifest of the project. What is reported in the
file of a module depends on neither, as long as no other module is in that file: directives only reach the file they stand in
(`covers_congr`), and of a manifest only the interfaces of the imports count. Earlier runs leave nothing in a runner but directives
of their modules (`exists_seen_afterRuns`). So two runs report the same in the file of a module when they know the same about its
imports, whatever was run before (`byFile_runModules_independent`).
-/

namespace ElmLint

/-! ## Directives -/

namespace Suppressions

/-- Suppressions that are the same in a file: they have the same members, in whatever order they were added and however often,
but for the directives of other files. -/
structure SameIn (file : String) (s t : Suppressions) : Prop where
  everywhere : ∀ id, id ∈ s.everywhere ↔ id ∈ t.everywhere
  inFiles : ∀ rule, rule ∈ s.inFiles ↔ rule ∈ t.inFiles
  atLines : ∀ directive, directive.1 = file → (directive ∈ s.atLines ↔ directive ∈ t.atLines)

/-- Whether a test holds of some item is told by the items that it holds of. -/
theorem any_congr {α : Type} {p : α → Bool} {as bs : List α} (h : ∀ a, p a = true → (a ∈ as ↔ a ∈ bs)) : as.any p = bs.any p := by
  rw [Bool.eq_iff_iff, List.any_eq_true, List.any_eq_true]
  exact exists_congr fun a => and_congr_left (h a)

/-- A diagnostic is suppressed by what is the same in its file. -/
theorem covers_congr {file : String} {s t : Suppressions} (h : SameIn file s t) {d : Diagnostic} (hd : d.file = file) :
    s.covers d = t.covers d := by
  have hlines : ∀ directive : String × Nat × String,
      (directive.1 == d.file && reachesLine directive.2.1 d && coversId directive.2.2 d) = true →
      (directive ∈ s.atLines ↔ directive ∈ t.atLines) := by
    intro directive hreaches
    simp only [Bool.and_eq_true, beq_iff_eq] at hreaches
    exact h.atLines directive (hreaches.1.1.trans hd)
  rw [covers, covers, any_congr fun id _ => h.everywhere id, any_congr hlines, any_congr fun rule _ => h.inFiles rule]

/-- In a file the same diagnostics remain. -/
theorem filter_congr {file : String} {s t : Suppressions} (h : SameIn file s t) (ds : List Diagnostic) :
    (s.filter ds).filter (·.file == file) = (t.filter ds).filter (·.file == file) := by
  rw [filter, filter, List.filter_filter, List.filter_filter]
  refine List.filter_congr fun d _ => ?_
  cases hd : d.file == file with
  | false => rfl
  | true => rw [covers_congr h (beq_iff_eq.1 hd)]

/-- The directives of a module. -/
def directives (m : Module) : List (String × Nat × String) := m.comments.flatMap (ofComment m.file)

theorem file_of_mem_directives {m : Module} {directive : String × Nat × String} (h : directive ∈ directives m) :
    directive.1 = m.file := by
  obtain ⟨c, -, h⟩ := List.mem_flatMap.1 h
  obtain ⟨id, -, rfl⟩ := List.mem_map.1 h
  rfl

theorem foldl_loadInline : ∀ (ms : List Module) (s : Suppressions),
    ms.foldl loadInline s = { s with atLines := s.atLines ++ ms.flatMap directives }
  | [], s => by simp
  | m :: ms, s => by
    rw [List.foldl_cons, foldl_loadInline ms, List.flatMap_cons, ← List.append_assoc]
    rfl

/-- After a module has been seen, and besides it only modules in other files, it is its own directives that are new in its
file. -/
theorem mem_atLines_foldl_loadInline (s : Suppressions) {m : Module} {ms : List Module} (hm : m ∈ ms)
    (hothers : ∀ m' ∈ ms, m' = m ∨ m'.file ≠ m.file) {directive : String × Nat × String} (hfile : directive.1 = m.file) :
    directive ∈ (ms.foldl loadInline s).atLines ↔ directive ∈ s.atLines ∨ directive ∈ directives m := by
  rw [foldl_loadInline, List.mem_append, List.mem_flatMap]
  refine or_congr_right ⟨?_, fun hdirective => ⟨m, hm, hdirective⟩⟩
  rintro ⟨m', hm', hdirective⟩
  rcases hothers m' hm' with rfl | hne
  · exact hdirective
  · exact absurd ((file_of_mem_directives hdirective).symm.trans hfile) hne

/-- So suppressions that were the same in its file before still are, whatever else has been seen. -/
theorem SameIn.foldl_loadInline {m : Module} {s t : Suppressions} (h : SameIn m.file s t) {ms ms' : List Module}
    (hm : m ∈ ms) (hm' : m ∈ ms') (hothers : ∀ m' ∈ ms, m' = m ∨ m'.file ≠ m.file)
    (hothers' : ∀ m' ∈ ms', m' = m ∨ m'.file ≠ m.file) :
    SameIn m.file (ms.foldl loadInline s) (ms'.foldl loadInline t) := by
  refine ⟨?_, ?_, fun directive hfile => ?_⟩
  · rw [Suppressions.foldl_loadInline, Suppressions.foldl_loadInline]
    exact h.everywhere
  · rw [Suppressions.foldl_loadInline, Suppressions.foldl_loadInline]
    exact h.inFiles
  · rw [mem_atLines_foldl_loadInline s hm hothers hfile, mem_atLines_foldl_loadInline t hm' hothers' hfile,
      h.atLines directive hfile]

end Suppressions

/-! ## What is reported in a file -/

/-- A checker that reports nothing but what is in the file of the module it looks at. -/
def Checker.Confined (c : Checker) : Prop :=
  ∀ ctx report, c.check ctx = .ok report → ∀ d ∈ report.diagnostics, d.file = ctx.module.file

theorem confined_ignoredErrorChecker : ignoredErrorChecker.Confined := by
  intro ctx report h d hd
  obtain ⟨check, f, rfl⟩ := ignoredErrorChecker_reports h hd
  rfl

namespace RunResults

theorem byFile_record (results : RunResults) (name : String) (ds : List Diagnostic) (file : String) :
    (results.record name ds).byFile file = results.byFile file ++ ds.filter (·.file == file) :=
  List.filter_append ..

theorem byFile_extend (r s : RunResults) (file : String) : (r.extend s).byFile file = r.byFile file ++ s.byFile file :=
  List.filter_append ..

end RunResults

namespace Runner

variable {r r₁ r₂ : Runner} {names names₁ names₂ : Option (List String)} {manifest : Manifest} {file : String}

/-- A checker that breaks down or is confined contributes nothing to other files. -/
theorem contribution_elsewhere {ctx : CheckContext} {c : Checker} (hc : c.Confined) (hfile : ctx.module.file ≠ file)
    {ds : List Diagnostic} (h : r.contribution ctx c = .ok ds) : ds.filter (·.file == file) = [] := by
  refine List.filter_eq_nil_iff.2 fun d hd => ?_
  rw [beq_iff_eq]
  unfold contribution at h
  split at h
  · next report hreport =>
    cases h
    rw [hc ctx report hreport d (List.mem_of_mem_filter hd)]
    exact hfile
  · cases h
    rw [List.mem_singleton.1 hd]
    exact hfile
  · cases h

theorem runCheckers_elsewhere {ctx : CheckContext} (hfile : ctx.module.file ≠ file) :
    ∀ (cs : List Checker) (results results' : RunResults), (∀ c ∈ cs, c.Confined) →
      r.runCheckers ctx cs results = .ok results' → results'.byFile file = results.byFile file
  | [], results, results', _, h => by
    cases h
    rfl
  | c :: cs, results, results', hcs, h => by
    rw [runCheckers] at h
    split at h
    · next ds hds =>
      rw [runCheckers_elsewhere hfile cs _ _ (fun d hd => hcs d (List.mem_cons_of_mem c hd)) h, RunResults.byFile_record,
        contribution_elsewhere (hcs c List.mem_cons_self) hfile hds, List.append_nil]
    · cases h

/-- Runs over modules in other files report nothing in a file. -/
theorem runEach_elsewhere (hconfined : ∀ c ∈ r.selected names, c.Confined) :
    ∀ (ms : List Module) (s : Suppressions) (results results' : RunResults), (∀ m ∈ ms, m.file ≠ file) →
      (runEach names manifest { r with suppressions := s } ms results).1 = .ok results' →
      results'.byFile file = results.byFile file
  | [], s, results, results', _, h => by
    cases h
    rfl
  | m :: ms, s, results, results', hms, h => by
    obtain ⟨more, hmore, h⟩ := runEach_cons_eq_ok_iff.1 h
    have hnone : more.byFile file = [] := runCheckers_elsewhere (hms m List.mem_cons_self) _ _ _ hconfined hmore
    have hrest := runEach_elsewhere hconfined ms (s.loadInline m) _ _ (fun m' hm' => hms m' (List.mem_cons_of_mem m hm')) h
    rw [hrest, RunResults.byFile_extend, hnone, List.append_nil]

/-- What a run over modules reports in the file of one of them, it reports when it comes to that one. -/
theorem runEach_at (hconfined : ∀ c ∈ r.selected names, c.Confined) {m : Module} {later : List Module} :
    ∀ (sooner : List Module) (s : Suppressions) (results results' : RunResults),
      (∀ m' ∈ sooner ++ later, m'.file ≠ m.file) →
      (runEach names manifest { r with suppressions := s } (sooner ++ m :: later) results).1 = .ok results' →
      ∃ own, { r with suppressions := sooner.foldl Suppressions.loadInline s }.run m names manifest = .ok own ∧
        results'.byFile m.file = results.byFile m.file ++ own.byFile m.file
  | [], s, results, results', hothers, h => by
    obtain ⟨own, hown, h⟩ := runEach_cons_eq_ok_iff.1 h
    refine ⟨own, hown, ?_⟩
    rw [runEach_elsewhere hconfined later (s.loadInline m) _ _ hothers h, RunResults.byFile_extend]
  | m' :: sooner, s, results, results', hothers, h => by
    obtain ⟨more, hmore, h⟩ := runEach_cons_eq_ok_iff.1 h
    have hnone : more.byFile m.file = [] := runCheckers_elsewhere (hothers m' List.mem_cons_self) _ _ _ hconfined hmore
    obtain ⟨own, hown, hreported⟩ := runEach_at hconfined sooner (s.loadInline m') _ _
      (fun m'' hm'' => hothers m'' (List.mem_cons_of_mem m' hm'')) h
    rw [RunResults.byFile_extend, hnone, List.append_nil] at hreported
    exact ⟨own, hown, hreported⟩

/-- Suppressions that are the same in a file leave the same in it of what checkers report. -/
theorem runCheckers_congr {ctx : CheckContext} (hsame : Suppressions.SameIn file r₁.suppressions r₂.suppressions) :
    ∀ (cs : List Checker) (results₁ results₂ results₁' results₂' : RunResults),
      results₁.byFile file = results₂.byFile file → r₁.runCheckers ctx cs results₁ = .ok results₁' →
      r₂.runCheckers ctx cs results₂ = .ok results₂' → results₁'.byFile file = results₂'.byFile file
  | [], _, _, _, _, h, h₁, h₂ => by
    cases h₁
    cases h₂
    exact h
  | c :: cs, results₁, results₂, results₁', results₂', h, h₁, h₂ => by
    rw [runCheckers, contribution] at h₁ h₂
    cases hcheck : c.check ctx with
    | ok report =>
      rw [hcheck] at h₁ h₂
      refine runCheckers_congr hsame cs _ _ _ _ ?_ h₁ h₂
      rw [RunResults.byFile_record, RunResults.byFile_record, h, Suppressions.filter_congr hsame]
    | error e =>
      cases e with
      | options failure =>
        rw [hcheck] at h₁
        cases h₁
      | breakdown reason =>
        rw [hcheck] at h₁ h₂
        refine runCheckers_congr hsame cs _ _ _ _ ?_ h₁ h₂
        rw [RunResults.byFile_record, RunResults.byFile_record, h]

/-! ## What runs leave -/

theorem foldl_observe : ∀ (ms : List Module) (r : Runner),
    ms.foldl observe r = { r with suppressions := ms.foldl Suppressions.loadInline r.suppressions }
  | [], _ => rfl
  | m :: ms, r => foldl_observe ms (r.observe m)

/-- The runner that a run leaves has seen the modules up to the one where the run ended. -/
theorem exists_seen_runEach : ∀ (ms : List Module) (r : Runner) (results : RunResults),
    ∃ seen, seen <+: ms ∧ (runEach names manifest r ms results).2 = seen.foldl observe r
  | [], r, _ => ⟨[], List.prefix_rfl, rfl⟩
  | m :: ms, r, results => by
    rw [runEach]
    split
    · next more _ =>
      obtain ⟨seen, hprefix, hleft⟩ := exists_seen_runEach ms (r.observe m) (results.extend more)
      exact ⟨m :: seen, (List.prefix_cons_inj m).2 hprefix, hleft⟩
    · exact ⟨[m], (List.prefix_cons_inj m).2 List.nil_prefix, rfl⟩

/-- A run over one module leaves a runner that has seen it, whatever comes of the run. -/
theorem afterModules_singleton (r : Runner) (m : Module) (names : Option (List String)) : r.afterModules [m] names = r.observe m := by
  rw [afterModules, runEach]
  split <;> rfl

/-- The runner after runs, each over the modules of a project and with checkers of its own. A run over one module with any manifest
leaves what a run over the project of this module leaves (`afterModules_singleton`). -/
def afterRuns (r : Runner) (runs : List (List Module × Option (List String))) : Runner :=
  runs.foldl (fun r run => r.afterModules run.1 run.2) r

/-- Runs leave nothing behind but the directives of modules that were among theirs. -/
theorem exists_seen_afterRuns : ∀ (runs : List (List Module × Option (List String))) (r : Runner),
    ∃ seen : List Module, (∀ m ∈ seen, ∃ run ∈ runs, m ∈ run.1) ∧
      r.afterRuns runs = { r with suppressions := seen.foldl Suppressions.loadInline r.suppressions }
  | [], r => ⟨[], List.forall_mem_nil _, rfl⟩
  | run :: runs, r => by
    obtain ⟨first, hprefix, hleft⟩ : ∃ first, first <+: run.1 ∧ r.afterModules run.1 run.2 = first.foldl observe r :=
      exists_seen_runEach run.1 r {}
    obtain ⟨seen, hseen, hafter⟩ := exists_seen_afterRuns runs (r.afterModules run.1 run.2)
    refine ⟨first ++ seen, fun m hm => ?_, ?_⟩
    · rcases List.mem_append.1 hm with hm | hm
      · exact ⟨run, List.mem_cons_self, hprefix.subset hm⟩
      · obtain ⟨run', hrun', hm⟩ := hseen m hm
        exact ⟨run', List.mem_cons_of_mem run hrun', hm⟩
    · rw [afterRuns, List.foldl_cons, ← afterRuns, hafter, hleft, foldl_observe, List.foldl_append]

/-! ## Two runs -/

/-- Runners that run the same checkers with the same options, and suppress the same in a file. -/
structure SameSettings (file : String) (r₁ : Runner) (names₁ : Option (List String)) (r₂ : Runner)
    (names₂ : Option (List String)) : Prop where
  options : r₁.options = r₂.options
  checkers : r₁.selected names₁ = r₂.selected names₂
  suppressions : r₁.suppressions.SameIn file r₂.suppressions

end Runner

/-- A run contains a module once, and no other module of this run or of the runs before it is in the same file. -/
structure Module.OwnsFile (m : Module) (earlier : List (List Module × Option (List String))) (ms : List Module) : Prop where
  once : ∃ sooner later, ms = sooner ++ m :: later ∧ ∀ m' ∈ sooner ++ later, m'.file ≠ m.file
  before : ∀ run ∈ earlier, ∀ m' ∈ run.1, m' = m ∨ m'.file ≠ m.file

namespace Runner

variable {r r₁ r₂ : Runner} {names names₁ names₂ : Option (List String)} {m : Module}
  {earlier earlier₁ earlier₂ : List (List Module × Option (List String))}

/-- What a run reports in the file of a module comes from the run over that module, when that module and besides it only
modules in other files have been seen. -/
theorem exists_own (hconfined : ∀ c ∈ r.selected names, c.Confined) {ms : List Module} (howns : m.OwnsFile earlier ms)
    {results : RunResults} (h : (r.afterRuns earlier).runModules ms names = .ok results) :
    ∃ (own : RunResults) (seen : List Module), { r with suppressions := seen.foldl Suppressions.loadInline r.suppressions }.runCheckers
        (r.context m (r.projectManifest ms)) (r.selected names) { files := [m.file] } = .ok own ∧
      results.byFile m.file = own.byFile m.file ∧ m ∈ seen ∧ ∀ m' ∈ seen, m' = m ∨ m'.file ≠ m.file := by
  obtain ⟨sooner, later, rfl, hothers⟩ := howns.once
  obtain ⟨before, hbefore, hafter⟩ := exists_seen_afterRuns earlier r
  rw [runModules, hafter] at h
  obtain ⟨own, hown, hreported⟩ := runEach_at hconfined sooner _ _ _ hothers h
  refine ⟨own, before ++ sooner ++ [m], ?_, hreported, by simp, fun m' hm' => ?_⟩
  · rw [List.foldl_append, List.foldl_append]
    exact hown
  · rcases List.mem_append.1 hm' with hm' | hm'
    · rcases List.mem_append.1 hm' with hm' | hm'
      · obtain ⟨run, hrun, hm'⟩ := hbefore m' hm'
        exact howns.before run hrun m' hm'
      · exact .inr (hothers m' (List.mem_append_left later hm'))
    · exact .inl (List.mem_singleton.1 hm')

/-- A module is looked at alike under two manifests that know the same about its imports. -/
theorem context_congr (hoptions : r₁.options = r₂.options) {ms₁ ms₂ : List Module}
    (himports : m.ImportsAlike (r₁.projectManifest ms₁) (r₂.projectManifest ms₂)) :
    r₁.context m (r₁.projectManifest ms₁) = r₂.context m (r₂.projectManifest ms₂) := by
  have htable : LookupTable.build m (r₁.projectManifest ms₁) = LookupTable.build m (r₂.projectManifest ms₂) := by
    apply LookupTable.build_congr
    rw [Manifest.orCore_projectManifest, Manifest.orCore_projectManifest]
    exact himports
  rw [context, context, hoptions, htable]

/-- Two runs report the same in the file of a module, when they know the same about its imports. -/
theorem byFile_runModules_congr (hsettings : SameSettings m.file r₁ names₁ r₂ names₂)
    (hconfined : ∀ c ∈ r₁.selected names₁, c.Confined) {ms₁ ms₂ : List Module}
    (howns₁ : m.OwnsFile earlier₁ ms₁) (howns₂ : m.OwnsFile earlier₂ ms₂)
    (himports : m.ImportsAlike (r₁.projectManifest ms₁) (r₂.projectManifest ms₂)) {results₁ results₂ : RunResults}
    (h₁ : (r₁.afterRuns earlier₁).runModules ms₁ names₁ = .ok results₁)
    (h₂ : (r₂.afterRuns earlier₂).runModules ms₂ names₂ = .ok results₂) :
    results₁.byFile m.file = results₂.byFile m.file := by
  have hconfined₂ : ∀ c ∈ r₂.selected names₂, c.Confined := hsettings.checkers ▸ hconfined
  obtain ⟨own₁, seen₁, hown₁, hreported₁, hseen₁, hothers₁⟩ := exists_own hconfined howns₁ h₁
  obtain ⟨own₂, seen₂, hown₂, hreported₂, hseen₂, hothers₂⟩ := exists_own hconfined₂ howns₂ h₂
  have hsame := hsettings.suppressions.foldl_loadInline hseen₁ hseen₂ hothers₁ hothers₂
  rw [context_congr hsettings.options himports, hsettings.checkers] at hown₁
  rw [hreported₁, hreported₂]
  exact runCheckers_congr hsame _ _ _ _ _ rfl hown₁ hown₂

/-! ## Reordering and adding modules -/

/-- Modules of one project that differ in their names and in their files. -/
def Distinct (ms : List Module) : Prop := ms.Pairwise fun m m' => m.name ≠ m'.name ∧ m.file ≠ m'.file

theorem Distinct.perm {ms ms' : List Module} (h : Distinct ms) (hperm : ms'.Perm ms) : Distinct ms' :=
  (hperm.pairwise_iff fun h => ⟨h.1.symm, h.2.symm⟩).2 h

theorem Distinct.name_ne {ms : List Module} (h : Distinct ms) {m m' : Module} (hm : m ∈ ms) (hm' : m' ∈ ms) (hne : m ≠ m') :
    m.name ≠ m'.name := by
  have hsymm : Std.Symm fun m m' : Module => m.name ≠ m'.name ∧ m.file ≠ m'.file := ⟨fun _ _ h => ⟨h.1.symm, h.2.symm⟩⟩
  exact (List.Pairwise.forall h hm hm' hne).1

/-- A module among distinct ones owns its file. -/
theorem Distinct.ownsFile {ms : List Module} (h : Distinct ms) (hm : m ∈ ms)
    (hbefore : ∀ run ∈ earlier, ∀ m' ∈ run.1, m' = m ∨ m'.file ≠ m.file) : m.OwnsFile earlier ms := by
  refine ⟨?_, hbefore⟩
  obtain ⟨sooner, later, rfl⟩ := List.append_of_mem hm
  obtain ⟨-, hlater, hcross⟩ := List.pairwise_append.1 h
  refine ⟨sooner, later, rfl, fun m' hm' => ?_⟩
  rcases List.mem_append.1 hm' with hm' | hm'
  · exact (hcross m' hm' m List.mem_cons_self).2
  · exact fun e => ((List.pairwise_cons.1 hlater).1 m' hm').2 e.symm

/-- Reordering distinct modules and adding some that a module does not import leaves what is known about its imports. -/
theorem Distinct.importsAlike (hmanifest : r₁.manifest = r₂.manifest) {ms added ms' : List Module}
    (h : Distinct (ms ++ added)) (hperm : ms'.Perm (ms ++ added))
    (hadded : ∀ a ∈ added, ∀ i ∈ Scope.importsOf m, i.name ≠ a.name) :
    m.ImportsAlike (r₁.projectManifest ms) (r₂.projectManifest ms') := by
  intro i hi
  rw [projectManifest, projectManifest, Manifest.interface?, Manifest.interface?,
    Manifest.find?_merge _ (Manifest.keyed_ofInterfaces _), Manifest.find?_merge _ (Manifest.keyed_ofInterfaces _), hmanifest]
  congr 1
  have hname : ∀ m' : Module, (Interface.ofModule m').name = .ofName i.name → m'.name = i.name :=
    fun _ => ModulePath.ofName_injective
  refine Manifest.find?_ofInterfaces_congr (fun j hj j' hj' hji hji' => ?_) fun j hji => ?_
  · obtain ⟨a, ha, rfl⟩ := List.mem_map.1 hj
    obtain ⟨a', ha', rfl⟩ := List.mem_map.1 hj'
    by_contra hne
    have hnames : a.name ≠ a'.name := (h.perm hperm).name_ne ha ha' fun e => hne (e ▸ rfl)
    exact hnames ((hname a hji).trans (hname a' hji').symm)
  · constructor
    · intro hj
      obtain ⟨a, ha, rfl⟩ := List.mem_map.1 hj
      exact List.mem_map_of_mem (hperm.mem_iff.2 (List.mem_append_left added ha))
    · intro hj
      obtain ⟨a, ha, rfl⟩ := List.mem_map.1 hj
      rcases List.mem_append.1 (hperm.mem_iff.1 ha) with ha | ha
      · exact List.mem_map_of_mem ha
      · exact absurd (hname a hji).symm (hadded a ha i hi)

/-- Modules of a project do not interfere. Take two runs over modules, each perhaps after earlier ones of the same runner (with any
checkers, and whether they returned or not), with the same options, checkers and suppressions (but for directives in other files),
and checkers that report in the file of the module they look at. If both contain a module once, neither they nor the earlier runs have
another module in its file, and the manifests of the two projects know the same about its imports, then both report the same in its
file. That is so when all modules differ in name and file, the manifests outside the projects are the same, and the second run has
the modules of the first in any order, with others added that the module does not import. -/
theorem byFile_runModules_independent (m : Module) (hsettings : SameSettings m.file r₁ names₁ r₂ names₂)
    (hconfined : ∀ c ∈ r₁.selected names₁, c.Confined) (earlier₁ earlier₂ : List (List Module × Option (List String)))
    (ms₁ ms₂ : List Module) (results₁ results₂ : RunResults) (h₁ : (r₁.afterRuns earlier₁).runModules ms₁ names₁ = .ok results₁)
    (h₂ : (r₂.afterRuns earlier₂).runModules ms₂ names₂ = .ok results₂) :
    (m.OwnsFile earlier₁ ms₁ → m.OwnsFile earlier₂ ms₂ →
      m.ImportsAlike (r₁.projectManifest ms₁) (r₂.projectManifest ms₂) →
      results₁.byFile m.file = results₂.byFile m.file) ∧
    (∀ added : List Module, r₁.manifest = r₂.manifest → m ∈ ms₁ → Distinct (ms₁ ++ added) → ms₂.Perm (ms₁ ++ added) →
      (∀ a ∈ added, ∀ i ∈ Scope.importsOf m, i.name ≠ a.name) →
      (∀ run ∈ earlier₁ ++ earlier₂, ∀ m' ∈ run.1, m' = m ∨ m'.file ≠ m.file) →
      results₁.byFile m.file = results₂.byFile m.file) := by
  constructor
  · intro howns₁ howns₂ himports
    exact byFile_runModules_congr hsettings hconfined howns₁ howns₂ himports h₁ h₂
  · intro added hmanifest hm hdistinct hperm hadded hbefore
    have hdistinct₁ : Distinct ms₁ := (List.pairwise_append.1 hdistinct).1
    have howns₁ := hdistinct₁.ownsFile hm fun run hrun => hbefore run (List.mem_append_left _ hrun)
    have howns₂ := (hdistinct.perm hperm).ownsFile (hperm.mem_iff.2 (List.mem_append_left added hm))
      fun run hrun => hbefore run (List.mem_append_right _ hrun)
    exact byFile_runModules_congr hsettings hconfined howns₁ howns₂
      (hdistinct.importsAlike hmanifest hperm hadded) h₁ h₂

set_option maxRecDepth 100000 in
/-- The one ignored error of `A.elm` is reported in a run over it and a module that imports it, and in a run over both the other
way round after other runs. -/
theorem byFile_runModules_reordered :
    ∃ a b results₁ results₂,
      Module.parse "module A exposing (..)\nf r =\n    case r of\n        Err _ -> 0\n" "A.elm" = .ok a ∧
      Module.parse "module B exposing (..)\nimport A\nx = A.f -- elmcheck-suppress\n" "B.elm" = .ok b ∧
      ({ options := { originCheck := "any" } } : Runner).runModules [a, b] none = .ok results₁ ∧
      (({ options := { originCheck := "any" } } : Runner).afterRuns [([a], none), ([b], none)]).runModules [b, a] none = .ok results₂ ∧
      (results₁.byFile "A.elm").length = 1 ∧ results₁.byFile "A.elm" = results₂.byFile "A.elm" := by
  obtain ⟨b, hb, hnameb⟩ := Module.exists_parse_of_any "module B exposing (..)\nimport A\nx = A.f -- elmcheck-suppress\n" "B.elm"
    (fun b => b.name == ["B"] && b.file == "B.elm") (by decide +kernel)
  obtain ⟨a, ha, htest⟩ := Module.exists_parse_of_any
    "module A exposing (..)\nf r =\n    case r of\n        Err _ -> 0\n" "A.elm"
    (fun a => a.name == ["A"] && a.file == "A.elm" &&
      (Module.parse "module B exposing (..)\nimport A\nx = A.f -- elmcheck-suppress\n" "B.elm").toOption.any fun b =>
        (({ options := { originCheck := "any" } } : Runner).runModules [a, b] none).toOption.any fun results =>
          (results.byFile "A.elm").length == 1) (by decide +kernel)
  rw [hb] at htest
  simp only [Bool.and_eq_true, beq_iff_eq] at htest hnameb
  obtain ⟨⟨hname, hfile⟩, hreports⟩ := htest
  have hasks : ({ options := { originCheck := "any" } } : Runner).AcceptsOptions none := acceptsOptions_of_asks rfl (.any rfl)
  have hasks' : (({ options := { originCheck := "any" } } : Runner).afterRuns [([a], none), ([b], none)]).AcceptsOptions none := by
    rw [afterRuns, List.foldl_cons, List.foldl_cons, List.foldl_nil, afterModules_singleton, afterModules_singleton]
    exact acceptsOptions_of_asks rfl (.any rfl)
  obtain ⟨results₁, h₁, -⟩ := exists_runModules hasks [a, b]
  obtain ⟨results₂, h₂, -⟩ := exists_runModules hasks' [b, a]
  have hconfined : ∀ c ∈ ({ options := { originCheck := "any" } } : Runner).selected none, c.Confined := by
    intro c hc
    rw [List.mem_singleton.1 hc]
    exact confined_ignoredErrorChecker
  have hdistinct : Distinct ([a, b] ++ []) := by simp [Distinct, hname, hfile, hnameb]
  have hsettings : SameSettings a.file { options := { originCheck := "any" } } none { options := { originCheck := "any" } } none :=
    ⟨rfl, rfl, fun _ => Iff.rfl, fun _ => Iff.rfl, fun _ _ => Iff.rfl⟩
  have hsame := (byFile_runModules_independent a hsettings hconfined [] [([a], none), ([b], none)] [a, b] [b, a] results₁ results₂
    h₁ h₂).2 [] rfl List.mem_cons_self hdistinct (.swap a b []) (List.forall_mem_nil _) (by simp [hfile, hnameb])
  rw [Except.toOption, Option.any_some, h₁] at hreports
  rw [hfile] at hsame
  exact ⟨a, b, results₁, results₂, ha, hb, h₁, h₂, beq_iff_eq.1 hreports, hsame⟩

end Runner

end ElmLint
