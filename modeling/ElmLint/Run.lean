import ElmLint.Checker

/-!
# Running checkers over modules

`Runner.run` runs checkers over one module, `Runner.runModules` over the modules of a project, whose interfaces are then known to
each other. `RunResults` holds what was found, and can be extended by the results of another run.

Directives in comments take effect for the module they stand in and for all that are run after it: a run hands the runner on from
module to module, and leaves it to the runs that come later (`Runner.afterModules`).
-/

namespace ElmLint

/-! ## Results -/

/-- What one or more runs found: all diagnostics, those of each checker, the failures on the way, the checkers that took
their time, the checkers that ran, and the files that were checked. -/
structure RunResults where
  diagnostics : List Diagnostic := []
  byChecker : OrderedMap String (List Diagnostic) := .empty
  failures : List Failure := []
  timed : List String := []
  checkerNames : List String := []
  files : List String := []
deriving Inhabited

namespace RunResults

/-- The number of diagnostics of a severity. -/
def count (r : RunResults) (severity : Severity) : Nat := r.diagnostics.countP (·.severity == severity)

/-- The diagnostics of a severity. -/
def bySeverity (r : RunResults) (severity : Severity) : List Diagnostic := r.diagnostics.filter (·.severity == severity)

/-- The diagnostics in a file. -/
def byFile (r : RunResults) (file : String) : List Diagnostic := r.diagnostics.filter (·.file == file)

/-- The diagnostics with an error id. -/
def byErrorId (r : RunResults) (errorId : String) : List Diagnostic := r.diagnostics.filter (·.errorId == errorId)

/-- The diagnostics of a checker. -/
def ofChecker (r : RunResults) (name : String) : List Diagnostic := (r.byChecker.find? name).getD []

/-- Add diagnostics to those of a checker. -/
def appendTo (m : OrderedMap String (List Diagnostic)) (name : String) (ds : List Diagnostic) :
    OrderedMap String (List Diagnostic) :=
  m.insert name ((m.find? name).getD [] ++ ds)

/-- A list with the items of another that it does not have yet. -/
def union (names more : List String) : List String :=
  more.foldl (fun names name => if names.contains name then names else names ++ [name]) names

/-- The results with those of another run. -/
def extend (r s : RunResults) : RunResults where
  diagnostics := r.diagnostics ++ s.diagnostics
  byChecker := s.byChecker.entries.foldl (fun m (name, ds) => appendTo m name ds) r.byChecker
  failures := r.failures ++ s.failures
  timed := union r.timed s.timed
  checkerNames := union r.checkerNames s.checkerNames
  files := r.files ++ s.files

/-- Take in what a checker found. -/
def record (r : RunResults) (name : String) (ds : List Diagnostic) : RunResults :=
  { r with
    diagnostics := r.diagnostics ++ ds
    byChecker := appendTo r.byChecker name ds
    timed := union r.timed [name]
    checkerNames := r.checkerNames ++ [name] }

/-- One line of JSON for each diagnostic. -/
def renderJson (r : RunResults) : String := "\n".intercalate (r.diagnostics.map (·.renderJson))

/-- The diagnostics as compilers write them. -/
def render (r : RunResults) : String := "\n".intercalate (r.diagnostics.map (·.render))

/-- A summary of the results, with a line for each checker that ran; `elapsed` tells how long it took. -/
def summary (r : RunResults) (elapsed : String → String) : String :=
  let total := "Checked " ++ toString r.files.length ++ " files: " ++ toString r.diagnostics.length ++ " diagnostics (" ++
    toString (r.count .error) ++ " errors, " ++ toString (r.count .warning) ++ " warnings), " ++
    toString r.failures.length ++ " files failed"
  "\n".intercalate (total :: r.checkerNames.map fun name =>
    "  " ++ name ++ ": " ++ toString (r.ofChecker name).length ++ " findings (" ++ elapsed name ++ ")")

end RunResults

/-! ## Runs -/

/-- What a run needs: the checkers, what is suppressed so far, the options, and the interfaces of the modules that are not
part of the project. -/
structure Runner where
  registry : Registry := .builtin
  suppressions : Suppressions := {}
  options : CheckOptions := {}
  manifest : Manifest := .core

namespace Runner

/-- The runner after it has seen the directives in the comments of a module. -/
def observe (r : Runner) (m : Module) : Runner := { r with suppressions := r.suppressions.loadInline m }

/-- The checkers to run: those asked for by name, or all that are enabled. Unknown names are passed over. -/
def selected (r : Runner) : Option (List String) → List Checker
  | none => r.registry.enabled
  | some names => names.filterMap r.registry.find?

/-- The diagnostic in place of the report of a checker that broke down. -/
def breakdownDiagnostic (checker : String) (file reason : String) : Diagnostic where
  errorId := "checkerInternalError"
  message := "Checker '" ++ checker ++ "' failed: " ++ reason
  severity := .information
  file := file
  checker := checker

/-- What a checker contributes for a module: its diagnostics that are not suppressed, or the one that tells of its
breakdown. -/
def contribution (r : Runner) (ctx : CheckContext) (c : Checker) : Except Failure (List Diagnostic) :=
  match c.check ctx with
  | .ok report => .ok (r.suppressions.filter report.diagnostics)
  | .error (.breakdown reason) => .ok [breakdownDiagnostic c.name ctx.module.file reason]
  | .error (.options failure) => .error failure

/-- Run checkers one after another, and take their contributions into the results. -/
def runCheckers (r : Runner) (ctx : CheckContext) : List Checker → RunResults → Except Failure RunResults
  | [], results => .ok results
  | c :: cs, results =>
    match r.contribution ctx c with
    | .ok ds => runCheckers r ctx cs (results.record c.name ds)
    | .error failure => .error failure

/-- What checkers see of a module. -/
def context (r : Runner) (m : Module) (manifest : Manifest) : CheckContext :=
  ⟨m, LookupTable.build m manifest, r.options⟩

/-- Run checkers over one module, with the interfaces of a manifest. -/
def run (r : Runner) (m : Module) (checkers : Option (List String)) (manifest : Manifest) : Except Failure RunResults :=
  (r.observe m).runCheckers (r.context m manifest) (r.selected checkers) { files := [m.file] }

/-- The interfaces of the modules outside and inside a project; those inside win. -/
def projectManifest (r : Runner) (ms : List Module) : Manifest :=
  r.manifest.orCore.merge (Manifest.ofInterfaces (ms.map Interface.ofModule))

/-- Run checkers over modules one after another, and take the results together. The runner that is left has seen the modules
that the run came to, also the one that ended it. -/
def runEach (checkers : Option (List String)) (manifest : Manifest) :
    Runner → List Module → RunResults → Except Failure RunResults × Runner
  | r, [], results => (.ok results, r)
  | r, m :: ms, results =>
    match r.run m checkers manifest with
    | .ok more => runEach checkers manifest (r.observe m) ms (results.extend more)
    | .error failure => (.error failure, r.observe m)

/-- Run checkers over the modules of a project. -/
def runModules (r : Runner) (ms : List Module) (checkers : Option (List String)) : Except Failure RunResults :=
  (runEach checkers (r.projectManifest ms) r ms {}).1

/-- The runner that such a run leaves. -/
def afterModules (r : Runner) (ms : List Module) (checkers : Option (List String)) : Runner :=
  (runEach checkers (r.projectManifest ms) r ms {}).2

/-- Run checkers over modules that know nothing of each other. -/
def runSeparately (r : Runner) (ms : List Module) (checkers : Option (List String)) : Except Failure RunResults :=
  match ms with
  | [] => .ok {}
  | m :: ms =>
    match r.run m checkers r.manifest with
    | .ok first => (runEach checkers r.manifest (r.observe m) ms first).1
    | .error failure => .error failure

/-! ## What runs log -/

/-- What is logged when the lookup table of a module is built. -/
def lookupLog (m : Module) (manifest : Manifest) : List LogRecord :=
  let table := LookupTable.build m manifest
  (Scope.unknownImports m manifest.orCore).map (fun name =>
    ⟨.debug, .lookup, "no interface for " ++ ModuleName.dotted name ++ ", exposed constructors unknown"⟩) ++
  [⟨.debug, .lookup, "lookup table for " ++ ModuleName.dotted m.name ++ ": " ++ toString table.size ++
    " references, " ++ toString table.unresolved ++ " unresolved"⟩]

/-- What is logged about names asked for that no checker has. -/
def selectionLog (r : Runner) (checkers : Option (List String)) : List LogRecord :=
  ((checkers.getD []).filter fun name => (r.registry.find? name).isNone).map fun (name : String) =>
    ⟨.warning, .checkers, "unknown checker " ++ quoted name ++ " skipped"⟩

/-- What a checker logs about a module, and whether the run goes on after it. -/
def checkerLog (ctx : CheckContext) (c : Checker) : List LogRecord × Bool :=
  match c.check ctx with
  | .ok report => (report.log, true)
  | .error (.breakdown reason) =>
    ([⟨.warning, .checkers, "checker " ++ c.name ++ " failed on " ++ ctx.module.file ++ ": " ++ reason⟩], true)
  | .error (.options _) => ([], false)

/-- What checkers log one after another, up to one that ends the run; and whether the run goes on after them. -/
def checkersLog (ctx : CheckContext) : List Checker → List LogRecord × Bool
  | [] => ([], true)
  | c :: cs =>
    match checkerLog ctx c with
    | (records, true) =>
      let (more, goesOn) := checkersLog ctx cs
      (records ++ more, goesOn)
    | (records, false) => (records, false)

/-- What a run over one module logs, and whether a run over several modules goes on after it. -/
def moduleLog (r : Runner) (m : Module) (checkers : Option (List String)) (manifest : Manifest) :
    List LogRecord × Bool :=
  let (records, goesOn) := checkersLog (r.context m manifest) (r.selected checkers)
  (lookupLog m manifest ++ r.selectionLog checkers ++ records, goesOn)

/-- What runs over modules log one after another, up to the one that ends them. -/
def eachLog (r : Runner) (checkers : Option (List String)) (manifest : Manifest) : List Module → List LogRecord
  | [] => []
  | m :: ms =>
    match r.moduleLog m checkers manifest with
    | (records, true) => records ++ eachLog r checkers manifest ms
    | (records, false) => records

/-- What a run over the modules of a project logs. -/
def modulesLog (r : Runner) (ms : List Module) (checkers : Option (List String)) : List LogRecord :=
  r.eachLog checkers (r.projectManifest ms) ms

end Runner

end ElmLint
