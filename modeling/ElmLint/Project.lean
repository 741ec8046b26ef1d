import ElmLint.Run
import ElmLint.SourceFile

/-!
# Running checkers over files

`Runner.runFiles` reads files and runs checkers over the modules in them. A file that cannot be read or parsed is reported among
the failures of the results, and the others are checked all the same. Two things end the whole run: options that make no
sense, and a breakdown over a file.
-/

namespace ElmLint

/-! ## Reading files -/

/-- Files that were read: the modules, and the failures of the files that are none, both in the order of the files. -/
structure Sources where
  modules : List Module := []
  failures : List Failure := []
deriving Inhabited

/-- Read files one after another. -/
def readSources (tree : FileTree) : List TreePath → Except Breakdown Sources
  | [] => .ok {}
  | path :: paths =>
    match Module.load tree path with
    | .ok m => (readSources tree paths).map fun s => { s with modules := m :: s.modules }
    | .error e =>
      match e.report path.render with
      | .ok failure => (readSources tree paths).map fun s => { s with failures := failure :: s.failures }
      | .error cause => .error cause

/-- What is logged when files are read one after another, up to one that ends the reading. -/
def readLog (tree : FileTree) : List TreePath → List LogRecord
  | [] => []
  | path :: paths =>
    loadLog tree path ++
      match Module.load tree path with
      | .ok _ => readLog tree paths
      | .error e =>
        match e.report path.render with
        | .ok failure =>
          ⟨.warning, .checkers, "skipping " ++ path.render ++ ": " ++ failure.message⟩ :: readLog tree paths
        | .error _ => []

/-! ## Checking files -/

/-- Why files are not checked. -/
inductive RunError where
  /-- The options of a checker make no sense. -/
  | options (failure : Failure)
  /-- The program breaks off over a file. -/
  | breakdown (cause : Breakdown)
deriving Inhabited

namespace Runner

/-- Run checkers over the modules of a project, and take in the failures of the files that are none. -/
def runSources (r : Runner) (s : Sources) (checkers : Option (List String)) : Except RunError RunResults :=
  match r.runModules s.modules checkers with
  | .ok results => .ok { results with failures := results.failures ++ s.failures }
  | .error failure => .error (.options failure)

/-- Run checkers over files. -/
def runFiles (r : Runner) (tree : FileTree) (paths : List TreePath) (checkers : Option (List String)) :
    Except RunError RunResults :=
  match readSources tree paths with
  | .ok sources => r.runSources sources checkers
  | .error cause => .error (.breakdown cause)

/-- What a run over modules logs. The default imports are parsed when the first module needs them. -/
def sourcesLog (r : Runner) (modules : List Module) (checkers : Option (List String)) : List LogRecord :=
  (if modules.isEmpty then [] else parseLog defaultImportsSource "<default imports>") ++ r.modulesLog modules checkers

/-- What a run over files logs. -/
def filesLog (r : Runner) (tree : FileTree) (paths : List TreePath) (checkers : Option (List String)) : List LogRecord :=
  readLog tree paths ++
    match readSources tree paths with
    | .ok sources => r.sourcesLog sources.modules checkers
    | .error _ => []

end Runner

end ElmLint
