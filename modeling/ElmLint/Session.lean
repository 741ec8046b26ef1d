import ElmLint.CommandLine
import ElmLint.Project
import ElmLint.Syntax.Kind

/-!
# Sessions

A session is one run of the program as a value: what it writes, in order, and how it ends. `Session.run` is the session that
an invocation has in a directory; it reads nothing but the file tree that is given.
-/

namespace ElmLint

/-- Something that the program writes. -/
inductive Output where
  /-- To standard output. -/
  | out (text : String)
  /-- To standard error. -/
  | err (text : String)
  /-- The summary of a run, to standard error. How long the checkers took is known only when it is written. -/
  | summary (results : RunResults)
deriving Inhabited

namespace Output

/-- What is written to standard output. -/
def stdout : Output → String
  | out text => text
  | _ => ""

/-- What is written to standard error, when checkers took so long. -/
def stderr (elapsed : String → String) : Output → String
  | err text => text
  | summary results => results.summary elapsed ++ "\n"
  | out _ => ""

end Output

/-- How the program ends. -/
inductive Ending where
  | exit (status : Nat)
  | broken (cause : Breakdown)
deriving Repr, DecidableEq, Inhabited

/-- What the program writes, and how it ends. -/
structure Session where
  output : List Output
  ending : Ending
deriving Inhabited

namespace Session

/-- All that is written to standard output. -/
def stdout (s : Session) : String := String.join (s.output.map Output.stdout)

/-- All that is written to standard error. -/
def stderr (s : Session) (elapsed : String → String) : String := String.join (s.output.map (Output.stderr elapsed))

/-- The status of a run that found nothing. -/
def clean : Nat := 0

/-- The status of a run with diagnostics. -/
def withFindings : Nat := 1

/-- The status of a run in which a file, the configuration or a manifest could not be used. -/
def withFailures : Nat := 2

/-! ## Scripts -/

/-- A part of a session: it writes, and either has a result or ends the session. -/
abbrev Script := ExceptT Ending (StateM (List Output))

/-- Write something. -/
def write (o : Output) : Script Unit := modify (· ++ [o])

/-- Write records of at least some level, each on a line. -/
def log (level : LogLevel) (records : List LogRecord) : Script Unit :=
  (records.filter (·.reaches level)).forM fun r => write (.err (r.render ++ "\n"))

/-- Report failures, each on a line. -/
def report (failures : List Failure) : Script Unit := failures.forM fun f => write (.err (f.render ++ "\n"))

/-- Report a failure and end the session. -/
def fail {α : Type} (f : Failure) : Script α := do
  report [f]
  throw (.exit withFailures)

/-- Break off. -/
def breakOff {α : Type} (cause : Breakdown) : Script α := throw (.broken cause)

/-- What an action gave, or the end of the session. -/
def orBreakOff {α : Type} : Except Breakdown α → Script α
  | .ok a => pure a
  | .error cause => breakOff cause

/-- The document that was read, or the end of the session. -/
def document {α : Type} : Except (DocumentError Failure) α → Script α
  | .ok a => pure a
  | .error (.document failure) => fail failure
  | .error (.breakdown cause) => breakOff cause

/-- The session that a script makes. -/
def ofScript (script : Script Nat) : Session :=
  match script.run [] with
  | (.ok status, output) => ⟨output, .exit status⟩
  | (.error ending, output) => ⟨output, ending⟩

/-! ## Checking -/

open CommandLine

/-- The least important level that is logged. -/
def levelOf (v : Verbosity) : LogLevel := if v.verbose then .debug else if v.quiet then .error else .warning

/-- The values of an option, up to a use of it that was given none. -/
def valuesGiven (values : List (Option String)) : List Text :=
  (values.takeWhile Option.isSome).filterMap fun value => value.map Text.ofString

/-- Settings with those that the command line gives instead or in addition. -/
def override (r : CheckRequest) (c : Config) : Config where
  originCheck := if r.permissive then "any" else c.originCheck
  resultModule := if r.resultModule.isEmpty then c.resultModule else ModulePath.ofDotted r.resultModule
  disabledCheckers := c.disabledCheckers ++ r.disabled.map Text.ofString
  suppressions := c.suppressions ++ valuesGiven r.suppressed
  fileSuppressions := c.fileSuppressions
  manifestPaths := c.manifestPaths ++ valuesGiven r.manifests
  outputFormat := (r.format.map Text.ofString).getD c.outputFormat

/-- The file of settings to read, if there is one: that of the command line, or else that of the directory. -/
def configPath (tree : FileTree) (r : CheckRequest) : Except Breakdown (Option TreePath) :=
  if r.config.isEmpty then Config.discover tree (.ofString ".") else .ok (some (.ofString r.config))

section Check

variable (tree : FileTree) (level : LogLevel)

/-- The settings of a check. -/
def settings (r : CheckRequest) : Script Config := do
  match ← orBreakOff (configPath tree r) with
  | none => return override r {}
  | some path =>
    if r.config.isEmpty then log level [⟨.debug, .configuration, "using configuration " ++ path.render⟩]
    return override r (← document ((Config.load tree path).mapError (·.map (ConfigError.failure path.render))))

/-- The interfaces of the modules outside the project. -/
def interfaces (r : CheckRequest) (c : Config) : Script Manifest := do
  let manifests := c.loadManifests tree
  log level (manifests.loaded.map fun (path, m) =>
    ⟨.debug, .lookup, "loaded manifest " ++ path.render ++ ": " ++ toString m.size ++ " modules"⟩)
  match manifests.error? with
  | none => if r.manifests.contains none then breakOff .noValue else return manifests.merged
  | some e => document (.error e)

/-- The files to check: those that are named, and the sources below the directories that are named. -/
def expand : List TreePath → Script (List TreePath)
  | [] => pure []
  | path :: paths => do
    if ← orBreakOff ((tree.isDirectory path).mapError (.access path.render)) then
      let found := SourceFile.under tree path
      if found.isEmpty then log level [⟨.warning, .program, "no .elm files under " ++ path.render⟩]
      return found ++ (← expand paths)
    else return path :: (← expand paths)

/-- Write the results of a run. -/
def present (format : Text) (quiet : Bool) (results : RunResults) : Script Unit := do
  report results.failures
  if format = "json" then
    unless results.diagnostics.isEmpty do write (.out (results.renderJson ++ "\n"))
  else
    results.diagnostics.forM fun d => write (.out (d.render ++ "\n"))
    unless quiet do write (.summary results)

/-- The status that results call for. -/
def statusOf (results : RunResults) : Nat :=
  if !results.failures.isEmpty then withFailures
  else if !results.diagnostics.isEmpty then withFindings
  else clean

/-- Check sources with settings and interfaces that were read. -/
def checkWith (quiet : Bool) (r : CheckRequest) (config : Config) (manifest : Manifest) : Script Nat := do
  log level (config.warnings.map fun w => ⟨.warning, .program, "configuration: " ++ w⟩)
  if r.suppressed.contains none then breakOff .noValue
  let runner : Runner := {
    suppressions := config.suppressed
    options := config.checkOptions
    manifest := manifest }
  let checkers := runner.registry.names.filter fun (name : String) => !config.disabledCheckers.contains name
  let paths ← expand tree level (r.files.map .ofString)
  log level (runner.filesLog tree paths (some checkers))
  match runner.runFiles tree paths (some checkers) with
  | .error (.options failure) => fail failure
  | .error (.breakdown cause) => breakOff cause
  | .ok results =>
    present config.outputFormat quiet results
    return statusOf results

/-- Check sources. -/
def check (quiet : Bool) (r : CheckRequest) : Script Nat := do
  let config ← settings tree level r
  let manifest ← interfaces tree level r config
  checkWith tree level quiet r config manifest

/-! ## Listing -/

/-- What a module is called in a listing. -/
def moduleTitle (m : Module) : String :=
  let kind := match m.header.map (·.kind) with
    | some .port => "port module"
    | some .effect => "effect module"
    | _ => "module"
  kind ++ " " ++ ModuleName.dotted m.name

/-- An import in a listing. -/
def importLine (i : Import) : String :=
  "  import " ++ ModuleName.dotted i.name ++ match i.aliasName with
    | some name => " as " ++ name
    | none => ""

/-- A declaration in a listing. -/
def declarationLine (d : Declaration) : String := "  " ++ d.kindName ++ " " ++ d.name ++ " @ " ++ d.range.render

/-- The lines that list a module. -/
def listing (m : Module) : List String :=
  moduleTitle m :: m.imports.map importLine ++ m.declarations.map declarationLine

/-- List what is declared in a file. -/
def list (path : TreePath) : Script Nat := do
  log level (loadLog tree path)
  match Module.load tree path with
  | .ok m =>
    (listing m).forM fun line => write (.out (line ++ "\n"))
    return clean
  | .error e =>
    match e.report path.render with
    | .ok failure => fail failure
    | .error cause => breakOff cause

end Check

/-- A text with blanks after it, up to a width. -/
def padded (width : Nat) (text : String) : String := text ++ String.ofList (List.replicate (width - text.length) ' ')

/-- The lines that describe a checker. -/
def checkerLines (c : Checker) : List String :=
  ["  " ++ padded 25 c.name ++ " " ++ c.description,
   "  " ++ padded 25 "" ++ " IDs: " ++ ", ".intercalate (c.errorIds.mergeSort textBefore)]

/-- List the checkers of a registry. -/
def listCheckers (r : Registry) : Script Nat := do
  ((r.names.filterMap r.find?).flatMap checkerLines).forM fun line => write (.out (line ++ "\n"))
  return clean

/-! ## Whole sessions -/

/-- The script of an invocation. Without a command the program tells how it is used. -/
def script (tree : FileTree) (i : Invocation) : Script Nat :=
  match i.command with
  | none => do
    write (.out (topSpec.help ++ "\n"))
    return clean
  | some (.check request) => check tree (levelOf i.verbosity) i.verbosity.quiet request
  | some (.parse file) => list tree (levelOf i.verbosity) (.ofString file)
  | some .listCheckers => listCheckers .builtin

/-- The session of an invocation in a directory. -/
def run (tree : FileTree) (i : Invocation) : Session := ofScript (script tree i)

/-- The paths that a check reads besides its configuration, which the tree has to hold already. -/
def checkedPaths (tree : FileTree) (r : CheckRequest) : List TreePath :=
  let config := match configPath tree r with
    | .ok (some path) => (Config.load tree path).toOption.getD {}
    | _ => {}
  (override r config).manifestPaths.filterMap (TreePath.ofText · |>.toOption) ++ r.files.map .ofString

/-- The paths that an invocation reads besides a configuration. -/
def readPaths (tree : FileTree) (i : Invocation) : List TreePath :=
  match i.command with
  | some (.check request) => checkedPaths tree request
  | some (.parse file) => [.ofString file]
  | _ => []

/-- The paths at which an invocation looks for a configuration. -/
def configPaths (i : Invocation) : List TreePath :=
  match i.command with
  | some (.check request) => [.ofString (if request.config.isEmpty then Config.fileName else request.config)]
  | _ => []

/-- The session of a command line that is not run. -/
def ofHalt : Halt → Session
  | .help text => ⟨[.out (text ++ "\n")], .exit clean⟩
  | .version => ⟨[.out (programName ++ " " ++ programVersion ++ "\n")], .exit clean⟩
  | .refused usage program problem =>
    ⟨[.err (usage ++ "\n" ++ program ++ ": error: " ++ problem.message ++ "\n")], .exit withFailures⟩

end Session

end ElmLint
