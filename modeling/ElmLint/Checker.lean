import ElmLint.IgnoredError
import ElmLint.Log
import ElmLint.Suppression
import ElmLint.Text.Order

/-!
# Checkers

A checker looks at one module, with what is known about the origins of its constructors, and reports diagnostics. It may
find that its options make no sense, which ends the whole run; or it may break down, which is reported in its place.

`ignoredErrorChecker` is the checker for ignored errors. `Registry` holds the checkers that can be run, in the order in which
they were registered.
-/

namespace ElmLint

/-- The options of a run that checkers read. -/
structure CheckOptions where
  originCheck : Text := "exact"
  resultModule : ModulePath := OriginCheck.resultModule
deriving Repr, DecidableEq, Inhabited

/-- What a checker is given. -/
structure CheckContext where
  module : Module
  lookup : LookupTable
  options : CheckOptions := {}
deriving Inhabited

/-- What a checker reports: its diagnostics before any are suppressed, and what it logs. -/
structure CheckReport where
  diagnostics : List Diagnostic := []
  log : List LogRecord := []
deriving Inhabited

/-- Why a checker reports nothing. -/
inductive CheckerError where
  /-- Its options make no sense. -/
  | options (failure : Failure)
  /-- It broke down. -/
  | breakdown (reason : String)
deriving Inhabited

/-- A checker. -/
structure Checker where
  name : String
  description : String
  errorIds : List String
  severity : Severity
  check : CheckContext → Except CheckerError CheckReport

/-! ## Ignored errors -/

/-- How certain a finding is under an origin check. -/
def OriginCheck.confidence : OriginCheck → Confidence
  | exact _ => .high
  | any => .medium

/-- The name of the checker for ignored errors. -/
def ignoredErrorName : String := "no-ignored-error"

/-- The diagnostic that reports an ignored error. -/
def Finding.diagnostic (file : String) (check : OriginCheck) (f : Finding) : Diagnostic where
  errorId := "ignoredError"
  message := f.message
  severity := .warning
  file := file
  range := f.range
  details := f.details
  confidence := check.confidence
  checker := ignoredErrorName
  evidence := [("originCheck", .string check.describe)]

/-- Report the ignored errors of a module. -/
def reportIgnoredErrors (ctx : CheckContext) : Except CheckerError CheckReport :=
  match OriginCheck.ofOptions ctx.options.originCheck ctx.options.resultModule with
  | .error e => .error (.options e.failure)
  | .ok check =>
    let findings := ctx.module.ignoredErrors (some ctx.lookup.resolver) check
    .ok {
      diagnostics := findings.map (Finding.diagnostic ctx.module.file check)
      log := [⟨.debug, .ignoredError,
        ignoredErrorName ++ ": " ++ toString findings.length ++ " ignored errors in " ++ ctx.module.file⟩] }

/-- The checker for ignored errors. -/
def ignoredErrorChecker : Checker where
  name := ignoredErrorName
  description := "Result errors discarded with 'Err _'"
  errorIds := ["ignoredError"]
  severity := .warning
  check := reportIgnoredErrors

/-! ## Registry -/

/-- The checkers that can be run, and the names of those that are not to be run. A name can be disabled before a checker of
that name is registered, and stays disabled when the checker is taken out. -/
structure Registry where
  checkers : OrderedMap String Checker := .empty
  disabled : List String := []

namespace Registry

/-- Add a checker, or replace the one of the same name. -/
def register (r : Registry) (c : Checker) : Registry := { r with checkers := r.checkers.insert c.name c }

/-- Take a checker out. -/
def unregister (r : Registry) (name : String) : Registry := { r with checkers := r.checkers.erase name }

/-- Disable a name. -/
def disable (r : Registry) (name : String) : Registry := { r with disabled := name :: r.disabled }

/-- Enable a name again. -/
def enable (r : Registry) (name : String) : Registry := { r with disabled := r.disabled.filter (· ≠ name) }

/-- All checkers, in the order in which they were registered. -/
def all (r : Registry) : List Checker := r.checkers.values

/-- The checkers whose names are not disabled. -/
def enabled (r : Registry) : List Checker :=
  (r.checkers.entries.filter fun (name, _) => !r.disabled.contains name).map Prod.snd

/-- The checker of a name. -/
def find? (r : Registry) (name : String) : Option Checker := r.checkers.find? name

/-- The checkers that can report an error id. -/
def reporting (r : Registry) (errorId : String) : List Checker := r.all.filter (·.errorIds.contains errorId)

/-- The names of the checkers, sorted. -/
def names (r : Registry) : List String := r.checkers.keys.mergeSort textBefore

/-- The registry with the checkers of this library. -/
def builtin : Registry := register {} ignoredErrorChecker

end Registry

end ElmLint
