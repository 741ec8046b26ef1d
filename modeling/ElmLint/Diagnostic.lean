import ElmLint.Json.Writer
import ElmLint.Position

/-!
# Diagnostics

A diagnostic reports one finding of a checker. It is written as one line of JSON, or in the form that compilers use:
`file:line:column: severity: message [id]`.
-/

namespace ElmLint

/-- How serious a diagnostic is. -/
inductive Severity where
  | error
  | warning
  | style
  | information
deriving Repr, DecidableEq, Inhabited

namespace Severity

/-- The severity in words. -/
def name : Severity → String
  | error => "error"
  | warning => "warning"
  | style => "style"
  | information => "information"

/-- All severities. -/
def all : List Severity := [error, warning, style, information]

/-- The severity of a name. -/
def ofName? (name : String) : Option Severity := all.find? (·.name == name)

end Severity

/-- How certain a diagnostic is: the reference was resolved, or only its name was compared. -/
inductive Confidence where
  | high
  | medium
deriving Repr, DecidableEq, Inhabited

/-- A finding of a checker. -/
structure Diagnostic where
  errorId : String
  message : String
  severity : Severity
  file : String := ""
  range : SourceRange := .none
  details : List String := []
  confidence : Confidence := .medium
  checker : String := ""
  /-- What the finding rests on, for other tools. -/
  evidence : List (String × JsonValue) := []
deriving Inhabited

namespace Diagnostic

/-- The tool that diagnostics name as their source. -/
def addon : String := "elmcheck"

/-- The place of a diagnostic as `file:line:column`; a column of zero is left out. -/
def location (d : Diagnostic) : String :=
  let place := d.file ++ ":" ++ toString d.range.start.row
  if d.range.start.column == 0 then place else place ++ ":" ++ toString d.range.start.column

/-- The diagnostic as a JSON object. -/
def toJson (d : Diagnostic) : JsonValue := .object
  [("file", .string d.file),
   ("line", .ofNat d.range.start.row),
   ("column", .ofNat d.range.start.column),
   ("endLine", .ofNat d.range.stop.row),
   ("endColumn", .ofNat d.range.stop.column),
   ("severity", .string d.severity.name),
   ("message", .string d.message),
   ("details", .strings d.details),
   ("errorId", .string d.errorId),
   ("checker", .string d.checker),
   ("addon", .string addon)]

/-- The diagnostic as one line of JSON. -/
def renderJson (d : Diagnostic) : String := d.toJson.render

/-- The diagnostic as compilers write it, with a line for each paragraph of its details. -/
def render (d : Diagnostic) : String :=
  d.location ++ ": " ++ d.severity.name ++ ": " ++ d.message ++ " [" ++ d.errorId ++ "]" ++
    String.join (d.details.map ("\n    " ++ ·))

end Diagnostic

end ElmLint
