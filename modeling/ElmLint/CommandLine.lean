import ElmLint.CommandLine.Reader
import ElmLint.Config

/-!
# The command line of the program

`Invocation.parse` reads what the words of a command line ask for: to check sources, to list what is declared in one, or to list
the checkers.
-/

namespace ElmLint

namespace CommandLine

/-- The name of the program. -/
def programName : String := "elmcheck"

/-- The version of the program. -/
def programVersion : String := "0.1.0"

/-- What a check is asked to do. -/
structure CheckRequest where
  files : List String := []
  /-- The configuration file; empty for none. -/
  config : String := ""
  permissive : Bool := false
  /-- The dotted name of the result module; empty for none. -/
  resultModule : String := ""
  /-- The manifests; a missing one is an option that was given no value. -/
  manifests : List (Option String) := []
  format : Option String := none
  disabled : List String := []
  /-- The ids to suppress; a missing one is an option that was given no value. -/
  suppressed : List (Option String) := []
deriving Repr, DecidableEq, Inhabited

/-- What the program is asked to do. -/
inductive Command where
  | check (request : CheckRequest)
  | parse (file : String)
  | listCheckers
deriving Repr, DecidableEq, Inhabited

/-- How much the program is to tell about its work. -/
structure Verbosity where
  verbose : Bool := false
  quiet : Bool := false
deriving Repr, DecidableEq, Inhabited

/-- A command, if one is given, and how much to tell about it. -/
structure Invocation where
  verbosity : Verbosity
  command : Option Command
deriving Repr, DecidableEq, Inhabited

/-! ## Commands -/

/-- The option that asks for help. -/
def helpOption {σ : Type} : OptionSpec σ := ⟨["-h", "--help"], .help, "show this help message and exit"⟩

/-- The program with the options that come before a command. -/
def topSpec : CommandSpec Verbosity where
  program := programName
  description := "Static checks for Elm source code"
  options :=
    [helpOption,
     ⟨["--version"], .version, "show program's version number and exit"⟩,
     ⟨["-v", "--verbose"], .flag fun v => { v with verbose := true }, "Log debug output"⟩,
     ⟨["-q", "--quiet"], .flag fun v => { v with quiet := true }, "Only log errors, no summary"⟩]
  operands := .command "<command>"

/-- The command that checks sources. -/
def checkSpec : CommandSpec CheckRequest where
  program := programName ++ " check"
  description := "Run the checkers over Elm files and directories."
  options :=
    [helpOption,
     ⟨["--config"], .value "PATH" fun path r => { r with config := path.getD "" },
      "Configuration file (default: ./elmcheck.json if present)"⟩,
     ⟨["--permissive"], .flag fun r => { r with permissive := true },
      "Report every 'Err _', without resolving where Err comes from"⟩,
     ⟨["--result-module"], .value "MODULE" fun module r => { r with resultModule := module.getD "" },
      "Module the Err constructor must come from (default: Result)"⟩,
     ⟨["--manifest"], .value "PATH" fun path r => { r with manifests := r.manifests ++ [path] },
      "JSON manifest of dependency modules (repeatable)"⟩,
     ⟨["--format"], .choice Config.outputFormats fun format r => { r with format := format },
      "Output format (default: text)"⟩,
     ⟨["--disable"], .value "NAME" fun name r => { r with disabled := r.disabled ++ name.toList },
      "Disable a checker by name (repeatable)"⟩,
     ⟨["--suppress"], .value "ID" fun id r => { r with suppressed := r.suppressed ++ [id] },
      "Suppress an error id (repeatable)"⟩]
  operands := .many "FILE"

/-- The command that lists what is declared in a source. -/
def parseSpec : CommandSpec Unit where
  program := programName ++ " parse"
  description := "Parse a file and summarise its declarations"
  options := [helpOption]
  operands := .one "FILE"

/-- The command that lists the checkers. -/
def listCheckersSpec : CommandSpec Unit where
  program := programName ++ " list-checkers"
  description := "List the registered checkers"
  options := [helpOption]
  operands := .none

/-- The names of the commands. -/
def commandNames : List String := ["check", "parse", "list-checkers"]

/-- Read a command from its name and the words after it, with the words left over. -/
def Command.read (name : String) (words : List String) : Except Halt (Command × List String) :=
  match name with
  | "check" => (checkSpec.read {} words).map fun (request, files, extras) => (.check { request with files := files }, extras)
  | "parse" => (parseSpec.read () words).map fun (_, files, extras) => (.parse (files.headD ""), extras)
  | "list-checkers" => (listCheckersSpec.read () words).map fun (_, _, extras) => (.listCheckers, extras)
  | _ => .error (.refused topSpec.usage topSpec.program (.invalidChoice "<command>" name commandNames))

/-- Refuse words that are left over. -/
def refuseExtras : List String → Except Halt Unit
  | [] => .ok ()
  | extras => .error (.refused topSpec.usage topSpec.program (.unrecognized extras))

/-- What a command line asks for. -/
def Invocation.parse (words : List String) : Except Halt Invocation := do
  let (verbosity, operands, extras) ← topSpec.read {} words
  match operands with
  | [] =>
    refuseExtras extras
    return ⟨verbosity, none⟩
  | name :: rest =>
    let (command, more) ← Command.read name rest
    refuseExtras (extras ++ more)
    return ⟨verbosity, some command⟩

end CommandLine

end ElmLint
