import ElmLint.Checker
import ElmLint.Manifest.Json

/-!
# Configuration

The settings of a run come from a JSON file and from the command line. `Config.ofJson` reads them from a JSON object and refuses
what cannot be meant; `Config.warnings` tells what is odd about settings however they came about.
-/

namespace ElmLint

/-- The settings of a run. -/
structure Config where
  originCheck : Text := "exact"
  resultModule : ModulePath := OriginCheck.resultModule
  disabledCheckers : List Text := []
  suppressions : List Text := []
  /-- The ids that are suppressed in the files that match a pattern. -/
  fileSuppressions : List (Text × List Text) := []
  manifestPaths : List Text := []
  outputFormat : Text := "text"
deriving Repr, DecidableEq, Inhabited

namespace Config

/-- The name of the file that settings are looked for in. -/
def fileName : String := "elmcheck.json"

/-- The kinds of origin checks that can be asked for. -/
def originChecks : List String := ["exact", "any"]

/-- The forms that diagnostics can be written in. -/
def outputFormats : List String := ["text", "json"]

/-- The names of all settings, sorted. -/
def optionNames : List String :=
  ["disabled_checkers", "file_suppressions", "manifest_paths", "origin_check", "output_format", "result_module",
   "suppressions"]

/-! ## What settings mean -/

/-- The warning that a setting has none of its values. -/
def choiceWarning (option : String) (values : List String) (value : Text) : List String :=
  if values.any (Text.ofString · == value) then []
  else [option ++ " must be one of " ++ ", ".intercalate values ++ ", got " ++ quoted value]

/-- What is odd about the result module. -/
def moduleWarning (c : Config) : List String :=
  if c.resultModule.isEmpty then ["result_module must not be empty"]
  else if c.originCheck = "any" && c.resultModule != OriginCheck.resultModule then
    ["result_module has no effect with origin_check 'any'"]
  else []

/-- What is odd about settings. -/
def warnings (c : Config) : List String :=
  choiceWarning "origin_check" originChecks c.originCheck ++ c.moduleWarning ++
    choiceWarning "output_format" outputFormats c.outputFormat

/-- The options that checkers read. -/
def checkOptions (c : Config) : CheckOptions := ⟨c.originCheck, c.resultModule⟩

/-- What is suppressed. -/
def suppressed (c : Config) : Suppressions :=
  c.fileSuppressions.foldl (fun s (pattern, ids) => ids.foldl (fun s id => s.addFile id pattern) s)
    (c.suppressions.foldl Suppressions.addGlobal {})

end Config

/-! ## Reading -/

/-- Why a configuration cannot be used. -/
inductive ConfigError where
  | unreadable (error : AccessError)
  | notJson (problem : JsonProblem) (position : Position)
  | notObject
  | unknownOptions (names : List Text)
  | notString (option : String)
  | notStrings (option : String)
  | fileSuppressionsShape
  | resultModule
  | originCheck (kind : Text)
deriving Repr, DecidableEq, Inhabited

namespace ConfigError

/-- The error in words; the path is that of the configuration. -/
def message (path : String) : ConfigError → String
  | unreadable error => "cannot read configuration: " ++ error.message path
  | notJson problem _ => "invalid JSON: " ++ problem.message
  | notObject => "configuration must be a JSON object"
  | unknownOptions names => "unknown option(s): " ++ ", ".intercalate (names.map Text.shown)
  | notString option => option ++ " must be a string"
  | notStrings option => option ++ " must be a list of strings"
  | fileSuppressionsShape => "file_suppressions must map file patterns to lists of error ids"
  | resultModule => "result_module must be a non-empty module path"
  | originCheck kind => "unknown origin_check " ++ quoted kind

/-- The code of the error. -/
def code : ConfigError → ErrorCode
  | unknownOptions _ | originCheck _ => .unknownOption
  | _ => .invalidConfig

/-- What to do about the error; empty when there is nothing to say. -/
def hint : ConfigError → String
  | unknownOptions _ => "Known options: " ++ ", ".intercalate Config.optionNames
  | resultModule => "For example [\"Result\"]"
  | originCheck _ => "Use 'exact' or 'any'"
  | _ => ""

/-- The failure that reports the error in a file. -/
def failure (path : String) (e : ConfigError) : Failure where
  kind := .configuration
  message := e.message path
  code := e.code
  span := match e with
    | notJson _ position => ⟨path, position.row, position.column⟩
    | _ => { file := path }
  hint := e.hint

end ConfigError

namespace Config

/-- The text that an option is set to. -/
def textOption (members : List (Text × JsonValue)) (option : String) (fallback : Text) : Except ConfigError Text :=
  match members.lookup (option : Text) with
  | none => .ok fallback
  | some value => match value.text? with
    | some t => .ok t
    | none => .error (.notString option)

/-- The texts that an option is set to. -/
def textsOption (members : List (Text × JsonValue)) (option : String) (fallback : List Text) :
    Except ConfigError (List Text) :=
  match members.lookup (option : Text) with
  | none => .ok fallback
  | some value => match value.texts? with
    | some items => .ok items
    | none => .error (.notStrings option)

/-- The ids for each file pattern in a JSON value. -/
def filePatterns? (value : JsonValue) : Option (List (Text × List Text)) :=
  value.members?.bind fun members => members.mapM fun (pattern, ids) => ids.texts?.map (pattern, ·)

/-- The file suppressions that are set. -/
def filePatternsOption (members : List (Text × JsonValue)) : Except ConfigError (List (Text × List Text)) :=
  match members.lookup ("file_suppressions" : Text) with
  | none => .ok []
  | some value => match filePatterns? value with
    | some patterns => .ok patterns
    | none => .error .fileSuppressionsShape

/-- The names of members that are no options, sorted. -/
def unknownOptions (members : List (Text × JsonValue)) : List Text :=
  ((members.map Prod.fst).filter fun name => !optionNames.any (Text.ofString · == name)).mergeSort Text.before

/-- Settings, unless they make no sense. -/
def checked (c : Config) : Except ConfigError Config :=
  if c.resultModule.isEmpty || c.resultModule.any (·.isEmpty) then .error .resultModule
  else if originChecks.any (Text.ofString · == c.originCheck) then .ok c
  else .error (.originCheck c.originCheck)

/-- The settings in the members of a JSON object. -/
def ofMembers (members : List (Text × JsonValue)) : Except ConfigError Config := do
  let defaults : Config := {}
  let originCheck ← textOption members "origin_check" defaults.originCheck
  let outputFormat ← textOption members "output_format" defaults.outputFormat
  let resultModule ← textsOption members "result_module" defaults.resultModule
  let disabledCheckers ← textsOption members "disabled_checkers" defaults.disabledCheckers
  let suppressions ← textsOption members "suppressions" defaults.suppressions
  let manifestPaths ← textsOption members "manifest_paths" defaults.manifestPaths
  let fileSuppressions ← filePatternsOption members
  checked ⟨originCheck, resultModule, disabledCheckers, suppressions, fileSuppressions, manifestPaths, outputFormat⟩

/-- The settings that a JSON value describes. -/
def ofJson (value : JsonValue) : Except ConfigError Config :=
  match value.members? with
  | none => .error .notObject
  | some members =>
    if (unknownOptions members).isEmpty then ofMembers members else .error (.unknownOptions (unknownOptions members))

/-- The settings in a file. -/
def load (tree : FileTree) (path : TreePath) : Except (DocumentError ConfigError) Config :=
  readDocument tree path .unreadable .notJson ofJson

/-- The file of settings in a directory, if there is one. -/
def discover (tree : FileTree) (directory : TreePath) : Except Breakdown (Option TreePath) :=
  let path := directory.append [fileName]
  match tree.isFile path with
  | .ok found => .ok (if found then some path else none)
  | .error e => .error (.access path.render e)

/-! ## Manifests -/

/-- Manifests that were read with their paths, and why the next one could not be read. -/
structure LoadedManifests where
  loaded : List (TreePath × Manifest)
  error? : Option (DocumentError Failure)
deriving Inhabited

/-- Read manifests one after another, up to one that cannot be read. -/
def loadEach (tree : FileTree) : List Text → LoadedManifests
  | [] => ⟨[], none⟩
  | text :: texts =>
    match TreePath.ofText text with
    | .error e => ⟨[], some (.breakdown (.path e))⟩
    | .ok path =>
      match Manifest.load tree path with
      | .error e => ⟨[], some (e.map (ManifestError.failure path.render))⟩
      | .ok m => let rest := loadEach tree texts; { rest with loaded := (path, m) :: rest.loaded }

/-- The manifests that settings name. -/
def loadManifests (c : Config) (tree : FileTree) : LoadedManifests := loadEach tree c.manifestPaths

/-- The core manifest with those that were read; later ones win. -/
def LoadedManifests.merged (l : LoadedManifests) : Manifest := l.loaded.foldl (fun m (_, n) => m.merge n) .core

end Config

end ElmLint
