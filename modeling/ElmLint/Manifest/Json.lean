import ElmLint.Breakdown
import ElmLint.Failure
import ElmLint.Json.Reader
import ElmLint.Manifest

/-!
# Manifests as JSON

A manifest file holds an object with a member `modules`: an object that gives for each module, by its dotted name, an object
with the constructors of each type.
-/

namespace ElmLint

/-- Why a manifest cannot be used. -/
inductive ManifestError where
  | unreadable (error : AccessError)
  | notJson (error : JsonProblem) (position : Position)
  | noModules
  | moduleShape (module : Text)
  | typeShape (module type : Text)
deriving Repr, DecidableEq, Inhabited

namespace ManifestError

/-- The error in words; the path is that of the manifest. -/
def message (path : String) : ManifestError → String
  | unreadable error => "cannot read manifest: " ++ error.message path
  | notJson problem _ => "invalid JSON: " ++ problem.message
  | noModules => "manifest must be an object with a 'modules' object"
  | moduleShape module => "module " ++ quoted module ++ ": expected an object of types"
  | typeShape module type =>
    "module " ++ quoted module ++ ", type " ++ quoted type ++ ": expected a list of constructor names"

/-- The failure that reports the error in a file. -/
def failure (path : String) (e : ManifestError) : Failure where
  kind := .manifest
  message := e.message path
  span := match e with
    | notJson _ position => ⟨path, position.row, position.column⟩
    | _ => { file := path }

end ManifestError

namespace Manifest

/-- The constructors of the types of a module. -/
def typesOfJson (module : Text) : List (Text × JsonValue) → Except ManifestError (List (Text × List Text))
  | [] => .ok []
  | (type, value) :: rest =>
    match value.texts? with
    | none => .error (.typeShape module type)
    | some constructors => (typesOfJson module rest).map ((type, constructors) :: ·)

/-- The interfaces of modules. -/
def interfacesOfJson : List (Text × JsonValue) → Except ManifestError (List Interface)
  | [] => .ok []
  | (module, value) :: rest =>
    match value.members? with
    | none => .error (.moduleShape module)
    | some types =>
      match typesOfJson module types with
      | .error e => .error e
      | .ok types => (interfacesOfJson rest).map (⟨.ofDotted module, .ofList types⟩ :: ·)

/-- The manifest that a JSON value describes. -/
def ofJson (value : JsonValue) : Except ManifestError Manifest :=
  match (value.members?.bind (·.lookup ("modules" : Text))).bind (·.members?) with
  | none => .error .noModules
  | some modules => (interfacesOfJson modules).map ofInterfaces

/-- The modules of a manifest by their dotted names, with the constructors of their types. A later module takes the place of
an earlier one with the same dotted name. -/
def modules (m : Manifest) : OrderedMap Text (List (Text × List Text)) :=
  .ofList (m.values.map fun i => (i.name.dotted, i.types.entries))

/-- A manifest as a JSON value. -/
def toJson (m : Manifest) : JsonValue :=
  .object [("modules", .object (m.modules.entries.map fun (name, types) =>
    (name, .object (types.map fun (type, constructors) => (type, .texts constructors)))))]

end Manifest

/-- Why reading a JSON document out of a file fails: the program breaks off, or what is read is of no use. -/
inductive DocumentError (ε : Type) where
  | breakdown (cause : Breakdown)
  | document (error : ε)
deriving Repr, DecidableEq, Inhabited

/-- The error with another account of what is of no use. -/
def DocumentError.map {ε ζ : Type} (f : ε → ζ) : DocumentError ε → DocumentError ζ
  | breakdown cause => .breakdown cause
  | document error => .document (f error)

/-- Read the JSON document at a path, and say what is wrong with it in terms of the reader's own errors. -/
def readDocument {ε α : Type} (tree : FileTree) (path : TreePath) (unreadable : AccessError → ε)
    (notJson : JsonProblem → Position → ε) (ofJson : JsonValue → Except ε α) : Except (DocumentError ε) α :=
  match tree.readText path with
  | .error (.path e) => .error (.breakdown (.path e))
  | .error (.encoding e) => .error (.breakdown (.encoding e))
  | .error (.access e) => .error (.document (unreadable e))
  | .ok text =>
    match JsonValue.read text with
    | .error e => .error (.document (notJson e.problem (e.position text)))
    | .ok value => (ofJson value).mapError .document

/-- The manifest in a file. -/
def Manifest.load (tree : FileTree) (path : TreePath) : Except (DocumentError ManifestError) Manifest :=
  readDocument tree path .unreadable .notJson Manifest.ofJson

end ElmLint
