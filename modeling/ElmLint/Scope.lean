import ElmLint.Manifest
import ElmLint.Parse

/-!
# The names visible in a module

A constructor may be written by itself, or with a qualifier that is the name or the alias of an imported module. `Scope`
collects from the imports of a module which constructors are visible by themselves and what each qualifier stands for;
`Scope.resolve` then tells which module a constructor comes from.

Every module begins with the same default imports. Its own imports come after them and override them, and its own
constructors override both.
-/

namespace ElmLint

/-- The imports that every module begins with, as they would be written. -/
def defaultImportsSource : String :=
  "import Basics exposing (..)\n" ++
  "import List exposing (List, (::))\n" ++
  "import Maybe exposing (Maybe(..))\n" ++
  "import Result exposing (Result(..))\n" ++
  "import String exposing (String)\n" ++
  "import Char exposing (Char)\n" ++
  "import Tuple\n" ++
  "import Debug\n" ++
  "import Platform exposing (Program)\n" ++
  "import Platform.Cmd as Cmd exposing (Cmd)\n" ++
  "import Platform.Sub as Sub exposing (Sub)\n"

/-- The imports that every module begins with. -/
def defaultImports : List Import :=
  match Module.parse defaultImportsSource "<default imports>" with
  | .ok m => m.imports
  | .error _ => []

/-- The constructors visible by themselves with the modules they come from, and the modules that each qualifier may stand
for. -/
structure Scope where
  manifest : Manifest
  unqualified : OrderedMap Text ModuleName
  qualifiers : OrderedMap String (List ModuleName)
deriving Inhabited

namespace Scope

/-- What an import is referred to by: its alias, or its name. -/
def qualifierOf (i : Import) : String := i.aliasName.getD (ModuleName.dotted i.name)

/-- The constructors that an import makes visible by themselves, given the interface of its module. -/
def broughtIn (i : Import) (interface : Interface) : List Text :=
  match i.exposing with
  | none => []
  | some exposing =>
    if exposing.isEverything then interface.constructors else exposing.openTypes.flatMap fun (type : String) => interface.constructorsOf type

/-- A list of modules with one more, unless it is there already. -/
def addCandidate (candidates : List ModuleName) (name : ModuleName) : List ModuleName :=
  if candidates.contains name then candidates else candidates ++ [name]

/-- Take an import in. -/
def addImport (s : Scope) (i : Import) : Scope :=
  let candidates := addCandidate ((s.qualifiers.find? (qualifierOf i)).getD []) i.name
  let names := ((s.manifest.interface? i.name).map (broughtIn i)).getD []
  { s with
    qualifiers := s.qualifiers.insert (qualifierOf i) candidates
    unqualified := s.unqualified.insertAll (names.map (·, i.name)) }

/-- All imports of a module, the default ones first. -/
def importsOf (m : Module) : List Import := defaultImports ++ m.imports

/-- The constructors that a module declares. -/
def declared (m : Module) : List Text := m.customTypes.flatMap fun t => t.constructors.map fun c => .ofString c.name

/-- The scope of a module, with the interfaces of a manifest. -/
def ofModule (m : Module) (manifest : Manifest) : Scope :=
  let s := (importsOf m).foldl addImport ⟨manifest, .empty, .empty⟩
  { s with unqualified := s.unqualified.insertAll ((declared m).map (·, m.name)) }

/-- The modules among whose constructors a name with a qualifier is looked for. -/
def candidates (s : Scope) (qualifier : ModuleName) : List ModuleName :=
  (s.qualifiers.find? (ModuleName.dotted qualifier)).getD []

/-- The module that a constructor comes from. With a qualifier it is the first candidate whose interface has the name, or
the only candidate there is. -/
def resolve (s : Scope) (qualifier : ModuleName) (name : String) : Option ModuleName :=
  if qualifier.isEmpty then s.unqualified.find? name
  else
    match (s.candidates qualifier).find? fun c => (s.manifest.interface? c).any (·.exposesConstructor name) with
    | some found => some found
    | none =>
      match s.candidates qualifier with
      | [only] => some only
      | _ => none

/-- The imports of a module that list what they take in, while nothing is known about their modules. -/
def unknownImports (m : Module) (manifest : Manifest) : List ModuleName :=
  ((importsOf m).filter fun i => i.exposing.isSome && (manifest.interface? i.name).isNone).map (·.name)

end Scope

end ElmLint
