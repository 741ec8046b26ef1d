import ElmLint.OrderedMap
import ElmLint.Syntax.Module
import ElmLint.Text.CodePoint

/-!
# Module interfaces and manifests

An interface tells which custom types a module exposes together with their constructors. A manifest holds the interfaces
of several modules; `Manifest.core` is that of the core library.

Interfaces may come from JSON documents, so the names in them are texts. Every name that a source can hold is one of them.
-/

namespace ElmLint

/-- The name of a module as a document gives it: the texts between the dots. -/
abbrev ModulePath := List Text

namespace ModulePath

/-- The path of a name that stands in a source. -/
def ofName (name : ModuleName) : ModulePath := name.map Text.ofString

/-- The path that a text with dots spells. -/
def ofDotted (text : Text) : ModulePath := text.splitOn '.'

/-- The path with dots between its parts. -/
def dotted (path : ModulePath) : Text := .joined '.' path

end ModulePath

/-- The custom types that a module exposes with their constructors. -/
structure Interface where
  name : ModulePath
  types : OrderedMap Text (List Text)
deriving Inhabited

namespace Interface

/-- All constructors, type after type. -/
def constructors (i : Interface) : List Text := i.types.values.flatten

/-- The constructors of one type; none when the type is not known. -/
def constructorsOf (i : Interface) (type : Text) : List Text := (i.types.find? type).getD []

/-- Whether some type has a constructor of this name. -/
def exposesConstructor (i : Interface) (name : Text) : Bool := i.types.values.any (·.contains name)

/-- Whether a module exposes a type of its own together with its constructors. -/
def opens (m : Module) (type : String) : Bool :=
  match m.header with
  | none => true
  | some header => header.exposing.isEverything || header.exposing.openTypes.contains type

/-- The interface of a parsed module. -/
def ofModule (m : Module) : Interface where
  name := .ofName m.name
  types := .ofList <| (m.customTypes.filter fun t => opens m t.name).map fun t =>
    (.ofString t.name, t.constructors.map fun c => .ofString c.name)

end Interface

/-- The interfaces of several modules by their names. -/
abbrev Manifest := OrderedMap ModulePath Interface

namespace Manifest

/-- Add an interface, or replace the one of the same name. -/
def add (m : Manifest) (i : Interface) : Manifest := m.insert i.name i

/-- The manifest of some interfaces. -/
def ofInterfaces (is : List Interface) : Manifest := is.foldl add .empty

/-- The interface of the module that has a name in sources. -/
def interface? (m : Manifest) (name : ModuleName) : Option Interface := m.find? (.ofName name)

/-- The interfaces of two manifests; those of the second win. -/
def merge (m n : Manifest) : Manifest := ofInterfaces (m.values ++ n.values)

/-- The types of the core modules with their constructors. -/
def coreTypes : List (ModulePath × List (Text × List Text)) :=
  [(["Basics"], [("Bool", ["True", "False"]), ("Order", ["LT", "EQ", "GT"])]),
   (["List"], [("List", [])]),
   (["Maybe"], [("Maybe", ["Just", "Nothing"])]),
   (["Result"], [("Result", ["Ok", "Err"])]),
   (["String"], [("String", [])]),
   (["Char"], [("Char", [])]),
   (["Tuple"], []),
   (["Debug"], []),
   (["Platform"], [("Program", []), ("Task", []), ("ProcessId", [])]),
   (["Platform", "Cmd"], [("Cmd", [])]),
   (["Platform", "Sub"], [("Sub", [])]),
   (["Array"], [("Array", [])]),
   (["Dict"], [("Dict", [])]),
   (["Set"], [("Set", [])]),
   (["Task"], [("Task", [])]),
   (["Process"], [("Id", [])])]

/-- The interfaces of the core library. -/
def core : Manifest := ofInterfaces (coreTypes.map fun (name, types) => ⟨name, .ofList types⟩)

/-- The manifest to work with: an empty one stands for that of the core library. -/
def orCore (m : Manifest) : Manifest := if m.isEmpty then core else m

end Manifest

end ElmLint
