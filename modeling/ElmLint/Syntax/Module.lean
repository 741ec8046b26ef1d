import ElmLint.Syntax.Declaration
import ElmLint.Token

/-!
# Modules

A module has a header, imports and declarations; a file without a header is a module named `Main` that exposes
everything. `Module.expressions` and `Module.patterns` list everything that the functions of a module are made of.
-/

namespace ElmLint

/-- What an entry of an exposing list makes visible. -/
inductive ExposedKind where
  | value
  /-- A type without its constructors. -/
  | type
  /-- A type with its constructors: `T(..)`. -/
  | openType
  /-- An operator in parentheses. -/
  | operator
deriving Repr, DecidableEq, Inhabited

/-- An entry of an exposing list. -/
structure ExposedItem where
  name : String
  kind : ExposedKind
  range : SourceRange
deriving Repr, DecidableEq, Inhabited

/-- What a module exposes, or what an import takes in. -/
inductive Exposing where
  /-- `(..)`. -/
  | everything (range : SourceRange)
  | only (items : List ExposedItem) (range : SourceRange)
deriving Repr, DecidableEq, Inhabited

namespace Exposing

/-- Whether everything is exposed. -/
def isEverything : Exposing → Bool
  | everything _ => true
  | only _ _ => false

/-- The entries of the list; none when everything is exposed. -/
def items : Exposing → List ExposedItem
  | everything _ => []
  | only items _ => items

/-- The place of an exposing list. -/
def range : Exposing → SourceRange
  | everything r | only _ r => r

/-- Whether a value of this name is exposed. -/
def exposesValue (e : Exposing) (name : String) : Bool :=
  e.isEverything || e.items.any fun item => item.name == name && item.kind == .value

/-- The types that are listed with their constructors. -/
def openTypes (e : Exposing) : List String :=
  (e.items.filter (·.kind == .openType)).map (·.name)

end Exposing

/-- What sort of module a header announces. -/
inductive ModuleKind where
  | plain
  | port
  | effect
deriving Repr, DecidableEq, Inhabited

/-- `module Name exposing (…)`. -/
structure ModuleHeader where
  name : ModuleName
  exposing : Exposing
  kind : ModuleKind
  range : SourceRange
deriving Repr, DecidableEq, Inhabited

/-- `import Name as Alias exposing (…)`. -/
structure Import where
  name : ModuleName
  aliasName : Option String
  exposing : Option Exposing
  range : SourceRange
deriving Repr, DecidableEq, Inhabited

/-- A parsed source file. -/
structure Module where
  header : Option ModuleHeader
  imports : List Import
  declarations : List Declaration
  comments : List Comment
  file : String
deriving Inhabited

/-- An item of the top level, as it stands in the source. -/
inductive TopItem where
  | header (header : ModuleHeader)
  | imported (item : Import)
  | declaration (decl : Declaration)

namespace TopItem

/-- The header that an item is. -/
def header? : TopItem → Option ModuleHeader
  | header h => some h
  | _ => none

/-- The import that an item is. -/
def import? : TopItem → Option Import
  | imported i => some i
  | _ => none

/-- The declaration that an item is. -/
def declaration? : TopItem → Option Declaration
  | declaration d => some d
  | _ => none

end TopItem

namespace Module

/-- The module that top-level items make up. Of several headers the last one counts. -/
def ofItems (items : List TopItem) (comments : List Comment) (file : String) : Module where
  header := (items.filterMap TopItem.header?).getLast?
  imports := items.filterMap TopItem.import?
  declarations := Declaration.attach (items.filterMap TopItem.declaration?)
  comments := comments
  file := file

/-- The name of a module; without a header it is `Main`. -/
def name (m : Module) : ModuleName := (m.header.map (·.name)).getD ["Main"]

/-- The custom types that a module declares. -/
def customTypes (m : Module) : List CustomType := m.declarations.filterMap Declaration.customType?

/-- The functions and values that a module declares. -/
def functions (m : Module) : List (FunctionDecl Expr) := m.declarations.filterMap Declaration.function?

/-- Every expression in the functions of a module, outer before inner and in the order of the source. -/
def expressions (m : Module) : List Expr := m.functions.flatMap (·.body.subexpressions)

end Module

/-- The patterns that a function binds at the top: its arguments, then those bound in its body. -/
def FunctionDecl.boundPatterns (f : FunctionDecl Expr) : List Pattern :=
  f.arguments ++ f.body.subexpressions.flatMap Expr.boundPatterns

/-- Every pattern in the functions of a module, nested ones included. -/
def Module.patterns (m : Module) : List Pattern :=
  m.functions.flatMap fun f => f.boundPatterns.flatMap Pattern.subpatterns

end ElmLint
