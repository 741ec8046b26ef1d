import ElmLint.Scope

/-!
# Where the constructors of a module come from

`LookupTable.build` resolves every reference to a constructor in a module, once, and keeps the answers under the places of
the references.
-/

namespace ElmLint

/-- Where a constructor is referred to. -/
inductive ReferenceKind where
  | pattern
  | value
deriving Repr, DecidableEq, Inhabited

/-- A reference to a constructor. -/
structure Reference where
  kind : ReferenceKind
  qualifier : ModuleName
  name : String
  range : SourceRange
deriving Repr, DecidableEq, Inhabited

/-- The constructor that a pattern refers to. -/
def Pattern.reference? : Pattern → Option Reference
  | .named qualifier name _ range => some ⟨.pattern, qualifier, name, range⟩
  | _ => none

/-- Whether a name is that of a constructor: it is capitalised. -/
def isConstructorName (name : String) : Bool := name.toList.head?.any isUpper

/-- The constructor that an expression refers to. -/
def Expr.reference? : Expr → Option Reference
  | .reference qualifier name range =>
    if isConstructorName name then some ⟨.value, qualifier, name, range⟩ else none
  | _ => none

/-- The references to constructors in a module: those of the patterns, then those of the expressions. -/
def Module.references (m : Module) : List Reference :=
  m.patterns.filterMap Pattern.reference? ++ m.expressions.filterMap Expr.reference?

/-- The modules that the references of a module lead to, by the places of the references. -/
structure LookupTable where
  moduleName : ModuleName
  entries : OrderedMap SourceRange (Option ModuleName)
deriving Inhabited

namespace LookupTable

/-- Resolve every reference of a module in its scope. -/
def build (m : Module) (manifest : Manifest) : LookupTable :=
  let scope := Scope.ofModule m manifest.orCore
  ⟨m.name, .ofList (m.references.map fun r => (r.range, scope.resolve r.qualifier r.name))⟩

/-- The module that the reference at a place leads to; nothing when it cannot be resolved. -/
def origin? (t : LookupTable) (range : SourceRange) : Option ModuleName := (t.entries.find? range).getD none

/-- The number of references. -/
def size (t : LookupTable) : Nat := t.entries.size

/-- The number of references that could not be resolved. -/
def unresolved (t : LookupTable) : Nat := t.entries.values.countP (·.isNone)

end LookupTable

end ElmLint
