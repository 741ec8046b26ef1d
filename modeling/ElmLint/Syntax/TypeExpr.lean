import ElmLint.Syntax.Pattern

/-!
# Type annotations

Parentheses leave no trace in a type annotation: they only group.
-/

namespace ElmLint

/-- A field of a record type. -/
structure FieldType (τ : Type) where
  name : String
  type : τ
  range : SourceRange
deriving Repr, Inhabited

/-- Type annotations, each with its place in the source. -/
inductive TypeExpr where
  /-- A type variable. -/
  | var (name : String) (range : SourceRange)
  /-- A type by its name, with arguments. -/
  | reference (qualifier : ModuleName) (name : String) (arguments : List TypeExpr) (range : SourceRange)
  | unit (range : SourceRange)
  | tuple (elements : List TypeExpr) (range : SourceRange)
  /-- A record type, perhaps one that extends a type variable. -/
  | record (fields : List (FieldType TypeExpr)) (base : Option String) (range : SourceRange)
  | function (argument result : TypeExpr) (range : SourceRange)
deriving Inhabited

/-- The place of a type annotation. -/
def TypeExpr.range : TypeExpr → SourceRange
  | var _ r | reference _ _ _ r | unit r | tuple _ r | record _ _ r | function _ _ r => r

/-- The annotation `name : type` of a value. -/
structure Signature where
  name : String
  type : TypeExpr
  range : SourceRange
deriving Inhabited

end ElmLint
