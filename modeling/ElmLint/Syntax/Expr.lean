import ElmLint.Syntax.TypeExpr

/-!
# Expressions

Chains of binary operators are grouped to the left without regard to precedence. `Expr.subexpressions` lists an expression
and all expressions inside it, outer before inner and in the order of the source; `Expr.boundPatterns` lists the patterns
that an expression itself binds.
-/

namespace ElmLint

/-- A field with its value in a record expression. -/
structure Setter (ε : Type) where
  name : String
  value : ε
  range : SourceRange
deriving Inhabited

/-- An arm of a `case` expression. -/
structure Arm (ε : Type) where
  pattern : Pattern
  body : ε
deriving Inhabited

/-- The declaration of a function or, without arguments, of a value; with its annotation, if it has one. -/
structure FunctionDecl (ε : Type) where
  name : String
  arguments : List Pattern
  body : ε
  range : SourceRange
  signature : Option Signature := none
deriving Inhabited

/-- A declaration in a `let` expression. -/
inductive LetDecl (ε : Type) where
  | function (decl : FunctionDecl ε)
  /-- `pattern = value`. -/
  | destructuring (pattern : Pattern) (value : ε) (range : SourceRange)

/-- Expressions, each with its place in the source. -/
inductive Expr where
  | literal (value : Literal) (range : SourceRange)
  /-- A value or constructor by its name. -/
  | reference (qualifier : ModuleName) (name : String) (range : SourceRange)
  | application (function : Expr) (arguments : List Expr) (range : SourceRange)
  | binary (operator : String) (left right : Expr) (range : SourceRange)
  /-- An operator as a function: `(+)`. -/
  | operator (operator : String) (range : SourceRange)
  | negation (inner : Expr) (range : SourceRange)
  | parenthesized (inner : Expr) (range : SourceRange)
  | tuple (elements : List Expr) (range : SourceRange)
  | list (elements : List Expr) (range : SourceRange)
  | record (setters : List (Setter Expr)) (range : SourceRange)
  /-- `{ name | field = value, … }`. -/
  | update (name : String) (setters : List (Setter Expr)) (range : SourceRange)
  /-- `inner.field`. -/
  | access (inner : Expr) (field : String) (range : SourceRange)
  /-- `.field` as a function. -/
  | accessor (field : String) (range : SourceRange)
  | conditional (condition thenBranch elseBranch : Expr) (range : SourceRange)
  | caseOf (subject : Expr) (arms : List (Arm Expr)) (range : SourceRange)
  | letIn (declarations : List (LetDecl Expr)) (body : Expr) (range : SourceRange)
  | lambda (arguments : List Pattern) (body : Expr) (range : SourceRange)

instance : Inhabited Expr := ⟨.literal .unit default⟩

/-- The value that a `let` declaration gives to its names. -/
def LetDecl.body {ε : Type} : LetDecl ε → ε
  | function decl => decl.body
  | destructuring _ value _ => value

/-- The patterns that a `let` declaration binds. -/
def LetDecl.patterns {ε : Type} : LetDecl ε → List Pattern
  | function decl => decl.arguments
  | destructuring pattern _ _ => [pattern]

namespace Expr

/-- The place of an expression. -/
def range : Expr → SourceRange
  | literal _ r | reference _ _ r | application _ _ r | binary _ _ _ r | operator _ r | negation _ r | parenthesized _ r
  | tuple _ r | list _ r | record _ r | update _ _ r | access _ _ r | accessor _ r | conditional _ _ _ r | caseOf _ _ r
  | letIn _ _ r | lambda _ _ r => r

/-- The expressions directly inside an expression, in the order of the source. -/
def children : Expr → List Expr
  | literal _ _ | reference _ _ _ | operator _ _ | accessor _ _ => []
  | application function arguments _ => function :: arguments
  | binary _ left right _ => [left, right]
  | negation inner _ | parenthesized inner _ | access inner _ _ | lambda _ inner _ => [inner]
  | tuple elements _ | list elements _ => elements
  | record setters _ | update _ setters _ => setters.map (·.value)
  | conditional condition thenBranch elseBranch _ => [condition, thenBranch, elseBranch]
  | caseOf subject arms _ => subject :: arms.map (·.body)
  | letIn declarations body _ => declarations.map (·.body) ++ [body]

/-- The patterns that an expression itself binds, those of its parts not included. -/
def boundPatterns : Expr → List Pattern
  | caseOf _ arms _ => arms.map (·.pattern)
  | lambda arguments _ _ => arguments
  | letIn declarations _ _ => declarations.flatMap (·.patterns)
  | _ => []

mutual

/-- An expression and all expressions inside it, outer before inner and in the order of the source. -/
def subexpressions : Expr → List Expr
  | literal v r => [literal v r]
  | reference q n r => [reference q n r]
  | application function arguments r =>
    application function arguments r :: (function.subexpressions ++ subexpressionsOf arguments)
  | binary op left right r => binary op left right r :: (left.subexpressions ++ right.subexpressions)
  | operator op r => [operator op r]
  | negation inner r => negation inner r :: inner.subexpressions
  | parenthesized inner r => parenthesized inner r :: inner.subexpressions
  | tuple elements r => tuple elements r :: subexpressionsOf elements
  | list elements r => list elements r :: subexpressionsOf elements
  | record setters r => record setters r :: setterSubexpressions setters
  | update n setters r => update n setters r :: setterSubexpressions setters
  | access inner f r => access inner f r :: inner.subexpressions
  | accessor f r => [accessor f r]
  | conditional condition thenBranch elseBranch r =>
    conditional condition thenBranch elseBranch r ::
      (condition.subexpressions ++ thenBranch.subexpressions ++ elseBranch.subexpressions)
  | caseOf subject arms r => caseOf subject arms r :: (subject.subexpressions ++ armSubexpressions arms)
  | letIn declarations body r =>
    letIn declarations body r :: (declarationSubexpressions declarations ++ body.subexpressions)
  | lambda arguments body r => lambda arguments body r :: body.subexpressions

/-- The subexpressions of several expressions, one after another. -/
def subexpressionsOf : List Expr → List Expr
  | [] => []
  | e :: es => e.subexpressions ++ subexpressionsOf es

/-- The subexpressions of the values of setters. -/
def setterSubexpressions : List (Setter Expr) → List Expr
  | [] => []
  | ⟨_, value, _⟩ :: setters => value.subexpressions ++ setterSubexpressions setters

/-- The subexpressions of the bodies of arms. -/
def armSubexpressions : List (Arm Expr) → List Expr
  | [] => []
  | ⟨_, body⟩ :: arms => body.subexpressions ++ armSubexpressions arms

/-- The subexpressions of the values of `let` declarations. -/
def declarationSubexpressions : List (LetDecl Expr) → List Expr
  | [] => []
  | .function ⟨_, _, body, _, _⟩ :: decls => body.subexpressions ++ declarationSubexpressions decls
  | .destructuring _ value _ :: decls => value.subexpressions ++ declarationSubexpressions decls

end

end Expr

end ElmLint
