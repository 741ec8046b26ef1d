import ElmLint.Syntax.Module

/-!
# The literals of a source

A source can be well formed and yet hold a literal without a value: an escape `\u{…}` may name a number beyond the last code
point, a number may be written with digits that have no value, and an integer with more digits than are converted. The first such
literal in the order of the source is what is reported.
-/

namespace ElmLint

/-- A literal and its place. -/
structure PlacedLiteral where
  value : Literal
  range : SourceRange
deriving Repr, DecidableEq, Inhabited

/-- The literal that a pattern is, with its place. -/
def Pattern.placedLiteral? : Pattern → Option PlacedLiteral
  | .literal value range => some ⟨value, range⟩
  | _ => none

/-- The literals in a pattern. -/
def Pattern.literals (p : Pattern) : List PlacedLiteral := p.subpatterns.filterMap Pattern.placedLiteral?

/-- The literal that an expression is, with its place. -/
def Expr.placedLiteral? : Expr → Option PlacedLiteral
  | .literal value range => some ⟨value, range⟩
  | _ => none

/-- The literals in an expression, those of the patterns it binds included. -/
def Expr.literals (e : Expr) : List PlacedLiteral :=
  e.subexpressions.flatMap fun sub => sub.placedLiteral?.toList ++ sub.boundPatterns.flatMap Pattern.literals

/-- The literals in the declaration of a function. -/
def FunctionDecl.literals (f : FunctionDecl Expr) : List PlacedLiteral :=
  f.arguments.flatMap Pattern.literals ++ f.body.literals

/-- The literals in an arm. -/
def Arm.literals (a : Arm Expr) : List PlacedLiteral := a.pattern.literals ++ a.body.literals

/-- The literals in an item of a `let` block. -/
def LetItem.literals : LetItem → List PlacedLiteral
  | .signature _ => []
  | .declaration (.function f) => f.literals
  | .declaration (.destructuring pattern value _) => pattern.literals ++ value.literals

/-- The literals in a module. -/
def Module.literals (m : Module) : List PlacedLiteral := m.functions.flatMap FunctionDecl.literals

/-- Whether a position comes before another one. -/
def Position.before (p q : Position) : Bool := p.row < q.row || (p.row == q.row && p.column < q.column)

/-- Why the first literal without a value, in the order of the source, has none. -/
def literalError? (literals : List PlacedLiteral) : Option LiteralError :=
  let bad := literals.filterMap fun l => l.value.error?.map (l.range.start, ·)
  (bad.foldl (fun best l => match best with
    | some b => if l.1.before b.1 then some l else some b
    | none => some l) none).map (·.2)

end ElmLint
