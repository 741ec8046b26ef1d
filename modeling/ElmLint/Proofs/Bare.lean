import ElmLint.Proofs.Rendering
import ElmLint.Proofs.Weights
import ElmLint.Syntax.PlacedLiteral

/-!
# Syntax without places

`Pattern.bare` and `Expr.bare` take the places of the source out of a pattern or an expression, and keep all else. Two expressions
that are the same without places have the same literals, so either both have a value for each of their literals or neither has
(`Expr.hasValues_congr`).
-/

namespace ElmLint

/-! ## Patterns -/

namespace Pattern

mutual

/-- A pattern without its places. -/
def bare : Pattern → Pattern
  | wildcard _ => wildcard default
  | literal value _ => literal value default
  | var name _ => var name default
  | named qualifier name arguments _ => named qualifier name (bareEach arguments) default
  | parenthesized inner _ => parenthesized inner.bare default
  | cons head tail _ => cons head.bare tail.bare default
  | list elements _ => list (bareEach elements) default
  | tuple elements _ => tuple (bareEach elements) default
  | aliased inner name _ => aliased inner.bare name default
  | record fields _ => record fields default

/-- Patterns without their places. -/
def bareEach : List Pattern → List Pattern
  | [] => []
  | p :: ps => p.bare :: bareEach ps

end

theorem bareEach_eq_map : ∀ ps : List Pattern, bareEach ps = ps.map bare
  | [] => rfl
  | p :: ps => by rw [bareEach, bareEach_eq_map ps, List.map_cons]

mutual

theorem subpatterns_bare (p : Pattern) : p.bare.subpatterns = p.subpatterns.map bare := by
  match p with
  | wildcard _ | literal _ _ | var _ _ | record _ _ => rfl
  | named _ _ arguments _ => simp [bare, subpatterns, subpatternsOf_bareEach arguments]
  | parenthesized inner _ => simp [bare, subpatterns, subpatterns_bare inner]
  | cons head tail _ => simp [bare, subpatterns, subpatterns_bare head, subpatterns_bare tail]
  | list elements _ => simp [bare, subpatterns, subpatternsOf_bareEach elements]
  | tuple elements _ => simp [bare, subpatterns, subpatternsOf_bareEach elements]
  | aliased inner _ _ => simp [bare, subpatterns, subpatterns_bare inner]

theorem subpatternsOf_bareEach (ps : List Pattern) : subpatternsOf (bareEach ps) = (subpatternsOf ps).map bare := by
  match ps with
  | [] => rfl
  | p :: ps => simp [bareEach, subpatternsOf, subpatterns_bare p, subpatternsOf_bareEach ps]

end

/-- The values of the literals in a pattern. -/
def literalValues (p : Pattern) : List Literal := p.literals.map (·.value)

theorem map_value_placedLiteral?_bare (p : Pattern) :
    p.bare.placedLiteral?.map (·.value) = p.placedLiteral?.map (·.value) := by
  cases p <;> rfl

/-- Literals keep their values. -/
theorem literalValues_bare (p : Pattern) : p.bare.literalValues = p.literalValues := by
  simp only [literalValues, literals, subpatterns_bare, List.map_filterMap, List.filterMap_map, Function.comp_def,
    map_value_placedLiteral?_bare]

end Pattern

/-! ## Expressions -/

namespace Expr

mutual

/-- An expression without its places, apart from those in the annotations of functions. -/
def bare : Expr → Expr
  | literal value _ => literal value default
  | reference qualifier name _ => reference qualifier name default
  | application function arguments _ => application function.bare (bareEach arguments) default
  | binary op left right _ => binary op left.bare right.bare default
  | operator op _ => operator op default
  | negation inner _ => negation inner.bare default
  | parenthesized inner _ => parenthesized inner.bare default
  | tuple elements _ => tuple (bareEach elements) default
  | list elements _ => list (bareEach elements) default
  | record setters _ => record (bareSetters setters) default
  | update name setters _ => update name (bareSetters setters) default
  | access inner field _ => access inner.bare field default
  | accessor field _ => accessor field default
  | conditional condition thenBranch elseBranch _ => conditional condition.bare thenBranch.bare elseBranch.bare default
  | caseOf subject arms _ => caseOf subject.bare (bareArms arms) default
  | letIn declarations body _ => letIn (bareDecls declarations) body.bare default
  | lambda arguments body _ => lambda (arguments.map Pattern.bare) body.bare default

/-- Expressions without their places. -/
def bareEach : List Expr → List Expr
  | [] => []
  | e :: es => e.bare :: bareEach es

/-- Setters without their places. -/
def bareSetters : List (Setter Expr) → List (Setter Expr)
  | [] => []
  | ⟨name, value, _⟩ :: setters => ⟨name, value.bare, default⟩ :: bareSetters setters

/-- Arms without their places. -/
def bareArms : List (Arm Expr) → List (Arm Expr)
  | [] => []
  | ⟨pattern, body⟩ :: arms => ⟨pattern.bare, body.bare⟩ :: bareArms arms

/-- Declarations without their places. -/
def bareDecls : List (LetDecl Expr) → List (LetDecl Expr)
  | [] => []
  | .function ⟨name, arguments, body, _, signature⟩ :: decls =>
    .function ⟨name, arguments.map Pattern.bare, body.bare, default, signature⟩ :: bareDecls decls
  | .destructuring pattern value _ :: decls => .destructuring pattern.bare value.bare default :: bareDecls decls

end

end Expr

/-- An arm without its places. -/
def Arm.bare (arm : Arm Expr) : Arm Expr := ⟨arm.pattern.bare, arm.body.bare⟩

/-- A declaration without its places. -/
def LetDecl.bare : LetDecl Expr → LetDecl Expr
  | .function decl => .function ⟨decl.name, decl.arguments.map Pattern.bare, decl.body.bare, default, decl.signature⟩
  | .destructuring pattern value _ => .destructuring pattern.bare value.bare default

namespace Expr

theorem bareEach_eq_map : ∀ es : List Expr, bareEach es = es.map bare
  | [] => rfl
  | e :: es => by rw [bareEach, bareEach_eq_map es, List.map_cons]

theorem bareArms_eq_map : ∀ arms : List (Arm Expr), bareArms arms = arms.map Arm.bare
  | [] => rfl
  | ⟨_, _⟩ :: arms => by rw [bareArms, bareArms_eq_map arms, List.map_cons, Arm.bare]

theorem bareDecls_eq_map : ∀ decls : List (LetDecl Expr), bareDecls decls = decls.map LetDecl.bare
  | [] => rfl
  | .function ⟨_, _, _, _, _⟩ :: decls => by rw [bareDecls, bareDecls_eq_map decls, List.map_cons, LetDecl.bare]
  | .destructuring _ _ _ :: decls => by rw [bareDecls, bareDecls_eq_map decls, List.map_cons, LetDecl.bare]

mutual

theorem subexpressions_bare (e : Expr) : e.bare.subexpressions = e.subexpressions.map bare := by
  match e with
  | literal _ _ | reference _ _ _ | operator _ _ | accessor _ _ => rfl
  | application function arguments _ =>
    simp [bare, subexpressions, subexpressions_bare function, subexpressionsOf_bareEach arguments]
  | binary _ left right _ => simp [bare, subexpressions, subexpressions_bare left, subexpressions_bare right]
  | negation inner _ => simp [bare, subexpressions, subexpressions_bare inner]
  | parenthesized inner _ => simp [bare, subexpressions, subexpressions_bare inner]
  | tuple elements _ => simp [bare, subexpressions, subexpressionsOf_bareEach elements]
  | list elements _ => simp [bare, subexpressions, subexpressionsOf_bareEach elements]
  | record setters _ => simp [bare, subexpressions, setterSubexpressions_bare setters]
  | update _ setters _ => simp [bare, subexpressions, setterSubexpressions_bare setters]
  | access inner _ _ => simp [bare, subexpressions, subexpressions_bare inner]
  | conditional condition thenBranch elseBranch _ =>
    simp [bare, subexpressions, subexpressions_bare condition, subexpressions_bare thenBranch, subexpressions_bare elseBranch]
  | caseOf subject arms _ => simp [bare, subexpressions, subexpressions_bare subject, armSubexpressions_bare arms]
  | letIn declarations body _ => simp [bare, subexpressions, declarationSubexpressions_bare declarations, subexpressions_bare body]
  | lambda _ body _ => simp [bare, subexpressions, subexpressions_bare body]

theorem subexpressionsOf_bareEach (es : List Expr) : subexpressionsOf (bareEach es) = (subexpressionsOf es).map bare := by
  match es with
  | [] => rfl
  | e :: es => simp [bareEach, subexpressionsOf, subexpressions_bare e, subexpressionsOf_bareEach es]

theorem setterSubexpressions_bare (setters : List (Setter Expr)) :
    setterSubexpressions (bareSetters setters) = (setterSubexpressions setters).map bare := by
  match setters with
  | [] => rfl
  | ⟨_, value, _⟩ :: setters =>
    simp [bareSetters, setterSubexpressions, subexpressions_bare value, setterSubexpressions_bare setters]

theorem armSubexpressions_bare (arms : List (Arm Expr)) :
    armSubexpressions (bareArms arms) = (armSubexpressions arms).map bare := by
  match arms with
  | [] => rfl
  | ⟨_, body⟩ :: arms => simp [bareArms, armSubexpressions, subexpressions_bare body, armSubexpressions_bare arms]

theorem declarationSubexpressions_bare (decls : List (LetDecl Expr)) :
    declarationSubexpressions (bareDecls decls) = (declarationSubexpressions decls).map bare := by
  match decls with
  | [] => rfl
  | .function ⟨_, _, body, _, _⟩ :: decls =>
    simp [bareDecls, declarationSubexpressions, subexpressions_bare body, declarationSubexpressions_bare decls]
  | .destructuring _ value _ :: decls =>
    simp [bareDecls, declarationSubexpressions, subexpressions_bare value, declarationSubexpressions_bare decls]

end

theorem boundPatterns_bare (e : Expr) : e.bare.boundPatterns = e.boundPatterns.map Pattern.bare := by
  cases e with
  | caseOf _ arms _ => simp [bare, boundPatterns, bareArms_eq_map, Arm.bare]
  | letIn declarations _ _ =>
    have hpatterns : ∀ decl : LetDecl Expr, decl.bare.patterns = decl.patterns.map Pattern.bare := fun decl => by cases decl <;> rfl
    simp [bare, boundPatterns, bareDecls_eq_map, hpatterns, List.flatMap_map, List.map_flatMap]
  | _ => rfl

/-- The values of the literals in an expression. -/
def literalValues (e : Expr) : List Literal := e.literals.map (·.value)

theorem map_value_placedLiteral?_bare (e : Expr) :
    e.bare.placedLiteral?.map (·.value) = e.placedLiteral?.map (·.value) := by
  cases e <;> rfl

theorem literalValues_eq (e : Expr) : e.literalValues = e.subexpressions.flatMap fun sub =>
    (sub.placedLiteral?.map (·.value)).toList ++ sub.boundPatterns.flatMap Pattern.literalValues := by
  simp only [literalValues, literals, List.map_flatMap, List.map_append, Option.toList_map]
  rfl

/-- Literals keep their values. -/
theorem literalValues_bare (e : Expr) : e.bare.literalValues = e.literalValues := by
  simp [literalValues_eq, subexpressions_bare, boundPatterns_bare, List.flatMap_map, map_value_placedLiteral?_bare,
    Pattern.literalValues_bare]

end Expr

/-! ## Literals with a value -/

/-- All literals in a pattern have a value. -/
def Pattern.HasValues (p : Pattern) : Prop := ∀ value ∈ p.literalValues, value.error? = none

instance (p : Pattern) : Decidable p.HasValues := inferInstanceAs (Decidable (∀ _ ∈ _, _))

/-- All literals in an expression have a value. -/
def Expr.HasValues (e : Expr) : Prop := ∀ value ∈ e.literalValues, value.error? = none

instance (e : Expr) : Decidable e.HasValues := inferInstanceAs (Decidable (∀ _ ∈ _, _))

namespace Pattern

theorem hasValues_literal {value : Literal} {range : SourceRange} : (literal value range).HasValues ↔ value.error? = none :=
  List.forall_mem_singleton

/-- Whether its literals have values is told by a pattern without its places. -/
theorem hasValues_congr {p p' : Pattern} (h : p'.bare = p.bare) : p'.HasValues ↔ p.HasValues := by
  rw [HasValues, HasValues, ← literalValues_bare p, ← h, literalValues_bare]

end Pattern

namespace Expr

theorem hasValues_literal {value : Literal} {range : SourceRange} : (literal value range).HasValues ↔ value.error? = none :=
  List.forall_mem_singleton

/-- Whether its literals have values is told by an expression without its places. -/
theorem hasValues_congr {e e' : Expr} (h : e'.bare = e.bare) : e'.HasValues ↔ e.HasValues := by
  rw [HasValues, HasValues, ← literalValues_bare e, ← h, literalValues_bare]

end Expr

end ElmLint
