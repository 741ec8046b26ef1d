import ElmLint.Lookup
import Mathlib.Algebra.BigOperators.Group.List.Basic

/-!
# Weights

What is counted in a module, say its references or its blocks, is counted pattern by pattern and expression by expression.
`Weights` tells how much each of them counts by itself; the weight of a part of a module is the sum over all that is inside
it. The weight of a node is its own and that of its children (`ofPattern_eq`, `ofExpr_eq`); attaching signatures does not
change weights (`sum_attachSignatures`), and the weight of a module is the sum over its patterns and its expressions
(`ofModule_eq`).
-/

namespace ElmLint

/-! ## Patterns and expressions from the outside in -/

namespace Pattern

theorem subpatternsOf_eq : ∀ ps : List Pattern, subpatternsOf ps = ps.flatMap subpatterns
  | [] => rfl
  | p :: ps => by
    rw [List.flatMap_cons, ← subpatternsOf_eq ps]
    rfl

/-- A pattern comes before what is inside its children. -/
theorem subpatterns_eq (p : Pattern) : p.subpatterns = p :: p.children.flatMap subpatterns := by
  rw [← subpatternsOf_eq]
  cases p with
  | parenthesized inner r | aliased inner n r => exact congrArg _ (List.append_nil _).symm
  | cons head tail r => exact congrArg _ (congrArg _ (List.append_nil _).symm)
  | _ => rfl

end Pattern

namespace Expr

theorem subexpressionsOf_eq : ∀ es : List Expr, subexpressionsOf es = es.flatMap subexpressions
  | [] => rfl
  | e :: es => by
    rw [List.flatMap_cons, ← subexpressionsOf_eq es]
    rfl

theorem setterSubexpressions_eq : ∀ ss : List (Setter Expr), setterSubexpressions ss = subexpressionsOf (ss.map (·.value))
  | [] => rfl
  | ⟨_, value, _⟩ :: ss => congrArg (value.subexpressions ++ ·) (setterSubexpressions_eq ss)

theorem armSubexpressions_eq : ∀ arms : List (Arm Expr), armSubexpressions arms = subexpressionsOf (arms.map (·.body))
  | [] => rfl
  | ⟨_, body⟩ :: arms => congrArg (body.subexpressions ++ ·) (armSubexpressions_eq arms)

theorem declarationSubexpressions_eq : ∀ ds : List (LetDecl Expr),
    declarationSubexpressions ds = subexpressionsOf (ds.map (·.body))
  | [] => rfl
  | .function ⟨_, _, body, _, _⟩ :: ds => congrArg (body.subexpressions ++ ·) (declarationSubexpressions_eq ds)
  | .destructuring _ value _ :: ds => congrArg (value.subexpressions ++ ·) (declarationSubexpressions_eq ds)

/-- An expression comes before what is inside its children. -/
theorem subexpressions_eq (e : Expr) : e.subexpressions = e :: e.children.flatMap subexpressions := by
  cases e with
  | negation inner r | parenthesized inner r | access inner f r | lambda arguments inner r =>
    exact congrArg _ (List.append_nil _).symm
  | binary op left right r => exact congrArg _ (congrArg _ (List.append_nil _).symm)
  | conditional condition thenBranch elseBranch r =>
    refine congrArg _ ((List.append_assoc _ _ _).trans ?_)
    exact congrArg _ (congrArg _ (List.append_nil _).symm)
  | record setters r | update n setters r =>
    rw [← subexpressionsOf_eq]
    exact congrArg _ (setterSubexpressions_eq setters)
  | caseOf subject arms r =>
    rw [← subexpressionsOf_eq]
    exact congrArg _ (congrArg _ (armSubexpressions_eq arms))
  | letIn declarations body r =>
    rw [children, List.flatMap_append, ← subexpressionsOf_eq, ← declarationSubexpressions_eq]
    exact congrArg _ (congrArg _ (List.append_nil _).symm)
  | _ =>
    rw [← subexpressionsOf_eq]
    rfl

/-- Whether an expression has a block of its own: the arms of a `case`, or the items of a `let`. -/
def opensBlock : Expr → Bool
  | caseOf _ _ _ | letIn _ _ _ => true
  | _ => false

end Expr

/-! ## What may count -/

/-- Whether a literal stands between quotes: a string or a character. -/
def Literal.isQuoted : Literal → Bool
  | string _ | char _ => true
  | _ => false

/-- Whether a pattern may count by itself: a constructor, or a literal between quotes. -/
def Pattern.counts : Pattern → Bool
  | named _ _ _ _ => true
  | literal value _ => value.isQuoted
  | _ => false

/-- Whether an expression may count by itself, when it has no block: a name, or a literal between quotes. -/
def Expr.counts : Expr → Bool
  | reference _ _ _ => true
  | literal value _ => value.isQuoted
  | _ => false

/-! ## Weights -/

/-- How much a pattern, an expression and a marker count by themselves. -/
structure Weights (M : Type) where
  pattern : Pattern → M
  expr : Expr → M
  marker : Marker → M

/-- Weights under which nothing counts but constructors, other names, literals between quotes and blocks; a literal counts the same
in a pattern and in an expression, a block counts as much as the markers at its ends, and the markers between its items count
nothing. -/
structure Weights.Lawful {M : Type} [AddCommMonoid M] (w : Weights M) : Prop where
  pattern_eq_zero : ∀ p, p.counts = false → w.pattern p = 0
  expr_eq_zero : ∀ e, e.opensBlock = false → e.counts = false → w.expr e = 0
  expr_literal : ∀ value r, w.expr (.literal value r) = w.pattern (.literal value r)
  expr_of_opensBlock : ∀ e, e.opensBlock = true → w.expr e = w.marker .opening + w.marker .closing
  marker_separating : w.marker .separating = 0

namespace Weights

variable {M : Type} [AddCommMonoid M] (w : Weights M)

/-- The weight of a pattern and all patterns inside it. -/
def ofPattern (p : Pattern) : M := (p.subpatterns.map w.pattern).sum

/-- The weight of patterns. -/
def ofPatterns (ps : List Pattern) : M := (ps.map w.ofPattern).sum

/-- The weight of an expression by itself, with the patterns that it binds. -/
def ofNode (e : Expr) : M := w.expr e + w.ofPatterns e.boundPatterns

/-- The weight of an expression and all that is inside it. -/
def ofExpr (e : Expr) : M := (e.subexpressions.map w.ofNode).sum

/-- The weight of expressions. -/
def ofExprs (es : List Expr) : M := (es.map w.ofExpr).sum

/-- The weight of an arm. -/
def ofArm (a : Arm Expr) : M := w.ofPattern a.pattern + w.ofExpr a.body

/-- The weight of the declaration of a function. -/
def ofFunction (f : FunctionDecl Expr) : M := w.ofPatterns f.arguments + w.ofExpr f.body

/-- The weight of a `let` declaration. -/
def ofLetDecl (d : LetDecl Expr) : M := w.ofPatterns d.patterns + w.ofExpr d.body

/-- The weight of an item of a `let` block. -/
def ofLetItem : LetItem → M
  | .signature _ => 0
  | .declaration d => w.ofLetDecl d

/-- The weight of a declaration. -/
def ofDeclaration : Declaration → M
  | .function f => w.ofFunction f
  | _ => 0

/-- The weight of an item of the top level. -/
def ofTopItem : TopItem → M
  | .declaration d => w.ofDeclaration d
  | _ => 0

/-- The weight of a module. -/
def ofModule (m : Module) : M := (m.functions.map w.ofFunction).sum

/-! ## Patterns -/

@[simp] theorem ofPatterns_nil : w.ofPatterns [] = 0 := rfl

@[simp] theorem ofPatterns_cons (p : Pattern) (ps : List Pattern) :
    w.ofPatterns (p :: ps) = w.ofPattern p + w.ofPatterns ps := by
  simp [ofPatterns]

@[simp] theorem ofPatterns_append (ps qs : List Pattern) : w.ofPatterns (ps ++ qs) = w.ofPatterns ps + w.ofPatterns qs := by
  simp [ofPatterns]

/-- The weight of the patterns of some parts, taken part by part. -/
theorem ofPatterns_flatMap {α : Type} (patterns : α → List Pattern) (parts : List α) :
    w.ofPatterns (parts.flatMap patterns) = (parts.map fun a => w.ofPatterns (patterns a)).sum := by
  induction parts with
  | nil => rfl
  | cons a parts ih => simp [ih]

/-- The weight of patterns is the sum over all that is inside them. -/
theorem sum_flatMap_subpatterns (ps : List Pattern) : ((ps.flatMap Pattern.subpatterns).map w.pattern).sum = w.ofPatterns ps := by
  induction ps with
  | nil => rfl
  | cons p ps ih => rw [List.flatMap_cons, List.map_append, List.sum_append, ih, ofPatterns_cons, ofPattern]

/-- The weight of a pattern by itself and of what is inside it. -/
theorem ofPattern_eq (p : Pattern) : w.ofPattern p = w.pattern p + w.ofPatterns p.children := by
  rw [ofPattern, Pattern.subpatterns_eq, List.map_cons, List.sum_cons, sum_flatMap_subpatterns]

/-! ## Expressions -/

@[simp] theorem ofExprs_nil : w.ofExprs [] = 0 := rfl

@[simp] theorem ofExprs_cons (e : Expr) (es : List Expr) : w.ofExprs (e :: es) = w.ofExpr e + w.ofExprs es := by
  simp [ofExprs]

/-- The weight of an expression by itself and of what is inside it. -/
theorem ofExpr_eq (e : Expr) : w.ofExpr e = w.ofNode e + w.ofExprs e.children := by
  have hinside : ∀ es : List Expr, ((es.flatMap Expr.subexpressions).map w.ofNode).sum = w.ofExprs es := by
    intro es
    induction es with
    | nil => rfl
    | cons e es ih => rw [List.flatMap_cons, List.map_append, List.sum_append, ih, ofExprs_cons, ofExpr]
  rw [← hinside, ofExpr, Expr.subexpressions_eq, List.map_cons, List.sum_cons]

/-- The arms bring their patterns and their bodies. -/
theorem ofExpr_caseOf (subject : Expr) (arms : List (Arm Expr)) (r : SourceRange) : w.ofExpr (.caseOf subject arms r) =
    w.expr (.caseOf subject arms r) + (w.ofExpr subject + (arms.map w.ofArm).sum) := by
  have harms : (arms.map w.ofArm).sum = (arms.map (w.ofPattern ·.pattern)).sum + (arms.map (w.ofExpr ·.body)).sum :=
    List.sum_map_add
  rw [ofExpr_eq, Expr.children, ofExprs_cons, harms, ofNode, Expr.boundPatterns, add_assoc]
  simp only [ofPatterns, ofExprs, List.map_map, Function.comp_def]
  exact congrArg _ (add_left_comm _ _ _)

/-- The declarations bring their patterns and their values. -/
theorem ofExpr_letIn (declarations : List (LetDecl Expr)) (body : Expr) (r : SourceRange) :
    w.ofExpr (.letIn declarations body r) =
      w.expr (.letIn declarations body r) + ((declarations.map w.ofLetDecl).sum + w.ofExpr body) := by
  have hall : (declarations.map w.ofLetDecl).sum =
      (declarations.map fun d => w.ofPatterns d.patterns).sum + (declarations.map (w.ofExpr ·.body)).sum :=
    List.sum_map_add
  rw [ofExpr_eq, Expr.children, hall, ofNode, Expr.boundPatterns, ofPatterns_flatMap]
  simp only [ofExprs, List.map_append, List.sum_append, List.map_map, Function.comp_def, List.map_cons, List.sum_cons,
    List.map_nil, List.sum_nil, add_zero, add_assoc]

@[simp] theorem ofPattern_literal (value : Literal) (r : SourceRange) :
    w.ofPattern (.literal value r) = w.pattern (.literal value r) := by
  simp [ofPattern_eq, Pattern.children]

@[simp] theorem ofExpr_literal (value : Literal) (r : SourceRange) : w.ofExpr (.literal value r) = w.expr (.literal value r) := by
  simp [ofExpr_eq, ofNode, Expr.boundPatterns, Expr.children]

/-! ## Nodes that count nothing by themselves -/

section Lawful

variable {w} (hw : w.Lawful)

include hw

/-- A pattern that is neither a constructor nor a literal between quotes weighs what its children weigh. -/
theorem ofPattern_of_children {p : Pattern} (hp : p.counts = false) : w.ofPattern p = w.ofPatterns p.children := by
  rw [ofPattern_eq, hw.pattern_eq_zero p hp, zero_add]

/-- An expression that is neither a name nor a literal between quotes, has no block and binds no pattern weighs what its children
weigh. -/
theorem ofExpr_of_children {e : Expr} (hblock : e.opensBlock = false) (hcounts : e.counts = false)
    (hpatterns : e.boundPatterns = []) : w.ofExpr e = w.ofExprs e.children := by
  rw [ofExpr_eq, ofNode, hw.expr_eq_zero e hblock hcounts, hpatterns, ofPatterns_nil, zero_add, zero_add]

end Lawful

/-! ## Declarations and modules -/

section Signatures

-- What counts is anything that signatures do not add to; it need not commute.
variable {N : Type} [AddMonoid N]

/-- Attaching signatures keeps a sum over the declarations to which signatures contribute nothing. -/
theorem sum_attachSignatures {δ : Type} {signature? : δ → Option Signature} {annotate? : Signature → δ → Option δ}
    {weight : δ → N} (hsignature : ∀ d s, signature? d = some s → weight d = 0)
    (hannotate : ∀ s d d', annotate? s d = some d' → weight d' = weight d) (ds : List δ) :
    ((attachSignatures signature? annotate? ds).map weight).sum = (ds.map weight).sum := by
  fun_induction attachSignatures signature? annotate? ds with
  | case1 => rfl
  | case2 d => rfl
  | case3 d e rest annotated h ih =>
    obtain ⟨s, hs, he⟩ := Option.bind_eq_some_iff.1 h
    simp [ih, hsignature d s hs, hannotate s e annotated he]
  | case4 d e rest h ih => simp [ih]

/-- What an item of a `let` block counts, when signatures count nothing. -/
def letItemBy (weight : LetDecl Expr → N) : LetItem → N
  | .signature _ => 0
  | .declaration d => weight d

theorem sum_attach_letItems {weight : LetDecl Expr → N}
    (hweight : ∀ f s, weight (.function { f with signature := s }) = weight (.function f)) (items : List LetItem) :
    ((LetItem.attach items).map weight).sum = (items.map (letItemBy weight)).sum := by
  have hsame : ∀ items : List LetItem,
      ((items.filterMap LetItem.declaration?).map weight).sum = (items.map (letItemBy weight)).sum := by
    intro items
    induction items with
    | nil => rfl
    | cons item items ih => cases item <;> simp [List.filterMap_cons, LetItem.declaration?, letItemBy, ih]
  rw [LetItem.attach, hsame]
  refine sum_attachSignatures (fun d s h => ?_) (fun s d d' h => ?_) items
  · cases d with
    | signature _ => rfl
    | declaration _ => cases h
  · match d, h with
    | .declaration (.function f), h =>
      simp only [LetItem.annotate?] at h
      split at h
      · cases h
        exact hweight f (some s)
      · cases h

/-- What a declaration counts, when only functions count. -/
def declarationBy (weight : FunctionDecl Expr → N) : Declaration → N
  | .function f => weight f
  | _ => 0

/-- What an item of the top level counts, when only functions count. -/
def topItemBy (weight : FunctionDecl Expr → N) : TopItem → N
  | .declaration d => declarationBy weight d
  | _ => 0

/-- The functions of a module are those of its items, with their signatures. -/
theorem sum_functions_ofItems {weight : FunctionDecl Expr → N} (hweight : ∀ f s, weight { f with signature := s } = weight f)
    (items : List TopItem) (comments : List Comment) (file : String) :
    ((Module.ofItems items comments file).functions.map weight).sum = (items.map (topItemBy weight)).sum := by
  have hfunctions : ∀ ds : List Declaration,
      ((ds.filterMap Declaration.function?).map weight).sum = (ds.map (declarationBy weight)).sum := by
    intro ds
    induction ds with
    | nil => rfl
    | cons d ds ih => cases d <;> simp [List.filterMap_cons, Declaration.function?, declarationBy, ih]
  have hitems : ∀ items : List TopItem,
      ((items.filterMap TopItem.declaration?).map (declarationBy weight)).sum = (items.map (topItemBy weight)).sum := by
    intro items
    induction items with
    | nil => rfl
    | cons item items ih => cases item <;> simp [List.filterMap_cons, TopItem.declaration?, topItemBy, ih]
  rw [Module.functions, Module.ofItems, hfunctions, ← hitems, Declaration.attach]
  refine sum_attachSignatures (fun d s h => ?_) (fun s d d' h => ?_) _
  · cases d with
    | signature _ => rfl
    | _ => cases h
  · cases d with
    | function f =>
      simp only [Declaration.annotate?] at h
      split at h
      · cases h
        exact hweight f (some s)
      · cases h
    | _ => cases h

end Signatures

/-- The weight of the declarations of a `let` is that of its items. -/
theorem sum_ofLetDecl_attach (items : List LetItem) :
    ((LetItem.attach items).map w.ofLetDecl).sum = (items.map w.ofLetItem).sum := by
  rw [sum_attach_letItems fun _ _ => rfl]
  refine congrArg List.sum (List.map_congr_left fun item _ => ?_)
  cases item <;> rfl

/-- The weight of a module is the sum over all its patterns and all its expressions. -/
theorem ofModule_eq (m : Module) : w.ofModule m = (m.patterns.map w.pattern).sum + (m.expressions.map w.expr).sum := by
  have hexpr : ∀ e : Expr, w.ofExpr e =
      (e.subexpressions.map w.expr).sum + (e.subexpressions.map fun e => w.ofPatterns e.boundPatterns).sum :=
    fun _ => List.sum_map_add
  rw [Module.patterns, Module.expressions, ofModule]
  induction m.functions with
  | nil => exact (add_zero _).symm
  | cons f fs ih =>
    rw [List.map_cons, List.sum_cons, ih, List.flatMap_cons, List.flatMap_cons, List.map_append, List.map_append,
      List.sum_append, List.sum_append, sum_flatMap_subpatterns, FunctionDecl.boundPatterns, ofPatterns_append,
      ofPatterns_flatMap, ofFunction, hexpr]
    ac_rfl

/-- The weight of a module is that of its items. -/
theorem ofModule_ofItems (items : List TopItem) (comments : List Comment) (file : String) :
    w.ofModule (.ofItems items comments file) = (items.map w.ofTopItem).sum := by
  rw [ofModule, sum_functions_ofItems fun _ _ => rfl]
  refine congrArg List.sum (List.map_congr_left fun item _ => ?_)
  cases item with
  | declaration d => cases d <;> rfl
  | _ => rfl

end Weights

end ElmLint
