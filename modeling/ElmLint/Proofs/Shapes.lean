import ElmLint.Proofs.Rendering
import ElmLint.Proofs.Weights

/-!
# Well-shaped syntax trees

The types of syntax trees leave room for trees that no source has: applications without arguments, tuples of one element,
operators that group to the right, variables named by keywords. `WellShaped` excludes them, for each kind of node by what it says
of that node alone; a module is well shaped when all its expressions, patterns, declarations and imports are.

A node is well shaped throughout when it and all that is inside it are; this holds of a node when it is well shaped and its parts
are well shaped throughout (`Pattern.shapedThroughout_iff`, `Expr.shapedThroughout_iff`), and of the items of a block or a module
it holds with and without their signatures (`LetItem.shapedThroughout_attach`, `Module.wellShaped_ofItems`).
-/

namespace ElmLint

/-! ## Patterns -/

namespace Pattern

/-- The shape of a pattern, its parts apart. Arguments, and what stands before `::`, need no parentheses; a tuple has two elements
or more, and no variable, field or alias is a keyword. -/
def WellShaped : Pattern → Prop
  | wildcard _ | literal _ _ | parenthesized _ _ | list _ _ => True
  | var name _ => name ∉ keywords
  | named _ name arguments _ => name ∉ keywords ∧ ∀ p ∈ arguments, p.isAtomic = true
  | cons head tail _ => head.isCons = false ∧ head.isAliased = false ∧ tail.isAliased = false
  | tuple elements _ => 2 ≤ elements.length
  | aliased _ name _ => name ∉ keywords
  | record fields _ => ∀ field ∈ fields, field ∉ keywords

/-- A pattern is well shaped, with all patterns inside it. -/
def ShapedThroughout (p : Pattern) : Prop := ∀ q ∈ p.subpatterns, q.WellShaped

theorem shapedThroughout_iff {p : Pattern} :
    p.ShapedThroughout ↔ p.WellShaped ∧ ∀ q ∈ p.children, q.ShapedThroughout := by
  unfold ShapedThroughout
  rw [subpatterns_eq, List.forall_mem_cons]
  simp only [List.mem_flatMap, forall_exists_index, and_imp]
  exact and_congr_right fun _ => ⟨fun h q hq r hr => h r q hq hr, fun h r q hq hr => h q hq r hr⟩

end Pattern

/-! ## Types -/

/-- A type annotation, well shaped throughout: tuples have two elements or more, and no type, variable or field is a keyword. -/
inductive TypeExpr.WellShaped : TypeExpr → Prop
  | var {name : String} (range : SourceRange) : name ∉ keywords → WellShaped (.var name range)
  | reference {qualifier : ModuleName} {name : String} {arguments : List TypeExpr} (range : SourceRange) : name ∉ keywords →
      (∀ t ∈ arguments, WellShaped t) → WellShaped (.reference qualifier name arguments range)
  | unit (range : SourceRange) : WellShaped (.unit range)
  | tuple {elements : List TypeExpr} (range : SourceRange) : 2 ≤ elements.length → (∀ t ∈ elements, WellShaped t) →
      WellShaped (.tuple elements range)
  | record {fields : List (FieldType TypeExpr)} {base : Option String} (range : SourceRange) : (∀ f ∈ fields, f.name ∉ keywords) →
      (∀ f ∈ fields, WellShaped f.type) → (∀ name ∈ base, name ∉ keywords) → WellShaped (.record fields base range)
  | function {argument result : TypeExpr} (range : SourceRange) : WellShaped argument → WellShaped result →
      WellShaped (.function argument result range)

/-- An annotation of a name that is no keyword, with a well-shaped type. -/
structure Signature.WellShaped (s : Signature) : Prop where
  name : s.name ∉ keywords
  type : s.type.WellShaped

/-! ## Expressions -/

/-- The name of a function is no keyword, and its annotation is well shaped. -/
structure FunctionDecl.WellShaped (f : FunctionDecl Expr) : Prop where
  name : f.name ∉ keywords
  signature : ∀ s ∈ f.signature, s.WellShaped

/-- A declaration in a `let` is that of a well-shaped function, or a destructuring; it is never a signature alone. -/
def LetDecl.WellShaped : LetDecl Expr → Prop
  | function decl => decl.WellShaped
  | destructuring _ _ _ => True

namespace Expr

/-- An expression that can be a function or an argument as it stands. -/
def isSimple : Expr → Bool
  | application _ _ _ | binary _ _ _ _ | negation _ _ | lambda _ _ _ | conditional _ _ _ _ | caseOf _ _ _ | letIn _ _ _ => false
  | _ => true

/-- The shape of an expression, its parts apart. Operators group to the left, and none stands after an operand that takes it in; no
field of a constructor is read; applications, functions, `case` and record updates are not empty, and a tuple has two elements or
more. No setter and no name without a qualifier is a keyword. -/
def WellShaped : Expr → Prop
  | literal _ _ | operator _ _ | negation _ _ | parenthesized _ _ | list _ _ | accessor _ _ | conditional _ _ _ _ => True
  | reference qualifier name _ => qualifier = [] → name ∉ keywords
  | application function arguments _ => arguments ≠ [] ∧ ∀ e ∈ function :: arguments, e.isSimple = true
  | binary _ left right _ => right.isBinary = false ∧ left.endsOpen = false
  | tuple elements _ => 2 ≤ elements.length
  | record setters _ => ∀ s ∈ setters, s.name ∉ keywords
  | update name setters _ => name ∉ keywords ∧ setters ≠ [] ∧ ∀ s ∈ setters, s.name ∉ keywords
  | access inner _ _ => inner.reference? = none
  | caseOf _ arms _ => arms ≠ []
  | letIn declarations _ _ => ∀ d ∈ declarations, d.WellShaped
  | lambda arguments _ _ => arguments ≠ []

/-- An expression is well shaped, with all expressions inside it and all patterns that they bind. -/
def ShapedThroughout (e : Expr) : Prop :=
  ∀ x ∈ e.subexpressions, x.WellShaped ∧ ∀ p ∈ x.boundPatterns, p.ShapedThroughout

theorem shapedThroughout_iff {e : Expr} : e.ShapedThroughout ↔
    (e.WellShaped ∧ ∀ p ∈ e.boundPatterns, p.ShapedThroughout) ∧ ∀ x ∈ e.children, x.ShapedThroughout := by
  unfold ShapedThroughout
  rw [subexpressions_eq, List.forall_mem_cons]
  simp only [List.mem_flatMap, forall_exists_index, and_imp]
  exact and_congr_right fun _ => ⟨fun h x hx y hy => h y x hx hy, fun h y x hx hy => h x hx y hy⟩

/-- An expression that binds no pattern is well shaped throughout when it is well shaped and its parts are so throughout. -/
theorem ShapedThroughout.intro {e : Expr} (hbinds : e.boundPatterns = []) (hshape : e.WellShaped)
    (hparts : ∀ x ∈ e.children, x.ShapedThroughout) : e.ShapedThroughout :=
  shapedThroughout_iff.2 ⟨⟨hshape, by simp [hbinds]⟩, hparts⟩

/-- An expression that can be an argument takes in no operator. -/
theorem isOpen_of_isSimple {e : Expr} (h : e.isSimple = true) : e.isOpen = false := by
  cases e with
  | lambda | conditional | letIn => cases h
  | _ => rfl

theorem isBinary_of_isSimple {e : Expr} (h : e.isSimple = true) : e.isBinary = false := by
  cases e with
  | binary => cases h
  | _ => rfl

theorem endsOpen_of_not_isBinary {e : Expr} (h : e.isBinary = false) : e.endsOpen = e.isOpen := by
  cases e with
  | binary => cases h
  | _ => rfl

end Expr

/-! ## Declarations -/

/-- The shape of a top-level declaration, the body of a function apart. A custom type has a constructor, and no declaration, type
variable or constructor is named by a keyword. -/
def Declaration.WellShaped : Declaration → Prop
  | function decl => decl.WellShaped
  | customType decl => decl.name ∉ keywords ∧ (∀ parameter ∈ decl.parameters, parameter ∉ keywords) ∧ decl.constructors ≠ [] ∧
      ∀ k ∈ decl.constructors, k.name ∉ keywords ∧ ∀ t ∈ k.arguments, t.WellShaped
  | typeAlias decl => decl.name ∉ keywords ∧ (∀ parameter ∈ decl.parameters, parameter ∉ keywords) ∧ decl.type.WellShaped
  | port decl => decl.name ∉ keywords ∧ decl.type.WellShaped
  | signature decl => decl.WellShaped

/-- A well-shaped function whose arguments and body are well shaped throughout. -/
structure FunctionDecl.ShapedThroughout (f : FunctionDecl Expr) : Prop where
  shape : f.WellShaped
  arguments : ∀ p ∈ f.arguments, p.ShapedThroughout
  body : f.body.ShapedThroughout

/-- A function stays well shaped when it gets a well-shaped annotation. -/
theorem FunctionDecl.ShapedThroughout.annotate {f : FunctionDecl Expr} {s : Signature} (h : f.ShapedThroughout)
    (hs : s.WellShaped) : FunctionDecl.ShapedThroughout { f with signature := some s } where
  shape := ⟨h.shape.name, fun _ hs' => Option.mem_some_iff.1 hs' ▸ hs⟩
  arguments := h.arguments
  body := h.body

/-- What holds of declarations, and stays when one gets its signature, holds when the signatures are attached. -/
theorem forall_mem_attachSignatures {δ : Type} {signature? : δ → Option Signature} {annotate? : Signature → δ → Option δ}
    {P : δ → Prop} (hannotate : ∀ d s e e', signature? d = some s → annotate? s e = some e' → P d → P e → P e') {ds : List δ}
    (h : ∀ d ∈ ds, P d) : ∀ d ∈ attachSignatures signature? annotate? ds, P d := by
  fun_induction attachSignatures signature? annotate? ds with
  | case1 => exact h
  | case2 d => exact h
  | case3 d e rest annotated hfound ih =>
    obtain ⟨s, hs, he⟩ := Option.bind_eq_some_iff.1 hfound
    simp only [List.forall_mem_cons] at h ⊢
    exact ⟨hannotate d s e annotated hs he h.1 h.2.1, ih h.2.2⟩
  | case4 d e rest _ ih =>
    rw [List.forall_mem_cons] at h
    exact List.forall_mem_cons.2 ⟨h.1, ih h.2⟩

namespace LetDecl

/-- A well-shaped declaration whose patterns and value are well shaped throughout. -/
structure ShapedThroughout (d : LetDecl Expr) : Prop where
  shape : d.WellShaped
  patterns : ∀ p ∈ d.patterns, p.ShapedThroughout
  body : d.body.ShapedThroughout

theorem shapedThroughout_function {f : FunctionDecl Expr} : (function f).ShapedThroughout ↔ f.ShapedThroughout :=
  ⟨fun h => ⟨h.shape, h.patterns, h.body⟩, fun h => ⟨h.shape, h.arguments, h.body⟩⟩

end LetDecl

/-- An item of a `let` block with all that is inside it. -/
def LetItem.ShapedThroughout : LetItem → Prop
  | signature s => s.WellShaped
  | declaration d => d.ShapedThroughout

/-- The declarations of a `let` block are well shaped throughout, when its items are. -/
theorem LetItem.shapedThroughout_attach {items : List LetItem} (h : ∀ i ∈ items, i.ShapedThroughout) :
    ∀ d ∈ LetItem.attach items, d.ShapedThroughout := by
  intro d hd
  obtain ⟨i, hi, hd⟩ := List.mem_filterMap.1 hd
  have hattached := forall_mem_attachSignatures (P := LetItem.ShapedThroughout) (fun d s e e' hs he hd he' => ?_) h i hi
  · cases i with
    | signature s => cases hd
    | declaration d' =>
      cases hd
      exact hattached
  · match d, e, hs, he with
    | .signature s', .declaration (.function f), hs, he =>
      cases hs
      simp only [LetItem.annotate?] at he
      split at he
      · cases he
        exact LetDecl.shapedThroughout_function.2 ((LetDecl.shapedThroughout_function.1 he').annotate hd)
      · cases he

/-! ## Modules -/

/-- **Well-shaped modules.** All expressions, patterns, declarations and imports of the module are well shaped. -/
structure Module.WellShaped (m : Module) : Prop where
  expressions : ∀ e ∈ m.expressions, e.WellShaped
  patterns : ∀ p ∈ m.patterns, p.WellShaped
  declarations : ∀ d ∈ m.declarations, d.WellShaped
  imports : ∀ i ∈ m.imports, ∀ name ∈ i.aliasName, name ∉ keywords

/-- A well-shaped declaration; that of a function is well shaped throughout. -/
structure Declaration.ShapedThroughout (d : Declaration) : Prop where
  shape : d.WellShaped
  function : ∀ f ∈ d.function?, f.ShapedThroughout

/-- An item of the top level with all that is inside it. -/
def TopItem.ShapedThroughout : TopItem → Prop
  | header _ => True
  | imported item => ∀ name ∈ item.aliasName, name ∉ keywords
  | declaration d => d.ShapedThroughout

/-- The declarations of a module are well shaped throughout, when they are so without their signatures. -/
theorem Declaration.shapedThroughout_attach {ds : List Declaration} (h : ∀ d ∈ ds, d.ShapedThroughout) :
    ∀ d ∈ Declaration.attach ds, d.ShapedThroughout := by
  refine forall_mem_attachSignatures (fun d s e e' hs he hd he' => ?_) h
  match d, e, hs, he with
  | .signature s', .function f, hs, he =>
    cases hs
    simp only [Declaration.annotate?] at he
    split at he
    · cases he
      have hannotated := (he'.function f rfl).annotate hd.shape
      exact ⟨hannotated.shape, fun f' hf' => Option.mem_some_iff.1 hf' ▸ hannotated⟩
    · cases he

/-- The module of well-shaped items is well shaped. -/
theorem Module.wellShaped_ofItems {items : List TopItem} (h : ∀ i ∈ items, i.ShapedThroughout) (comments : List Comment)
    (file : String) : (Module.ofItems items comments file).WellShaped := by
  have hdeclarations : ∀ d ∈ (ofItems items comments file).declarations, d.ShapedThroughout := by
    refine Declaration.shapedThroughout_attach fun d hd => ?_
    obtain ⟨i, hi, hd⟩ := List.mem_filterMap.1 hd
    cases i with
    | declaration d' =>
      cases hd
      exact h _ hi
    | _ => cases hd
  have hfunctions : ∀ f ∈ (ofItems items comments file).functions, f.ShapedThroughout := by
    intro f hf
    obtain ⟨d, hd, hf⟩ := List.mem_filterMap.1 hf
    exact (hdeclarations d hd).function f hf
  constructor
  case expressions =>
    intro e he
    obtain ⟨f, hf, he⟩ := List.mem_flatMap.1 he
    exact ((hfunctions f hf).body e he).1
  case patterns =>
    intro p hp
    obtain ⟨f, hf, hp⟩ := List.mem_flatMap.1 hp
    obtain ⟨q, hq, hp⟩ := List.mem_flatMap.1 hp
    rcases List.mem_append.1 hq with hq | hq
    · exact (hfunctions f hf).arguments q hq p hp
    · obtain ⟨e, he, hq⟩ := List.mem_flatMap.1 hq
      exact ((hfunctions f hf).body e he).2 q hq p hp
  case declarations => exact fun d hd => (hdeclarations d hd).shape
  case imports =>
    intro i hi
    obtain ⟨item, hitem, hi⟩ := List.mem_filterMap.1 hi
    cases item with
    | imported i' =>
      cases hi
      exact h _ hitem
    | _ => cases hi

end ElmLint
