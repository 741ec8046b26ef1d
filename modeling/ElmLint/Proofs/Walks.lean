import ElmLint.Proofs.Nodes
import Mathlib.Data.List.Nodup
import Mathlib.Data.Prod.Basic
import Mathlib.Data.Sum.Basic

/-!
# Walks over a module

Where a part of a module is, is told by a path: the fields that lead to it from the outside in. `Expr.field?` and
`Pattern.field?` say what each field of each kind of node holds, `Expr.bound?` says where an expression holds patterns, and
following fields one after another reaches every part (`follow`). `Module.expressionAt?` and `Module.patternAt?` give the part
of a module that is at a place; they do not look at the lists of children by which modules are walked.

`Visits at? above visited` says that a list comes from going once to every place: no place is left out, none is taken twice,
and no place comes after one that is inside it. It holds of

* the children of one node (`Expr.visits_children`, `Pattern.visits_children`) and the patterns that it binds
  (`Expr.visits_boundPatterns`);
* a tree, as soon as it holds of each of its nodes (`visits_tree`);
* a module: `Module.visits_walks`.
-/

namespace ElmLint

/-! ## Going to every place once -/

/-- The list takes every place that holds something exactly once, and no place after one that is inside it. -/
def Visits {P α : Type} (at? : P → Option α) (above : P → P → Prop) (visited : List α) : Prop :=
  ∃ placed : List (P × α), placed.map (·.2) = visited ∧ (placed.map (·.1)).Nodup ∧
    (∀ p x, (p, x) ∈ placed ↔ at? p = some x) ∧ placed.Pairwise fun a b => ¬above b.1 a.1

/-- No place is inside another one: these are places side by side. -/
def sideBySide {P : Type} (_ _ : P) : Prop := False

/-- A path leads to a place inside the one that the other path leads to. -/
def Above {F : Type} (p q : List F) : Prop := p <+: q ∧ p ≠ q

/-- The part that is reached by following fields. -/
def follow {F α : Type} (field? : α → F → Option α) : List F → α → Option α
  | [], x => some x
  | f :: path, x => (field? x f).bind (follow field? path)

theorem not_above_nil {F : Type} (p : List F) : ¬Above p [] := fun h => h.2 (List.prefix_nil.1 h.1)

theorem above_cons_iff {F : Type} {f g : F} {p q : List F} : Above (f :: p) (g :: q) ↔ f = g ∧ Above p q := by
  simp only [Above, List.cons_prefix_cons, ne_eq, List.cons.injEq]
  constructor
  · rintro ⟨⟨hf, hp⟩, hne⟩
    exact ⟨hf, hp, fun hpq => hne ⟨hf, hpq⟩⟩
  · rintro ⟨hf, hp, hne⟩
    exact ⟨⟨hf, hp⟩, fun hpq => hne hpq.2⟩

namespace Visits

variable {P Q α β : Type} {at? : P → Option α} {above : P → P → Prop} {xs : List α}

/-- Where the order does not matter, the places are taken side by side. -/
theorem unordered (h : Visits at? above xs) : Visits at? sideBySide xs := by
  obtain ⟨placed, hxs, hnodup, hmem, -⟩ := h
  exact ⟨placed, hxs, hnodup, hmem, List.pairwise_of_forall fun _ _ h => h⟩

/-- Places by other names: a name for every place, and every place that holds something has one. -/
theorem rename {at' : Q → Option α} (h : Visits at? sideBySide xs) (name : P → Q) (hname : name.Injective)
    (hat : ∀ p, at' (name p) = at? p) (hall : ∀ q x, at' q = some x → ∃ p, name p = q) : Visits at' sideBySide xs := by
  obtain ⟨placed, hxs, hnodup, hmem, -⟩ := h
  refine ⟨placed.map fun a => (name a.1, a.2), ?_, ?_, ?_, List.pairwise_of_forall fun _ _ h => h⟩
  · rw [List.map_map, ← hxs]
    rfl
  · have hnames : (placed.map fun a => (name a.1, a.2)).map (·.1) = (placed.map (·.1)).map name := by
      simp only [List.map_map, Function.comp_def]
    rw [hnames]
    exact hnodup.map hname
  · intro q x
    constructor
    · intro hq
      obtain ⟨⟨p, y⟩, ha, heq⟩ := List.mem_map.1 hq
      obtain ⟨rfl, rfl⟩ := Prod.mk.inj heq
      rw [hat]
      exact (hmem p y).1 ha
    · intro hq
      obtain ⟨p, rfl⟩ := hall q x hq
      rw [hat] at hq
      exact List.mem_map.2 ⟨(p, x), (hmem p x).2 hq, rfl⟩

/-- First the places of one sort, then those of the other one. -/
theorem append {at' : Q → Option α} {ys : List α} (h : Visits at? sideBySide xs) (h' : Visits at' sideBySide ys) :
    Visits (Sum.elim at? at') sideBySide (xs ++ ys) := by
  obtain ⟨placed, hxs, hnodup, hmem, -⟩ := h
  obtain ⟨placed', hys, hnodup', hmem', -⟩ := h'
  refine ⟨placed.map (fun a => (.inl a.1, a.2)) ++ placed'.map (fun a => (.inr a.1, a.2)), ?_, ?_, ?_,
    List.pairwise_of_forall fun _ _ h => h⟩
  · rw [List.map_append, List.map_map, List.map_map, ← hxs, ← hys]
    rfl
  · have hl := hnodup.map (Sum.inl_injective (α := P) (β := Q))
    have hr := hnodup'.map (Sum.inr_injective (α := P) (β := Q))
    rw [List.map_map] at hl hr
    rw [List.map_append, List.map_map, List.map_map]
    refine hl.append hr ?_
    intro p hp hp'
    obtain ⟨a, -, rfl⟩ := List.mem_map.1 hp
    obtain ⟨b, -, hb⟩ := List.mem_map.1 hp'
    cases hb
  · rintro (p | q) x
    · simp [← hmem]
    · simp [← hmem']

/-- To every place of an outer walk, and from there to every place inside. -/
theorem flatMap {inner? : α → Q → Option β} {aboveInside : Q → Q → Prop} {walk : α → List β} (h : Visits at? sideBySide xs)
    (hinner : ∀ x ∈ xs, Visits (inner? x) aboveInside (walk x)) :
    Visits (fun p : P × Q => (at? p.1).bind (inner? · p.2)) (fun p q => p.1 = q.1 ∧ aboveInside p.2 q.2) (xs.flatMap walk) := by
  obtain ⟨placed, hxs, hnodup, hmem, -⟩ := h
  choose! inside hwalk hnodupInside hmemInside horder using hinner
  have hplaced : ∀ a ∈ placed, a.2 ∈ xs := by
    intro a ha
    rw [← hxs]
    exact List.mem_map_of_mem ha
  have hapart : placed.Pairwise fun a b => a.1 ≠ b.1 := List.pairwise_map.1 hnodup
  refine ⟨placed.flatMap fun a => (inside a.2).map fun b => ((a.1, b.1), b.2), ?_, ?_, ?_, ?_⟩
  · rw [← hxs, List.map_flatMap, List.flatMap_map]
    refine List.flatMap_congr fun a ha => ?_
    rw [← hwalk a.2 (hplaced a ha), List.map_map]
    rfl
  · rw [List.map_flatMap, List.nodup_flatMap]
    constructor
    · intro a ha
      have hpairs := (hnodupInside a.2 (hplaced a ha)).map (Prod.mk_right_injective a.1)
      rw [List.map_map] at hpairs ⊢
      exact hpairs
    · refine hapart.imp ?_
      intro a b hab p hp hp'
      simp only [List.mem_map] at hp hp'
      obtain ⟨_, ⟨c, -, rfl⟩, rfl⟩ := hp
      obtain ⟨_, ⟨d, -, rfl⟩, hd⟩ := hp'
      exact hab (congrArg Prod.fst hd).symm
  · rintro ⟨p, q⟩ y
    simp only [List.mem_flatMap, Option.bind_eq_some_iff]
    constructor
    · rintro ⟨⟨p', x⟩, ha, hb⟩
      obtain ⟨⟨q', y'⟩, hinside, heq⟩ := List.mem_map.1 hb
      cases heq
      exact ⟨x, (hmem p' x).1 ha, (hmemInside x (hplaced _ ha) q' y').1 hinside⟩
    · rintro ⟨x, hp, hq⟩
      have ha := (hmem p x).2 hp
      exact ⟨(p, x), ha, List.mem_map.2 ⟨(q, y), (hmemInside x (hplaced _ ha) q y).2 hq, rfl⟩⟩
  · rw [List.pairwise_flatMap]
    constructor
    · intro a ha
      rw [List.pairwise_map]
      refine (horder a.2 (hplaced a ha)).imp ?_
      rintro b c hbc ⟨-, habove⟩
      exact hbc habove
    · refine hapart.imp ?_
      intro a b hab c hc d hd
      obtain ⟨c, -, rfl⟩ := List.mem_map.1 hc
      obtain ⟨d, -, rfl⟩ := List.mem_map.1 hd
      exact fun h => hab h.1.symm

/-- A node comes first, then come the walks of its children. -/
theorem root {F : Type} {x : α} {field? : α → F → Option α} {children : List α} {walk : α → List α}
    (h : Visits (field? x) sideBySide children) (hinner : ∀ c ∈ children, Visits (follow field? · c) Above (walk c)) :
    Visits (follow field? · x) Above (x :: children.flatMap walk) := by
  obtain ⟨placed, hxs, hnodup, hmem, horder⟩ := h.flatMap hinner
  have hcons : Function.Injective fun p : F × List F => p.1 :: p.2 := fun p q h => Prod.ext (List.cons.inj h).1 (List.cons.inj h).2
  refine ⟨([], x) :: placed.map fun a => (a.1.1 :: a.1.2, a.2), ?_, ?_, ?_, ?_⟩
  · rw [← hxs, List.map_cons, List.map_map]
    rfl
  · have hpaths := hnodup.map hcons
    rw [List.map_map] at hpaths
    rw [List.map_cons, List.map_map, List.nodup_cons]
    refine ⟨?_, hpaths⟩
    simp
  · rintro (_ | ⟨f, path⟩) y
    · simp [follow, eq_comm]
    · have := hmem (f, path) y
      simpa [follow] using this
  · rw [List.pairwise_cons, List.pairwise_map]
    constructor
    · intro a _
      exact not_above_nil _
    · refine horder.imp ?_
      rintro ⟨⟨f, p⟩, _⟩ ⟨⟨g, q⟩, _⟩ hab habove
      exact hab (above_cons_iff.1 habove)

end Visits

/-- A tree is walked node before parts when each node is followed by the walks of its children and its children are what its fields
hold. -/
theorem visits_tree {F α : Type} {field? : α → F → Option α} {children walk : α → List α}
    (hwalk : ∀ x, walk x = x :: (children x).flatMap walk) (hfields : ∀ x, Visits (field? x) sideBySide (children x))
    (hinduction : ∀ motive : α → Prop, (∀ x, (∀ c ∈ children x, motive c) → motive x) → ∀ x, motive x) (x : α) :
    Visits (follow field? · x) Above (walk x) := by
  refine hinduction (fun x => Visits (follow field? · x) Above (walk x)) ?_ x
  intro x ih
  rw [hwalk]
  exact Visits.root (hfields x) ih

/-! ## Lists by their indices -/

section Indices

variable {α β : Type}

/-- What some elements of a list give, at the indices of these elements. -/
theorem visits_filterMap (g : β → Option α) (l : List β) :
    Visits (fun i : Nat => l[i]?.bind g) sideBySide (l.filterMap g) := by
  refine ⟨l.zipIdx.filterMap fun b => (g b.1).map fun x => (b.2, x), ?_, ?_, ?_, List.pairwise_of_forall fun _ _ h => h⟩
  · rw [List.map_filterMap]
    conv_rhs => rw [← List.zipIdx_map_fst 0 l, List.filterMap_map]
    refine congrArg (List.filterMap · _) (funext fun b => ?_)
    rw [Option.map_map, Function.comp_apply]
    exact Option.map_id'
  · have hindices : l.zipIdx.Pairwise fun b c => b.2 ≠ c.2 := by
      refine List.pairwise_map.1 (?_ : (l.zipIdx.map (·.2)).Nodup)
      rw [List.zipIdx_map_snd]
      exact List.nodup_range' 1
    refine List.pairwise_map.2 (List.pairwise_filterMap.2 (hindices.imp ?_))
    intro b c hbc x hx y hy
    obtain ⟨_, -, rfl⟩ := Option.map_eq_some_iff.1 hx
    obtain ⟨_, -, rfl⟩ := Option.map_eq_some_iff.1 hy
    exact hbc
  · intro i x
    simp only [List.mem_filterMap, Option.map_eq_some_iff, Option.bind_eq_some_iff, Prod.mk.injEq]
    constructor
    · rintro ⟨⟨b, j⟩, hb, y, hy, rfl, rfl⟩
      exact ⟨b, List.mem_zipIdx_iff_getElem?.1 hb, hy⟩
    · rintro ⟨b, hb, hx⟩
      exact ⟨(b, i), List.mem_zipIdx_iff_getElem?.2 hb, x, hx, rfl, rfl⟩

theorem visits_map (g : β → α) (l : List β) : Visits (fun i : Nat => l[i]?.map g) sideBySide (l.map g) := by
  have h := visits_filterMap (fun b => some (g b)) l
  rw [List.filterMap_eq_map'] at h
  simpa only [Option.map_eq_bind, Function.comp_def] using h

theorem visits_getElem (l : List α) : Visits (fun i : Nat => l[i]?) sideBySide l := by
  simpa using visits_map id l

end Indices

/-- A single part. -/
theorem visits_singleton {α : Type} (x : α) : Visits (fun _ : Unit => some x) sideBySide [x] :=
  ⟨[((), x)], rfl, by simp, by simp [eq_comm], List.pairwise_singleton _ _⟩

theorem visits_nil {P α : Type} {at? : P → Option α} (h : ∀ p, at? p = none) : Visits at? sideBySide [] :=
  ⟨[], rfl, List.nodup_nil, by simp [h], .nil⟩

/-! ## The fields of patterns and expressions -/

/-- A field that holds a pattern inside a pattern; of several ones in a list it says which one. -/
inductive PatternField where
  | argument (i : Nat)
  | inner
  | head
  | tail
  | element (i : Nat)
deriving DecidableEq

/-- A field that holds an expression inside an expression; of several ones in a list it says which one. -/
inductive ExprField where
  | function
  | argument (i : Nat)
  | left
  | right
  | inner
  | element (i : Nat)
  | setter (i : Nat)
  | condition
  | thenBranch
  | elseBranch
  | subject
  | arm (i : Nat)
  | declaration (i : Nat)
  | body
deriving DecidableEq

/-- A field that holds a pattern inside an expression: the pattern of an arm, an argument of a function without a name, or a
pattern of a declaration of a `let`. -/
inductive BindingField where
  | arm (i : Nat)
  | argument (i : Nat)
  | declaration (i j : Nat)
deriving DecidableEq

/-- A pattern of a declaration of a `let`: an argument of the function, or the one pattern of a destructuring. -/
def LetDecl.pattern? : LetDecl Expr → Nat → Option Pattern
  | function decl, j => decl.arguments[j]?
  | destructuring pattern _ _, 0 => some pattern
  | destructuring _ _ _, _ + 1 => none

/-- The pattern that a field of a pattern holds. -/
def Pattern.field? : Pattern → PatternField → Option Pattern
  | named _ _ arguments _, .argument i => arguments[i]?
  | parenthesized inner _, .inner => some inner
  | cons head _ _, .head => some head
  | cons _ tail _, .tail => some tail
  | list elements _, .element i => elements[i]?
  | tuple elements _, .element i => elements[i]?
  | aliased inner _ _, .inner => some inner
  | _, _ => none

namespace Expr

/-- The expression that a field of an expression holds. -/
def field? : Expr → ExprField → Option Expr
  | application function _ _, .function => some function
  | application _ arguments _, .argument i => arguments[i]?
  | binary _ left _ _, .left => some left
  | binary _ _ right _, .right => some right
  | negation inner _, .inner => some inner
  | parenthesized inner _, .inner => some inner
  | tuple elements _, .element i => elements[i]?
  | list elements _, .element i => elements[i]?
  | record setters _, .setter i => setters[i]?.map (·.value)
  | update _ setters _, .setter i => setters[i]?.map (·.value)
  | access inner _ _, .inner => some inner
  | conditional condition _ _ _, .condition => some condition
  | conditional _ thenBranch _ _, .thenBranch => some thenBranch
  | conditional _ _ elseBranch _, .elseBranch => some elseBranch
  | caseOf subject _ _, .subject => some subject
  | caseOf _ arms _, .arm i => arms[i]?.map (·.body)
  | letIn declarations _ _, .declaration i => declarations[i]?.map (·.body)
  | letIn _ body _, .body => some body
  | lambda _ body _, .body => some body
  | _, _ => none

/-- The pattern that a field of an expression holds. -/
def bound? : Expr → BindingField → Option Pattern
  | caseOf _ arms _, .arm i => arms[i]?.map (·.pattern)
  | lambda arguments _ _, .argument i => arguments[i]?
  | letIn declarations _ _, .declaration i j => declarations[i]?.bind (·.pattern? j)
  | _, _ => none

end Expr

/-! ## One node -/

theorem Pattern.visits_children (p : Pattern) : Visits p.field? sideBySide p.children := by
  cases p with
  | named q n arguments r =>
    refine (visits_getElem arguments).rename .argument (fun _ _ h => PatternField.argument.inj h) (fun _ => rfl) ?_
    intro f x h
    cases f with
    | argument i => exact ⟨i, rfl⟩
    | _ => cases h
  | parenthesized inner r | aliased inner n r =>
    refine (visits_singleton inner).rename (fun _ => .inner) (fun _ _ _ => rfl) (fun _ => rfl) ?_
    intro f x h
    cases f with
    | inner => exact ⟨(), rfl⟩
    | _ => cases h
  | cons head tail r =>
    refine ((visits_singleton head).append (visits_singleton tail)).rename (Sum.elim (fun _ => .head) fun _ => .tail) ?_ ?_ ?_
    · rintro (_ | _) (_ | _) h <;> cases h <;> rfl
    · rintro (_ | _) <;> rfl
    · intro f x h
      cases f with
      | head => exact ⟨.inl (), rfl⟩
      | tail => exact ⟨.inr (), rfl⟩
      | _ => cases h
  | list elements r | tuple elements r =>
    refine (visits_getElem elements).rename .element (fun _ _ h => PatternField.element.inj h) (fun _ => rfl) ?_
    intro f x h
    cases f with
    | element i => exact ⟨i, rfl⟩
    | _ => cases h
  | _ => exact visits_nil fun f => by cases f <;> rfl

theorem Expr.visits_children (e : Expr) : Visits e.field? sideBySide e.children := by
  cases e with
  | application function arguments r =>
    refine ((visits_singleton function).append (visits_getElem arguments)).rename (Sum.elim (fun _ => .function) .argument)
      ?_ ?_ ?_
    · rintro (_ | _) (_ | _) h <;> cases h <;> rfl
    · rintro (_ | _) <;> rfl
    · intro f x h
      cases f with
      | function => exact ⟨.inl (), rfl⟩
      | argument i => exact ⟨.inr i, rfl⟩
      | _ => cases h
  | binary op left right r =>
    refine ((visits_singleton left).append (visits_singleton right)).rename (Sum.elim (fun _ => .left) fun _ => .right) ?_ ?_ ?_
    · rintro (_ | _) (_ | _) h <;> cases h <;> rfl
    · rintro (_ | _) <;> rfl
    · intro f x h
      cases f with
      | left => exact ⟨.inl (), rfl⟩
      | right => exact ⟨.inr (), rfl⟩
      | _ => cases h
  | negation inner r | parenthesized inner r | access inner n r =>
    refine (visits_singleton inner).rename (fun _ => .inner) (fun _ _ _ => rfl) (fun _ => rfl) ?_
    intro f x h
    cases f with
    | inner => exact ⟨(), rfl⟩
    | _ => cases h
  | lambda arguments body r =>
    refine (visits_singleton body).rename (fun _ => .body) (fun _ _ _ => rfl) (fun _ => rfl) ?_
    intro f x h
    cases f with
    | body => exact ⟨(), rfl⟩
    | _ => cases h
  | tuple elements r | list elements r =>
    refine (visits_getElem elements).rename .element (fun _ _ h => ExprField.element.inj h) (fun _ => rfl) ?_
    intro f x h
    cases f with
    | element i => exact ⟨i, rfl⟩
    | _ => cases h
  | record setters r | update n setters r =>
    refine (visits_map Setter.value setters).rename .setter (fun _ _ h => ExprField.setter.inj h) (fun _ => rfl) ?_
    intro f x h
    cases f with
    | setter i => exact ⟨i, rfl⟩
    | _ => cases h
  | conditional condition thenBranch elseBranch r =>
    refine ((visits_singleton condition).append ((visits_singleton thenBranch).append (visits_singleton elseBranch))).rename
      (Sum.elim (fun _ => .condition) (Sum.elim (fun _ => .thenBranch) fun _ => .elseBranch)) ?_ ?_ ?_
    · rintro (_ | _ | _) (_ | _ | _) h <;> cases h <;> rfl
    · rintro (_ | _ | _) <;> rfl
    · intro f x h
      cases f with
      | condition => exact ⟨.inl (), rfl⟩
      | thenBranch => exact ⟨.inr (.inl ()), rfl⟩
      | elseBranch => exact ⟨.inr (.inr ()), rfl⟩
      | _ => cases h
  | caseOf subject arms r =>
    refine ((visits_singleton subject).append (visits_map Arm.body arms)).rename (Sum.elim (fun _ => .subject) .arm) ?_ ?_ ?_
    · rintro (_ | _) (_ | _) h <;> cases h <;> rfl
    · rintro (_ | _) <;> rfl
    · intro f x h
      cases f with
      | subject => exact ⟨.inl (), rfl⟩
      | arm i => exact ⟨.inr i, rfl⟩
      | _ => cases h
  | letIn declarations body r =>
    refine ((visits_map LetDecl.body declarations).append (visits_singleton body)).rename (Sum.elim .declaration fun _ => .body)
      ?_ ?_ ?_
    · rintro (_ | _) (_ | _) h <;> cases h <;> rfl
    · rintro (_ | _) <;> rfl
    · intro f x h
      cases f with
      | declaration i => exact ⟨.inl i, rfl⟩
      | body => exact ⟨.inr (), rfl⟩
      | _ => cases h
  | _ => exact visits_nil fun f => by cases f <;> rfl

theorem LetDecl.visits_patterns (d : LetDecl Expr) : Visits d.pattern? sideBySide d.patterns := by
  cases d with
  | function decl => exact visits_getElem decl.arguments
  | destructuring pattern value range =>
    refine (visits_singleton pattern).rename (fun _ => 0) (fun _ _ _ => rfl) (fun _ => rfl) ?_
    intro j x h
    cases j with
    | zero => exact ⟨(), rfl⟩
    | succ j => cases h

theorem Expr.visits_boundPatterns (e : Expr) : Visits e.bound? sideBySide e.boundPatterns := by
  cases e with
  | caseOf subject arms r =>
    refine (visits_map Arm.pattern arms).rename .arm (fun _ _ h => BindingField.arm.inj h) (fun _ => rfl) ?_
    intro f x h
    cases f with
    | arm i => exact ⟨i, rfl⟩
    | _ => cases h
  | lambda arguments body r =>
    refine (visits_getElem arguments).rename .argument (fun _ _ h => BindingField.argument.inj h) (fun _ => rfl) ?_
    intro f x h
    cases f with
    | argument i => exact ⟨i, rfl⟩
    | _ => cases h
  | letIn declarations body r =>
    have hpatterns := (visits_getElem declarations).flatMap fun d _ => d.visits_patterns
    refine hpatterns.unordered.rename (fun p => .declaration p.1 p.2) ?_ (fun _ => rfl) ?_
    · rintro ⟨i, j⟩ ⟨i', j'⟩ h
      cases h
      rfl
    · intro f x h
      cases f with
      | declaration i j => exact ⟨(i, j), rfl⟩
      | _ => cases h
  | _ => exact visits_nil fun f => by cases f <;> rfl

/-! ## Trees -/

/-- A pattern is walked before the patterns inside it. -/
theorem Pattern.visits_subpatterns (p : Pattern) : Visits (follow field? · p) Above p.subpatterns :=
  visits_tree subpatterns_eq visits_children (fun _ h => treeInduction h) p

/-- An expression is walked before the expressions inside it. -/
theorem Expr.visits_subexpressions (e : Expr) : Visits (follow field? · e) Above e.subexpressions :=
  visits_tree subexpressions_eq visits_children (fun _ h => treeInduction h) e

/-! ## Modules -/

/-- Where a function binds a pattern: as its own argument, or by an expression in its body. -/
inductive Binding where
  | argument (i : Nat)
  | body (path : List ExprField) (field : BindingField)
deriving DecidableEq

/-- The pattern that a function binds at a place. -/
def FunctionDecl.bound? (f : FunctionDecl Expr) : Binding → Option Pattern
  | .argument i => f.arguments[i]?
  | .body path field => (follow Expr.field? path f.body).bind (·.bound? field)

theorem FunctionDecl.visits_boundPatterns (f : FunctionDecl Expr) : Visits f.bound? sideBySide f.boundPatterns := by
  have hbody := f.body.visits_subexpressions.unordered.flatMap fun e _ => e.visits_boundPatterns
  refine ((visits_getElem f.arguments).append hbody.unordered).rename (Sum.elim .argument fun p => .body p.1 p.2) ?_ ?_ ?_
  · rintro (i | ⟨p, g⟩) (j | ⟨q, h⟩) heq <;> cases heq <;> rfl
  · rintro (i | ⟨p, g⟩) <;> rfl
  · rintro (i | ⟨p, g⟩) x -
    · exact ⟨.inl i, rfl⟩
    · exact ⟨.inr (p, g), rfl⟩

namespace Module

/-- The function that a declaration of a module declares. -/
def function? (m : Module) (i : Nat) : Option (FunctionDecl Expr) := m.declarations[i]?.bind Declaration.function?

/-- The expression of a module at a place: in which declaration it is, and the fields that lead to it from the body. -/
def expressionAt? (m : Module) (place : Nat × List ExprField) : Option Expr :=
  (m.function? place.1).bind fun f => follow Expr.field? place.2 f.body

/-- The pattern of a module at a place: in which declaration it is, where it is bound, and the fields that lead to it from there. -/
def patternAt? (m : Module) (place : Nat × Binding × List PatternField) : Option Pattern :=
  ((m.function? place.1).bind (·.bound? place.2.1)).bind (follow Pattern.field? place.2.2)

/-- The walks over a module take every expression and every pattern of its functions exactly once and nothing else, each one before
what is inside it. -/
theorem visits_walks (m : Module) :
    Visits m.expressionAt? (fun p q => p.1 = q.1 ∧ Above p.2 q.2) m.expressions ∧
    Visits m.patternAt? (fun p q => p.1 = q.1 ∧ p.2.1 = q.2.1 ∧ Above p.2.2 q.2.2) m.patterns := by
  have hfunctions : Visits m.function? sideBySide m.functions := visits_filterMap Declaration.function? m.declarations
  constructor
  · exact hfunctions.flatMap fun f _ => f.body.visits_subexpressions
  · have hpatterns := hfunctions.flatMap fun f _ => f.visits_boundPatterns.flatMap fun p _ => p.visits_subpatterns
    have hplaces : m.patternAt? = fun p => (m.function? p.1).bind fun f => (f.bound? p.2.1).bind (follow Pattern.field? p.2.2) :=
      funext fun p => Option.bind_assoc _ _ _
    rw [hplaces]
    exact hpatterns

end Module

end ElmLint
