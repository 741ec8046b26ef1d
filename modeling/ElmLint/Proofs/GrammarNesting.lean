import ElmLint.Proofs.Accounts
import ElmLint.Proofs.Nodes
import ElmLint.Proofs.Parse
import ElmLint.Proofs.Shown
import Mathlib.Algebra.FreeMonoid.Basic

/-!
# The ranges of a parsed module nest

What a phrase of the grammar gives fills the text that it reads with nodes, one after another (`Filled`). This is an account of
the text, with lists of nodes for weights: blanks, words and markers bring no nodes, and a phrase that builds a node around what
it has read brings that node (`Accounts.enclosed`). Chains of operators, accesses and aliases are built from the left, each link
from the start of the first to the stop of the last (`Fill.foldl`).

* `Module.ranges_nest`: in every module that can be read the range of each pattern, each expression and each declaration runs from one
  character of the source to just past another, the ranges of its parts lie in it and follow each other, and the expressions are
  listed in the order of their starts.
-/

namespace ElmLint

/-! ## Lists of nodes as weights -/

theorem toList_sum_map {α β : Type} (f : α → FreeAddMonoid β) (xs : List α) :
    (xs.map f).sum.toList = xs.flatMap fun a => (f a).toList := by
  induction xs with
  | nil => rfl
  | cons a xs ih => rw [List.map_cons, List.sum_cons, FreeAddMonoid.toList_add, ih, List.flatMap_cons]

theorem toList_sum_of {α β : Type} (f : α → β) (xs : List α) :
    (xs.map fun a => FreeAddMonoid.of (f a)).sum.toList = xs.map f := by
  rw [toList_sum_map]
  exact List.map_eq_flatMap.symm

namespace Node.Fill

variable {seen : List Position} {a b : Nat}

/-- Two nodes make one that runs from the start of the first to the stop of the second. -/
theorem splice {first last n : Node} {ns : List Node} (h : Fill seen a b (first :: last :: ns))
    (hrange : n.range = ⟨first.range.start, last.range.stop⟩) (hparts : n.parts = [first] ∨ n.parts = [first, last]) :
    Fill seen a b (n :: ns) := by
  obtain _ | ⟨hle, hfirst, hrest⟩ := h
  obtain _ | ⟨hle', hlast, hns⟩ := hrest
  have hspans := hfirst.spans.splice hlast.spans hle'
  refine .cons hle (.intro (hrange ▸ hspans) ?_) hns
  rcases hparts with hparts | hparts
  · rw [hparts]
    exact .cons (Nat.le_refl _) hfirst (.nil (Nat.le_trans hle' (Nat.le_of_lt hlast.spans.1)))
  · rw [hparts]
    exact .cons (Nat.le_refl _) hfirst (.cons hle' hlast (.nil (Nat.le_refl _)))

/-- A chain that is built from the left makes one node. -/
theorem foldl {α β : Type} {step : β → α → β} {node : β → Node} {link : α → Node}
    (hrange : ∀ x y, (node (step x y)).range = ⟨(node x).range.start, (link y).range.stop⟩)
    (hparts : ∀ x y, (node (step x y)).parts = [node x] ∨ (node (step x y)).parts = [node x, link y]) :
    ∀ (ys : List α) (x : β), Fill seen a b (node x :: ys.map link) → Fill seen a b [node (ys.foldl step x)]
  | [], _, h => h
  | y :: ys, x, h => foldl hrange hparts ys (step x y) (h.splice (hrange x y) (hparts x y))

end Node.Fill

namespace Grammar

variable {l : LaidOut}

/-- How much of what can be seen of a text comes before a place. -/
def seenBefore (l : LaidOut) (c : Cursor) : Nat := l.seen.length - visibleCount c.rest

/-- From one place of a laid-out text to another, what can be seen of it is filled with nodes. -/
def Filled (l : LaidOut) (c : Cursor) (ns : FreeAddMonoid Node) (c' : Cursor) : Prop :=
  c.On l.text → c.Ahead c' ∧ Node.Fill l.seen (seenBefore l c) (seenBefore l c') ns.toList

theorem seenBefore_le {c c' : Cursor} (h : c.Ahead c') : seenBefore l c ≤ seenBefore l c' :=
  Nat.sub_le_sub_left h.visibleCount_le _

theorem filled_zero {c c' : Cursor} (h : c.Ahead c') : Filled l c 0 c' := fun _ => ⟨h, .nil (seenBefore_le h)⟩

theorem additive_filled : Additive (Filled l) where
  refl c := filled_zero (.refl c)
  trans {c ns c' ns' c''} h h' hc := by
    obtain ⟨hahead, hfill⟩ := h hc
    obtain ⟨hahead', hfill'⟩ := h' (hc.ahead hahead)
    refine ⟨hahead.trans hahead', ?_⟩
    rw [FreeAddMonoid.toList_add]
    exact hfill'.append hfill

/-- What is read and shows something has a range that spans what can be seen of it. -/
theorem spans_range {c c' : Cursor} (hc : c.On l.text) (hahead : c.Ahead c') (hshown : visibleCount c'.rest < visibleCount c.rest) :
    Spans l.seen (seenBefore l c) (seenBefore l c') (l.range c.offset c'.offset) := by
  have hlength : visibleCount c.rest ≤ l.seen.length := by
    rw [LaidOut.seen, LaidOut.length_seenFrom, hc]
    exact (List.drop_sublist _ _).countP_le
  refine ⟨?_, Nat.sub_le _ _, LaidOut.range_eq hc hahead hshown⟩
  unfold seenBefore
  omega

/-- The nodes that a rule gives. -/
def nodesOf : (r : Rule) → r.Sem → FreeAddMonoid Node
  | .typeExpr, _ | .typeAtom, _ => 0
  | .pattern, p | .consPattern, p | .patternAtom, p => .of (.pattern p)
  | .expr, e | .operand, e | .postfixAtom, e | .atom, e => .of (.expr e)
  | .setter, s => .of s.node
  | .arm, a => .of (.pattern a.pattern) + .of (.expr a.body)
  | .letItem, i => Weights.letItemBy (fun d => .of d.node) i

/-- What is assumed of the rules that a phrase calls: they show something, and what they give fills what they read. -/
structure Nesting (l : LaidOut) (call : (r : Rule) → Cursor → Outcome r.Sem) : Prop where
  showing : Peg.Showing call
  accounts : ∀ r, Accounts (Filled l) call (rule r) (nodesOf r)

variable {call : (r : Rule) → Cursor → Outcome r.Sem} (hcall : Nesting l call) {α β : Type} {p : Phrase α}
  {f : α → FreeAddMonoid Node}

include hcall

/-- What is not looked at brings no nodes. -/
theorem passed (p : Phrase α) : Accounts (Filled l) call p fun _ => 0 :=
  fun _ _ _ h => filled_zero (Peg.read_ahead hcall.showing.ahead p h)

/-- A phrase that gives what it has read as it is, or builds a node around it. -/
theorem Accounts.built {build : Nat → Nat → α → β} {g : β → FreeAddMonoid Node} (hp : Accounts (Filled l) call p f)
    (hshows : p.shows = true) (hbuilt : ∀ i j v, g (build i j v) = f v ∨
      ∃ n : Node, g (build i j v) = .of n ∧ n.range = l.range i j ∧ n.parts = (f v).toList) :
    Accounts (Filled l) call (.node build p) g := by
  intro c v c' h hc
  obtain ⟨a, ha, rfl⟩ := Peg.read_node_ok.1 h
  obtain ⟨hahead, hfill⟩ := hp c a c' ha hc
  refine ⟨hahead, ?_⟩
  rcases hbuilt c.offset c'.offset a with hsame | ⟨n, hn, hrange, hparts⟩
  · rwa [hsame]
  · have hspans := spans_range hc hahead (Peg.read_shows hcall.showing p hshows ha)
    rw [hn, FreeAddMonoid.toList_of]
    exact Node.Fits.singleton (.intro (hrange ▸ hspans) (hparts ▸ hfill))

/-- A phrase that builds a node around what it has read. -/
theorem Accounts.enclosed {build : Nat → Nat → α → β} {node : β → Node} (hp : Accounts (Filled l) call p f)
    (hshows : p.shows = true)
    (hbuilt : ∀ i j v, (node (build i j v)).range = l.range i j ∧ (node (build i j v)).parts = (f v).toList) :
    Accounts (Filled l) call (.node build p) fun v => .of (node v) :=
  hp.built hcall hshows fun i j v => .inr ⟨_, rfl, hbuilt i j v⟩

omit hcall in
/-- A phrase that builds a chain from the left. -/
theorem Accounts.chained {γ : Type} {q : Phrase (β × List γ)} (step : β → γ → β) (node : β → Node) (link : γ → Node)
    (hq : Accounts (Filled l) call q fun v => .of (node v.1) + (v.2.map fun y => FreeAddMonoid.of (link y)).sum)
    (hrange : ∀ x y, (node (step x y)).range = ⟨(node x).range.start, (link y).range.stop⟩)
    (hparts : ∀ x y, (node (step x y)).parts = [node x] ∨ (node (step x y)).parts = [node x, link y]) :
    Accounts (Filled l) call (.map (fun v => v.2.foldl step v.1) q) fun v => .of (node v) := by
  intro c v c' h hc
  obtain ⟨⟨first, rest⟩, hread, rfl⟩ := Peg.read_node_ok.1 h
  obtain ⟨hahead, hfill⟩ := hq c _ c' hread hc
  refine ⟨hahead, ?_⟩
  rw [FreeAddMonoid.toList_add, FreeAddMonoid.toList_of, toList_sum_of] at hfill
  exact hfill.foldl hrange hparts rest first

/-! ## Lists and blocks -/

theorem Accounts.items (hp : Accounts (Filled l) call p f) :
    Accounts (Filled l) call (Grammar.commaList p) fun v => (v.map f).sum :=
  .separated additive_filled (passed hcall _) hp

theorem Accounts.bracketed {left right : String} (hp : Accounts (Filled l) call p f) :
    Accounts (Filled l) call (Grammar.between left p right) f :=
  (((passed hcall (symbol left *> gap)).after additive_filled hp).before additive_filled (passed hcall gap)).before additive_filled
    (passed hcall (symbol right))

theorem Accounts.blocked (hp : Accounts (Filled l) call p f) :
    Accounts (Filled l) call (Grammar.block p) fun v => (v.map f).sum :=
  (((passed hcall (marker .opening *> gap)).after additive_filled (.separated additive_filled
    (passed hcall (gap *> marker .separating *> gap)) hp)).before additive_filled (passed hcall gap)).before additive_filled
    (passed hcall (marker .closing))

omit hcall in
/-- A list that may be missing. -/
theorem Accounts.perhaps {q : Phrase (List α)} (hq : Accounts (Filled l) call q fun v => (v.map f).sum) :
    Accounts (Filled l) call (.opt q) fun v => ((v.getD []).map f).sum :=
  (hq.opt additive_filled).congr fun v => by cases v <;> simp

/-- What comes after something that brings no nodes. -/
theorem Accounts.following {q : Phrase β} (p : Phrase α) {g : β → FreeAddMonoid Node} (hq : Accounts (Filled l) call q g) :
    Accounts (Filled l) call (p *> q) g :=
  (passed hcall p).after additive_filled hq

/-- A word is a node without parts. -/
theorem nests_word {build : Nat → Nat → α → β} {node : β → Node} (hshows : p.shows = true)
    (hbuilt : ∀ i j v, (node (build i j v)).range = l.range i j ∧ (node (build i j v)).parts = []) :
    Accounts (Filled l) call (.node build p) fun v => .of (node v) :=
  (passed hcall p).enclosed hcall hshows hbuilt

/-! ## Patterns -/

theorem nests_patternGroup : Accounts (Filled l) call (patternGroup l.range) fun p => .of (.pattern p) := by
  refine (((hcall.accounts .pattern).items hcall).bracketed hcall).enclosed hcall rfl fun i j elements => ?_
  split <;> exact ⟨rfl, (toList_sum_of Node.pattern _).symm⟩

theorem nests_listPattern : Accounts (Filled l) call (listPattern l.range) fun p => .of (.pattern p) :=
  (((hcall.accounts .pattern).items hcall).perhaps.bracketed hcall).enclosed hcall rfl fun _ _ _ =>
    ⟨rfl, (toList_sum_of Node.pattern _).symm⟩

theorem nests_patternAtom : Accounts (Filled l) call (patternAtom l.range) fun p => .of (.pattern p) := by
  refine .orElse (nests_word hcall rfl fun _ _ _ => ⟨rfl, rfl⟩) (.orElse (nests_word hcall rfl fun _ _ _ => ⟨rfl, rfl⟩) ?_)
  refine .orElse (nests_patternGroup hcall) (.orElse (nests_listPattern hcall) ?_)
  refine .orElse (nests_word hcall rfl fun _ _ _ => ⟨rfl, rfl⟩) (.orElse (nests_word hcall rfl fun _ _ _ => ⟨rfl, rfl⟩) ?_)
  exact nests_word hcall rfl fun _ _ _ => ⟨rfl, rfl⟩

theorem nests_appliedPattern : Accounts (Filled l) call (appliedPattern l.range) fun p => .of (.pattern p) := by
  refine .orElse ?_ (hcall.accounts .patternAtom)
  refine ((passed hcall qualifiedUpper).seq additive_filled
    (((hcall.accounts .patternAtom).following hcall gap).atLeastOne additive_filled)).enclosed hcall rfl fun i j v => ⟨rfl, ?_⟩
  exact (toList_sum_of Node.pattern v.2).symm

theorem nests_consPattern : Accounts (Filled l) call (consPattern l.range) fun p => .of (.pattern p) := by
  refine ((nests_appliedPattern hcall).seq additive_filled
    (((hcall.accounts .consPattern).following hcall (spaced "::")).opt additive_filled)).built hcall rfl fun i j v => ?_
  obtain ⟨head, tail⟩ := v
  cases tail with
  | none => exact .inl (add_zero _).symm
  | some tail => exact .inr ⟨_, rfl, rfl, rfl⟩

/-- An alias stretches what it names up to its own end. -/
theorem nests_pattern : Accounts (Filled l) call (pattern l.range) fun p => .of (.pattern p) := by
  have halias : Accounts (Filled l) call (aliasName l.range) fun v => .of (.word v.2) :=
    nests_word hcall rfl fun _ _ _ => ⟨rfl, rfl⟩
  exact .chained (fun p (a : String × SourceRange) => .aliased p a.1 ⟨p.range.start, a.2.stop⟩) .pattern (.word ·.2)
    ((hcall.accounts .consPattern).seq additive_filled (halias.many additive_filled)) (fun _ _ => rfl) fun _ _ => .inl rfl

/-! ## Expressions -/

theorem nests_exprGroup : Accounts (Filled l) call (exprGroup l.range) fun e => .of (.expr e) := by
  refine (((hcall.accounts .expr).items hcall).bracketed hcall).enclosed hcall rfl fun i j elements => ?_
  split <;> exact ⟨rfl, (toList_sum_of Node.expr _).symm⟩

theorem nests_listExpr : Accounts (Filled l) call (listExpr l.range) fun e => .of (.expr e) :=
  (((hcall.accounts .expr).items hcall).perhaps.bracketed hcall).enclosed hcall rfl fun _ _ _ =>
    ⟨rfl, (toList_sum_of Node.expr _).symm⟩

theorem nests_setter : Accounts (Filled l) call (setter l.range) fun s => .of s.node :=
  ((passed hcall lowerName).seq additive_filled ((hcall.accounts .expr).following hcall (spaced "="))).enclosed hcall rfl
    fun _ _ _ => ⟨rfl, rfl⟩

theorem nests_recordUpdate : Accounts (Filled l) call (recordUpdate l.range) fun e => .of (.expr e) :=
  (((passed hcall lowerName).seq additive_filled (((hcall.accounts .setter).items hcall).following hcall
    (spaced "|"))).bracketed hcall).enclosed hcall rfl fun _ _ v => ⟨rfl, (toList_sum_of Setter.node v.2).symm⟩

theorem nests_recordExpr : Accounts (Filled l) call (recordExpr l.range) fun e => .of (.expr e) :=
  (((hcall.accounts .setter).items hcall).perhaps.bracketed hcall).enclosed hcall rfl fun _ _ _ =>
    ⟨rfl, (toList_sum_of Setter.node _).symm⟩

theorem nests_atom : Accounts (Filled l) call (atom l.range) fun e => .of (.expr e) := by
  refine .orElse (nests_word hcall rfl fun _ _ _ => ⟨rfl, rfl⟩) (.orElse (nests_word hcall rfl fun _ _ _ => ⟨rfl, rfl⟩) ?_)
  refine .orElse (nests_exprGroup hcall) (.orElse (nests_listExpr hcall) ?_)
  refine .orElse (nests_recordUpdate hcall) (.orElse (nests_recordExpr hcall) ?_)
  exact .orElse (nests_word hcall rfl fun _ _ _ => ⟨rfl, rfl⟩) (nests_word hcall rfl fun _ _ _ => ⟨rfl, rfl⟩)

/-- An access stretches what it is made on up to its own end. -/
theorem nests_postfixAtom : Accounts (Filled l) call (postfixAtom l.range) fun e => .of (.expr e) := by
  have haccess : Accounts (Filled l) call (.node (fun i j field => (field, l.range i j)) fieldAccess) fun v => .of (.word v.2) :=
    nests_word hcall rfl fun _ _ _ => ⟨rfl, rfl⟩
  exact .chained (fun e (a : String × SourceRange) => .access e a.1 ⟨e.range.start, a.2.stop⟩) .expr (.word ·.2)
    ((hcall.accounts .atom).seq additive_filled (haccess.many additive_filled)) (fun _ _ => rfl) fun _ _ => .inl rfl

theorem nests_application : Accounts (Filled l) call (application l.range) fun e => .of (.expr e) := by
  refine ((hcall.accounts .postfixAtom).seq additive_filled (((hcall.accounts .postfixAtom).following hcall gap).many
    additive_filled)).built hcall rfl fun i j v => ?_
  obtain ⟨function, arguments⟩ := v
  cases arguments with
  | nil => exact .inl (add_zero _).symm
  | cons a arguments => exact .inr ⟨_, rfl, rfl, (toList_sum_of Node.expr (function :: a :: arguments)).symm⟩

theorem nests_conditional : Accounts (Filled l) call (conditional l.range) fun e => .of (.expr e) :=
  (((hcall.accounts .expr).following hcall (word "if" *> gap)).seq additive_filled
    (((hcall.accounts .expr).following hcall (gap *> word "then" *> gap)).seq additive_filled
      ((hcall.accounts .expr).following hcall (gap *> word "else" *> gap)))).enclosed hcall rfl fun _ _ _ => ⟨rfl, rfl⟩

theorem nests_arm : Accounts (Filled l) call arm (nodesOf .arm) :=
  ((hcall.accounts .pattern).seq additive_filled ((hcall.accounts .expr).following hcall (spaced "->"))).map fun _ => rfl

theorem nests_caseOf : Accounts (Filled l) call (caseOf l.range) fun e => .of (.expr e) := by
  refine (((hcall.accounts .expr).following hcall (word "case" *> gap)).seq additive_filled
    (((hcall.accounts .arm).blocked hcall).following hcall (gap *> word "of" *> gap))).enclosed hcall rfl fun i j v => ⟨rfl, ?_⟩
  exact congrArg (Node.expr v.1 :: ·) (toList_sum_map (nodesOf .arm) v.2).symm

theorem nests_functionDecl : Accounts (Filled l) call (functionDecl l.range) fun f => .of f.node := by
  refine ((passed hcall lowerName).seq additive_filled ((((hcall.accounts .patternAtom).following hcall gap).many
    additive_filled).seq additive_filled ((hcall.accounts .expr).following hcall (spaced "=")))).enclosed hcall rfl
    fun i j v => ⟨rfl, ?_⟩
  exact congrArg (· ++ [Node.expr v.2.2]) (toList_sum_of Node.pattern v.2.1).symm

/-- Signatures bring no nodes. -/
theorem nests_letItem : Accounts (Filled l) call (letItem l.range) (nodesOf .letItem) := by
  refine .orElse (.map (passed hcall (signature l.range)) fun _ => rfl) ?_
  refine .orElse (.map (nests_functionDecl hcall) fun _ => rfl) ?_
  have hdestructuring : Accounts (Filled l) call (destructuring l.range) fun d => .of d.node :=
    ((hcall.accounts .pattern).seq additive_filled ((hcall.accounts .expr).following hcall (spaced "="))).enclosed hcall rfl
      fun _ _ _ => ⟨rfl, rfl⟩
  have hdeclared : Accounts (Filled l) call (.map .declaration (destructuring l.range)) (nodesOf .letItem) :=
    hdestructuring.map fun _ => rfl
  exact hdeclared.following hcall _

theorem nests_letIn : Accounts (Filled l) call (letIn l.range) fun e => .of (.expr e) := by
  refine ((((hcall.accounts .letItem).blocked hcall).following hcall (word "let" *> gap)).seq additive_filled
    ((hcall.accounts .expr).following hcall (gap *> word "in" *> gap))).enclosed hcall rfl fun i j v => ⟨rfl, ?_⟩
  have hitems : ((LetItem.attach v.1).map fun d => FreeAddMonoid.of d.node).sum = (v.1.map (nodesOf .letItem)).sum :=
    Weights.sum_attach_letItems (fun _ _ => rfl) v.1
  have hnodes := congrArg FreeAddMonoid.toList hitems
  rw [toList_sum_of] at hnodes
  exact congrArg (· ++ [Node.expr v.2]) hnodes

theorem nests_lambda : Accounts (Filled l) call (lambda l.range) fun e => .of (.expr e) := by
  refine (((Accounts.separated additive_filled (passed hcall gap) (hcall.accounts .patternAtom)).following hcall
    (symbol "\\" *> gap)).seq additive_filled ((hcall.accounts .expr).following hcall (spaced "->"))).enclosed hcall rfl
    fun i j v => ⟨rfl, ?_⟩
  exact congrArg (· ++ [Node.expr v.2]) (toList_sum_of Node.pattern v.1).symm

theorem nests_operand : Accounts (Filled l) call (operand l.range) fun e => .of (.expr e) := by
  refine .orElse (nests_lambda hcall) (.orElse (nests_conditional hcall) (.orElse (nests_caseOf hcall) ?_))
  refine .orElse (nests_letIn hcall) (.orElse ?_ (nests_application hcall))
  exact ((hcall.accounts .postfixAtom).following hcall (symbol "-")).enclosed hcall rfl fun _ _ _ => ⟨rfl, rfl⟩

/-- A chain of operators stretches from its first operand to its last one. -/
theorem nests_expr : Accounts (Filled l) call expr fun e => .of (.expr e) := by
  have hlink : Accounts (Filled l) call (.seq (gap *> operator) (gap *> rule .operand)) fun v => .of (.expr v.2) :=
    ((passed hcall _).seq additive_filled ((hcall.accounts .operand).following hcall gap)).congr fun _ => (zero_add _).symm
  exact .chained (fun left (v : String × Expr) => .binary v.1 left v.2 ⟨left.range.start, v.2.range.stop⟩) .expr (.expr ·.2)
    ((hcall.accounts .operand).seq additive_filled (hlink.many additive_filled)) (fun _ _ => rfl) fun _ _ => .inr rfl

/-! ## Rules and modules -/

/-- What each rule gives fills what it reads, as soon as what the rules it calls give does. -/
theorem nests_rules (r : Rule) : Accounts (Filled l) call (rules l.range r) (nodesOf r) := by
  cases r with
  | typeExpr => exact passed hcall (typeExpr l.range)
  | typeAtom => exact passed hcall (typeAtom l.range)
  | pattern => exact nests_pattern hcall
  | consPattern => exact nests_consPattern hcall
  | patternAtom => exact nests_patternAtom hcall
  | expr => exact nests_expr hcall
  | operand => exact nests_operand hcall
  | postfixAtom => exact nests_postfixAtom hcall
  | atom => exact nests_atom hcall
  | setter => exact nests_setter hcall
  | arm => exact nests_arm hcall
  | letItem => exact nests_letItem hcall

theorem nests_topItem : Accounts (Filled l) call (topItem l.range) (Weights.topItemBy fun f => .of f.node) := by
  refine .orElse (.map (passed hcall (header l.range)) fun _ => rfl) ?_
  refine .orElse (.map (passed hcall (importDecl l.range)) fun _ => rfl) ?_
  refine .orElse (.map (passed hcall (port l.range)) fun _ => rfl) ?_
  refine .orElse (.map (passed hcall (typeAlias l.range)) fun _ => rfl) ?_
  refine .orElse (.map (passed hcall (customType l.range)) fun _ => rfl) ?_
  refine .orElse (.map (passed hcall (signature l.range)) fun _ => rfl) ?_
  exact .map (nests_functionDecl hcall) fun _ => rfl

theorem nests_topLevel : Accounts (Filled l) call (topLevel l.range) fun items =>
    (items.map (Weights.topItemBy fun f => .of f.node)).sum :=
  (((Accounts.separated additive_filled (passed hcall _) (nests_topItem hcall)).perhaps.following hcall gap).before
    additive_filled (passed hcall gap)).map fun _ => rfl

omit hcall in
/-- Every run of the grammar fills what it reads. -/
theorem nesting_run (fuel : Nat) : Nesting l (Peg.run (rules l.range) fuel) := by
  induction fuel with
  | zero => exact ⟨Peg.run_showing (rules_show l.range) 0, fun _ _ _ _ h => by cases h⟩
  | succ fuel ih => exact ⟨Peg.run_showing (rules_show l.range) (fuel + 1), nests_rules ih⟩

end Grammar

namespace Module

/-- The functions of a module that is read from a laid-out text fill it, one after another. -/
theorem fill_functions {l : LaidOut} {items : List TopItem} (h : l.readPhrase Grammar.topLevel = .ok items)
    (comments : List Comment) (file : String) :
    ∃ b ≤ l.seen.length, Node.Fill l.seen 0 b ((ofItems items comments file).functions.map FunctionDecl.node) := by
  obtain ⟨next, hread, -⟩ := LaidOut.readPhrase_ok_iff.1 h
  obtain ⟨-, hfill⟩ := Grammar.nests_topLevel (Grammar.nesting_run _) _ _ _ hread (Cursor.on_start l.text)
  have hitems : ((ofItems items comments file).functions.map fun f => FreeAddMonoid.of f.node).sum =
      (items.map (Weights.topItemBy fun f => .of f.node)).sum :=
    Weights.sum_functions_ofItems (fun _ _ => rfl) items comments file
  have hnodes := congrArg FreeAddMonoid.toList hitems
  rw [toList_sum_of] at hnodes
  rw [hnodes]
  exact ⟨_, Nat.sub_le _ _, hfill.mono_left (Nat.zero_le _)⟩

/-- **Ranges nest and are ordered.** In a module that is read from a source, the range of every pattern, of every expression and of
every declaration of a function, at the top level or in a `let`, starts at a character of the source and stops just past one; it
is not empty, the ranges of its parts lie in it, and each part ends where the next one starts or before. The same holds of the
fields of records and the destructurings among the parts of expressions. So the expressions of a module are listed in the order of
their starts. -/
theorem ranges_nest {source file : String} {m : Module} (h : parse source file = .ok m) :
    (∀ p ∈ m.patterns, (Node.pattern p).Nested source.toList) ∧
    (∀ e ∈ m.expressions, (Node.expr e).Nested source.toList ∧ ∀ n ∈ e.parts, n.Nested source.toList) ∧
    (∀ f ∈ m.functions, f.node.Nested source.toList) ∧
    (m.expressions.map (·.range.start)).Pairwise (· ≤ ·) := by
  obtain ⟨l, items, hlaid, hread, rfl, -⟩ := parse_ok_iff.1 h
  obtain ⟨b, hb, hfill⟩ := fill_functions hread l.comments file
  have hseen : LaidOut.Ascends source.toList l.seen := by
    obtain ⟨s, hs, rfl⟩ := LaidOut.ofSource_ok_iff.1 hlaid
    exact LaidOut.ascends_seen hs
  have hnested : ∀ f ∈ (ofItems items l.comments file).functions, ∀ n, Node.Within f.node n → n.Nested source.toList := by
    intro f hf n hn
    obtain ⟨_, _, -, -, hfits⟩ := hfill.of_mem (List.mem_map_of_mem hf)
    obtain ⟨_, _, -, -, hinside⟩ := hfits.within hn
    exact hinside.nested hseen
  refine ⟨fun p hp => ?_, fun e he => ?_, fun f hf => hnested f hf _ (.refl _), ?_⟩
  · obtain ⟨f, hf, hp⟩ := List.mem_flatMap.1 hp
    obtain ⟨q, hq, hp⟩ := List.mem_flatMap.1 hp
    exact hnested f hf _ ((FunctionDecl.within_of_mem_boundPatterns hq).trans (q.within_of_mem_subpatterns p hp))
  · obtain ⟨f, hf, he⟩ := List.mem_flatMap.1 he
    have hwithin := FunctionDecl.within_of_mem_subexpressions he
    exact ⟨hnested f hf _ hwithin, fun n hn => hnested f hf n (hwithin.trans (Node.within_of_mem hn))⟩
  · have hbodies : Node.Fill l.seen 0 b (((ofItems items l.comments file).functions.map (·.body)).map .expr) := by
      have hvalues := hfill.flatMap Node.Fits.values
      rw [List.flatMap_map] at hvalues
      rwa [List.map_map, List.map_eq_flatMap]
    have hstarts := (Expr.starts_in_order hbodies).pairwise hseen hb
    rw [Expr.starts, List.flatMap_map] at hstarts
    exact hstarts

set_option maxRecDepth 100000 in
/-- A function with a `case`, a `let` with a function of its own, an alias, a field that is read and one that is set. -/
theorem ranges_nest_of_arms :
    ∃ m, parse "f x = case x of\n    (Just y) as z -> let g a = a.b + 1 in \x7b h = g y \x7d\n    _ -> -x\n" "A.elm" = .ok m ∧
      m.patterns.length = 7 ∧ m.expressions.length = 13 ∧ (∀ p ∈ m.patterns, p.range.start < p.range.stop) ∧
      (m.expressions.map (·.range.start)).Pairwise (· ≤ ·) := by
  obtain ⟨m, hm, htest⟩ := exists_parse_of_chars
    "f x = case x of\n    (Just y) as z -> let g a = a.b + 1 in \x7b h = g y \x7d\n    _ -> -x\n" rfl "A.elm"
    (fun m => m.patterns.length == 7 && m.expressions.length == 13) (by decide +kernel)
  rw [Bool.and_eq_true, beq_iff_eq, beq_iff_eq] at htest
  obtain ⟨hpatterns, -, -, hstarts⟩ := ranges_nest hm
  exact ⟨m, hm, htest.1, htest.2, fun p hp => (hpatterns p hp).start_lt_stop, hstarts⟩

end Module

end ElmLint
