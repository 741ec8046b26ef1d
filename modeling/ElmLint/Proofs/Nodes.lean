import ElmLint.Proofs.SeenOrder
import ElmLint.Proofs.Weights
import Mathlib.Data.List.GetD

/-!
# Nodes and their places

A `Node` is what has a place of its own in the source: a pattern, an expression, or a binding, which is the declaration of a function, a
destructuring or a field that is set. `Node.parts` lists what is directly inside a node in the order of the source.

Places are told by what can be seen of a text. `Spans seen a b r` says that the range `r` runs from the `a`-th thing that can be
seen up to the `b`-th one; `Node.Fits` says that a node has such a range and that its parts fill it one after another
(`Node.Fill`), and so on inside them. From this alone follow

* `Node.Fits.nested`: the range of a node runs from one character of the source to just past another one, the ranges of its parts
  lie in it, and each part ends before the next one starts;
* `Node.Fits.within`: the same holds of all nodes inside it;
* `Expr.starts_in_order`: all expressions inside it come in the order of their starts.
-/

namespace ElmLint

/-! ## Nodes -/

/-- What has a place of its own in the source. -/
inductive Node where
  | pattern (p : Pattern)
  | expr (e : Expr)
  /-- Patterns and a value: the declaration of a function, a destructuring, or a field that is set. -/
  | binding (patterns : List Pattern) (body : Expr) (range : SourceRange)
  /-- Text that is read for its place, such as an alias. -/
  | word (range : SourceRange)

/-- A field that is set, as a node. -/
def Setter.node (s : Setter Expr) : Node := .binding [] s.value s.range

/-- The declaration of a function as a node, without its signature. -/
def FunctionDecl.node (f : FunctionDecl Expr) : Node := .binding f.arguments f.body f.range

/-- A declaration of a `let` as a node. -/
def LetDecl.node : LetDecl Expr → Node
  | function f => f.node
  | destructuring pattern value range => .binding [pattern] value range

/-- What an arm brings. -/
def Arm.nodes (a : Arm Expr) : List Node := [.pattern a.pattern, .expr a.body]

/-- What is directly inside an expression, in the order of the source. -/
def Expr.parts : Expr → List Node
  | record setters _ | update _ setters _ => setters.map Setter.node
  | caseOf subject arms _ => .expr subject :: arms.flatMap Arm.nodes
  | letIn declarations body _ => declarations.map LetDecl.node ++ [.expr body]
  | lambda arguments body _ => arguments.map .pattern ++ [.expr body]
  | e => e.children.map .expr

namespace Node

/-- The place of a node. -/
def range : Node → SourceRange
  | pattern p => p.range
  | expr e => e.range
  | binding _ _ r | word r => r

/-- What is directly inside a node, in the order of the source. -/
def parts : Node → List Node
  | pattern p => p.children.map pattern
  | expr e => e.parts
  | binding patterns body _ => patterns.map pattern ++ [expr body]
  | word _ => []

/-- A node is inside another one, or is that one. -/
inductive Within : Node → Node → Prop
  | refl (n : Node) : Within n n
  | part {n m k : Node} (hm : m ∈ n.parts) (hk : Within m k) : Within n k

theorem Within.trans {n m k : Node} (h : Within n m) (h' : Within m k) : Within n k := by
  induction h with
  | refl _ => exact h'
  | part hm _ ih => exact .part hm (ih h')

theorem within_of_mem {n m : Node} (h : m ∈ n.parts) : Within n m := .part h (.refl m)

end Node

/-! ## Patterns and expressions as nodes -/

namespace Pattern

/-- What holds of a pattern as soon as it holds of its children holds of all patterns. -/
theorem treeInduction {motive : Pattern → Prop} (h : ∀ p, (∀ c ∈ p.children, motive c) → motive p) (p : Pattern) : motive p := by
  induction hn : p.subpatterns.length using Nat.strongRecOn generalizing p with
  | ind n ih =>
    refine h p fun c hc => ih _ ?_ c rfl
    obtain ⟨before, after, hsplit⟩ := List.append_of_mem hc
    rw [← hn, subpatterns_eq p, hsplit, List.flatMap_append, List.flatMap_cons]
    simp only [List.length_cons, List.length_append]
    omega

theorem within_of_mem_subpatterns (p : Pattern) : ∀ q ∈ p.subpatterns, Node.Within (.pattern p) (.pattern q) := by
  induction p using treeInduction with
  | h p ih =>
    intro q hq
    rw [subpatterns_eq] at hq
    rcases List.mem_cons.1 hq with rfl | hq
    · exact .refl _
    · obtain ⟨c, hc, hq⟩ := List.mem_flatMap.1 hq
      exact .part (List.mem_map_of_mem hc) (ih c hc q hq)

end Pattern

namespace Expr

/-- What holds of an expression as soon as it holds of its children holds of all expressions. -/
theorem treeInduction {motive : Expr → Prop} (h : ∀ e, (∀ c ∈ e.children, motive c) → motive e) (e : Expr) : motive e := by
  induction hn : e.subexpressions.length using Nat.strongRecOn generalizing e with
  | ind n ih =>
    refine h e fun c hc => ih _ ?_ c rfl
    obtain ⟨before, after, hsplit⟩ := List.append_of_mem hc
    rw [← hn, subexpressions_eq e, hsplit, List.flatMap_append, List.flatMap_cons]
    simp only [List.length_cons, List.length_append]
    omega

theorem within_of_mem_children {e c : Expr} (h : c ∈ e.children) : Node.Within (.expr e) (.expr c) := by
  cases e with
  | record setters r | update n setters r =>
    obtain ⟨s, hs, rfl⟩ := List.mem_map.1 h
    exact .part (List.mem_map_of_mem hs) (Node.within_of_mem List.mem_cons_self)
  | caseOf subject arms r =>
    rcases List.mem_cons.1 h with rfl | h
    · exact Node.within_of_mem List.mem_cons_self
    · obtain ⟨a, ha, rfl⟩ := List.mem_map.1 h
      exact Node.within_of_mem (List.mem_cons_of_mem _ (List.mem_flatMap.2 ⟨a, ha, List.mem_cons_of_mem _ List.mem_cons_self⟩))
  | letIn declarations body r =>
    rcases List.mem_append.1 h with h | h
    · obtain ⟨d, hd, rfl⟩ := List.mem_map.1 h
      refine .part (List.mem_append_left _ (List.mem_map_of_mem hd)) (Node.within_of_mem ?_)
      cases d <;> exact List.mem_append_right _ List.mem_cons_self
    · rw [List.mem_singleton.1 h]
      exact Node.within_of_mem (List.mem_append_right _ List.mem_cons_self)
  | lambda arguments body r =>
    rw [List.mem_singleton.1 h]
    exact Node.within_of_mem (List.mem_append_right _ List.mem_cons_self)
  | _ => exact Node.within_of_mem (List.mem_map_of_mem h)

theorem within_of_mem_boundPatterns {e : Expr} {p : Pattern} (h : p ∈ e.boundPatterns) : Node.Within (.expr e) (.pattern p) := by
  cases e with
  | caseOf subject arms r =>
    obtain ⟨a, ha, rfl⟩ := List.mem_map.1 h
    exact Node.within_of_mem (List.mem_cons_of_mem _ (List.mem_flatMap.2 ⟨a, ha, List.mem_cons_self⟩))
  | letIn declarations body r =>
    obtain ⟨d, hd, hp⟩ := List.mem_flatMap.1 h
    refine .part (List.mem_append_left _ (List.mem_map_of_mem hd)) (Node.within_of_mem ?_)
    cases d <;> exact List.mem_append_left _ (List.mem_map_of_mem hp)
  | lambda arguments body r => exact Node.within_of_mem (List.mem_append_left _ (List.mem_map_of_mem h))
  | _ => cases h

theorem within_of_mem_subexpressions (e : Expr) : ∀ e' ∈ e.subexpressions, Node.Within (.expr e) (.expr e') := by
  induction e using treeInduction with
  | h e ih =>
    intro e' he'
    rw [subexpressions_eq] at he'
    rcases List.mem_cons.1 he' with rfl | he'
    · exact .refl _
    · obtain ⟨c, hc, he'⟩ := List.mem_flatMap.1 he'
      exact (within_of_mem_children hc).trans (ih c hc e' he')

end Expr

namespace FunctionDecl

variable {f : FunctionDecl Expr}

theorem within_of_mem_subexpressions {e : Expr} (h : e ∈ f.body.subexpressions) : Node.Within f.node (.expr e) :=
  .part (List.mem_append_right _ List.mem_cons_self) (f.body.within_of_mem_subexpressions e h)

theorem within_of_mem_boundPatterns {p : Pattern} (h : p ∈ f.boundPatterns) : Node.Within f.node (.pattern p) := by
  rcases List.mem_append.1 h with h | h
  · exact Node.within_of_mem (List.mem_append_left _ (List.mem_map_of_mem h))
  · obtain ⟨e, he, hp⟩ := List.mem_flatMap.1 h
    exact (within_of_mem_subexpressions he).trans (Expr.within_of_mem_boundPatterns hp)

end FunctionDecl

/-! ## Places -/

/-- The range that runs from one thing that can be seen up to another one, which is not included. -/
def Spans (seen : List Position) (a b : Nat) (r : SourceRange) : Prop :=
  a < b ∧ b ≤ seen.length ∧ r = ⟨seen.getD a default, (seen.getD (b - 1) default).next⟩

/-- From the start of one range to the stop of a later one. -/
theorem Spans.splice {seen : List Position} {a b a' b' : Nat} {r r' : SourceRange} (h : Spans seen a b r) (h' : Spans seen a' b' r')
    (hle : b ≤ a') : Spans seen a b' ⟨r.start, r'.stop⟩ := by
  obtain ⟨hlt, -, rfl⟩ := h
  obtain ⟨hlt', hend, rfl⟩ := h'
  exact ⟨by omega, hend, rfl⟩

namespace Node

variable {seen : List Position}

mutual

/-- A node has the range from `a` to `b`, and its parts fill that range, and so on inside them. -/
inductive Fits (seen : List Position) : Nat → Nat → Node → Prop
  | intro {a b : Nat} {n : Node} (range : Spans seen a b n.range) (parts : Fill seen a b n.parts) : Fits seen a b n

/-- Nodes that fit one after another between `a` and `b`. -/
inductive Fill (seen : List Position) : Nat → Nat → List Node → Prop
  | nil {a b : Nat} (h : a ≤ b) : Fill seen a b []
  | cons {a a' b' b : Nat} {n : Node} {ns : List Node} (h : a ≤ a') (hn : Fits seen a' b' n) (hns : Fill seen b' b ns) :
      Fill seen a b (n :: ns)

end

theorem Fits.spans {a b : Nat} {n : Node} : Fits seen a b n → Spans seen a b n.range
  | .intro range _ => range

theorem Fits.fill {a b : Nat} {n : Node} : Fits seen a b n → Fill seen a b n.parts
  | .intro _ parts => parts

theorem Fits.singleton {a b : Nat} {n : Node} (h : Fits seen a b n) : Fill seen a b [n] :=
  .cons (Nat.le_refl a) h (.nil (Nat.le_refl b))

namespace Fill

theorem le {a b : Nat} : ∀ {ns : List Node}, Fill seen a b ns → a ≤ b
  | [], .nil h => h
  | _ :: _, .cons h hn hns => by
    have := hn.spans.1
    have := hns.le
    omega

theorem mono_left {a a' b : Nat} (h : a ≤ a') : ∀ {ns : List Node}, Fill seen a' b ns → Fill seen a b ns
  | [], .nil h' => .nil (Nat.le_trans h h')
  | _ :: _, .cons h' hn hns => .cons (Nat.le_trans h h') hn hns

theorem append {b c : Nat} {ms : List Node} (h' : Fill seen b c ms) : ∀ {a : Nat} {ns : List Node}, Fill seen a b ns →
    Fill seen a c (ns ++ ms)
  | _, [], .nil h => h'.mono_left h
  | _, _ :: _, .cons h hn hns => .cons h hn (h'.append hns)

theorem append_right {b : Nat} {ms : List Node} : ∀ {a : Nat} (ns : List Node), Fill seen a b (ns ++ ms) → Fill seen a b ms
  | _, [], h => h
  | _, _ :: ns, .cons h hn hns => (append_right ns hns).mono_left (Nat.le_trans h (Nat.le_of_lt hn.spans.1))

/-- Each of the nodes has its place between the ends. -/
theorem of_mem {b : Nat} {n : Node} : ∀ {a : Nat} {ns : List Node}, Fill seen a b ns → n ∈ ns →
    ∃ a' b', a ≤ a' ∧ b' ≤ b ∧ Fits seen a' b' n
  | _, _ :: _, .cons h hm hns, hmem => by
    rcases List.mem_cons.1 hmem with rfl | hmem
    · exact ⟨_, _, h, hns.le, hm⟩
    · obtain ⟨a', b', ha', hb', hn⟩ := of_mem hns hmem
      exact ⟨a', b', Nat.le_trans h (Nat.le_trans (Nat.le_of_lt hm.spans.1) ha'), hb', hn⟩

/-- Nodes may be replaced by what fits in their places. -/
theorem flatMap {b : Nat} {f : Node → List Node} (hf : ∀ {a b : Nat} {n : Node}, Fits seen a b n → Fill seen a b (f n)) :
    ∀ {a : Nat} {ns : List Node}, Fill seen a b ns → Fill seen a b (ns.flatMap f)
  | _, [], h => h
  | _, _ :: _, .cons h hn hns => (flatMap hf hns).append ((hf hn).mono_left h)

end Fill

/-- Whatever is inside a node has its place there. -/
theorem Fits.within {a b : Nat} {n m : Node} (h : Fits seen a b n) (hm : Within n m) :
    ∃ a' b', a ≤ a' ∧ b' ≤ b ∧ Fits seen a' b' m := by
  induction hm generalizing a b with
  | refl _ => exact ⟨a, b, Nat.le_refl a, Nat.le_refl b, h⟩
  | part hmem _ ih =>
    obtain ⟨a', b', ha', hb', hpart⟩ := h.fill.of_mem hmem
    obtain ⟨a'', b'', ha'', hb'', hm⟩ := ih hpart
    exact ⟨a'', b'', Nat.le_trans ha' ha'', Nat.le_trans hb'' hb', hm⟩

end Node

/-! ## Ranges in the source -/

namespace LaidOut.Ascends

variable {source : List Char} {seen : List Position} (hseen : Ascends source seen)

include hseen

/-- What is seen first comes first, and ends where what is seen next starts, or before. -/
theorem next_le {a b : Nat} (hab : a < b) (hb : b < seen.length) : (seen.getD a default).next ≤ seen.getD b default := by
  rw [List.getD_eq_getElem _ _ (Nat.lt_trans hab hb), List.getD_eq_getElem _ _ hb]
  exact List.pairwise_iff_getElem.1 hseen.pairwise a b _ hb hab

theorem start_le {a b : Nat} (hab : a ≤ b) (hb : b < seen.length) : seen.getD a default ≤ seen.getD b default := by
  rcases Nat.lt_or_eq_of_le hab with hlt | rfl
  · exact le_trans (le_of_lt (Position.lt_next _)) (hseen.next_le hlt hb)
  · exact le_refl _

theorem stop_le {a b : Nat} (hab : a ≤ b) (hb : b < seen.length) :
    (seen.getD a default).next ≤ (seen.getD b default).next := by
  rcases Nat.lt_or_eq_of_le hab with hlt | rfl
  · exact le_trans (hseen.next_le hlt hb) (le_of_lt (Position.lt_next _))
  · exact le_refl _

theorem exists_offset {a : Nat} (ha : a < seen.length) :
    ∃ k < source.length, seen.getD a default = Position.ofOffset (lineStarts source) k := by
  rw [List.getD_eq_getElem _ _ ha]
  exact hseen.mem _ (List.getElem_mem ha)

end LaidOut.Ascends

namespace Node

/-- The range of a node runs from a character of the source to just past one that is no earlier; the ranges of its parts lie in
it, and each part ends before the next ones start. -/
structure Nested (source : List Char) (n : Node) : Prop where
  start : ∃ k < source.length, n.range.start = Position.ofOffset (lineStarts source) k
  stop : ∃ k < source.length, n.range.stop = (Position.ofOffset (lineStarts source) k).next
  start_lt_stop : n.range.start < n.range.stop
  parts_within : ∀ m ∈ n.parts, n.range.start ≤ m.range.start ∧ m.range.stop ≤ n.range.stop
  parts_in_order : n.parts.Pairwise fun m m' => m.range.stop ≤ m'.range.start

variable {source : List Char} {seen : List Position} (hseen : LaidOut.Ascends source seen)

include hseen

/-- Nodes that fit one after another come in order. -/
theorem Fill.pairwise {b : Nat} : ∀ {a : Nat} {ns : List Node}, Fill seen a b ns →
    ns.Pairwise fun m m' => m.range.stop ≤ m'.range.start
  | _, [], _ => List.Pairwise.nil
  | _, _ :: _, .cons _ hn hns => by
    refine List.pairwise_cons.2 ⟨fun m hm => ?_, hns.pairwise⟩
    obtain ⟨a', b', ha', -, hfits⟩ := hns.of_mem hm
    obtain ⟨hlt, -, hrange⟩ := hn.spans
    obtain ⟨hlt', hend, hrange'⟩ := hfits.spans
    rw [hrange, hrange']
    exact hseen.next_le (by omega) (by omega)

/-- A node that fits is nested. -/
theorem Fits.nested {a b : Nat} {n : Node} (h : Fits seen a b n) : n.Nested source := by
  obtain ⟨hlt, hend, hrange⟩ := h.spans
  refine ⟨?_, ?_, ?_, fun m hm => ?_, Fill.pairwise hseen h.fill⟩
  · rw [hrange]
    exact hseen.exists_offset (by omega)
  · obtain ⟨k, hk, heq⟩ := hseen.exists_offset (a := b - 1) (by omega)
    exact ⟨k, hk, by rw [hrange, ← heq]⟩
  · rw [hrange]
    exact lt_of_le_of_lt (hseen.start_le (b := b - 1) (by omega) (by omega)) (Position.lt_next _)
  · obtain ⟨a', b', ha', hb', hfits⟩ := h.fill.of_mem hm
    obtain ⟨hlt', -, hrange'⟩ := hfits.spans
    rw [hrange, hrange']
    exact ⟨hseen.start_le ha' (by omega), hseen.stop_le (by omega) (by omega)⟩

end Node

/-! ## The order of expressions -/

/-- The expressions that a node is or binds. -/
def Node.values : Node → List Node
  | .expr e => [.expr e]
  | .binding _ body _ => [.expr body]
  | .pattern _ | .word _ => []

theorem Expr.flatMap_values_parts (e : Expr) : e.parts.flatMap Node.values = e.children.map .expr := by
  have hexprs : ∀ es : List Expr, (es.map Node.expr).flatMap Node.values = es.map .expr := by
    intro es
    induction es with
    | nil => rfl
    | cons e es ih => exact congrArg (Node.expr e :: ·) ih
  have hpatterns : ∀ ps : List Pattern, (ps.map Node.pattern).flatMap Node.values = [] := by
    intro ps
    induction ps with
    | nil => rfl
    | cons p ps ih => exact ih
  cases e with
  | record setters r | update n setters r =>
    induction setters with
    | nil => rfl
    | cons s setters ih => exact congrArg (Node.expr s.value :: ·) ih
  | caseOf subject arms r =>
    refine congrArg (Node.expr subject :: ·) ?_
    induction arms with
    | nil => rfl
    | cons a arms ih => exact congrArg (Node.expr a.body :: ·) ih
  | letIn declarations body r =>
    rw [parts, children, List.flatMap_append, List.map_append]
    refine congrArg (· ++ [Node.expr body]) ?_
    induction declarations with
    | nil => rfl
    | cons d declarations ih => cases d <;> exact congrArg (Node.expr _ :: ·) ih
  | lambda arguments body r =>
    rw [parts, List.flatMap_append, hpatterns]
    rfl
  | _ => exact hexprs _

namespace Node

variable {seen : List Position}

theorem Fits.values {a b : Nat} {n : Node} (h : Fits seen a b n) : Fill seen a b n.values := by
  cases n with
  | expr e => exact h.singleton
  | binding patterns body r => exact h.fill.append_right _
  | pattern p | word r => exact .nil (Nat.le_of_lt h.spans.1)

/-- The expressions directly inside an expression fill its place too. -/
theorem Fits.children {a b : Nat} {e : Expr} (h : Fits seen a b (.expr e)) : Fill seen a b (e.children.map .expr) := by
  rw [← e.flatMap_values_parts]
  exact h.fill.flatMap Fits.values

end Node

/-- Positions of what is seen between `a` and `b`, in order. -/
def InOrder (seen : List Position) (a b : Nat) (ps : List Position) : Prop :=
  ∃ ks : List Nat, ps = ks.map (seen.getD · default) ∧ ks.Pairwise (· ≤ ·) ∧ ∀ k ∈ ks, a ≤ k ∧ k < b

namespace InOrder

variable {seen : List Position}

theorem nil (a b : Nat) : InOrder seen a b [] := ⟨[], rfl, List.Pairwise.nil, nofun⟩

theorem cons {a b : Nat} {ps : List Position} (hab : a < b) (h : InOrder seen a b ps) :
    InOrder seen a b (seen.getD a default :: ps) := by
  obtain ⟨ks, rfl, hks, hbounds⟩ := h
  refine ⟨a :: ks, rfl, List.pairwise_cons.2 ⟨fun k hk => (hbounds k hk).1, hks⟩, ?_⟩
  exact List.forall_mem_cons.2 ⟨⟨Nat.le_refl a, hab⟩, hbounds⟩

theorem mono_left {a a' b : Nat} {ps : List Position} (h : InOrder seen a' b ps) (hle : a ≤ a') : InOrder seen a b ps := by
  obtain ⟨ks, rfl, hks, hbounds⟩ := h
  exact ⟨ks, rfl, hks, fun k hk => ⟨Nat.le_trans hle (hbounds k hk).1, (hbounds k hk).2⟩⟩

theorem append {a b c : Nat} {ps qs : List Position} (h : InOrder seen a b ps) (h' : InOrder seen b c qs) (hab : a ≤ b)
    (hbc : b ≤ c) : InOrder seen a c (ps ++ qs) := by
  obtain ⟨ks, rfl, hks, hbounds⟩ := h
  obtain ⟨ks', rfl, hks', hbounds'⟩ := h'
  refine ⟨ks ++ ks', by rw [List.map_append], List.pairwise_append.2 ⟨hks, hks', fun k hk k' hk' => ?_⟩, fun k hk => ?_⟩
  · exact Nat.le_trans (Nat.le_of_lt (hbounds k hk).2) (hbounds' k' hk').1
  · rcases List.mem_append.1 hk with hk | hk
    · exact ⟨(hbounds k hk).1, Nat.lt_of_lt_of_le (hbounds k hk).2 hbc⟩
    · exact ⟨Nat.le_trans hab (hbounds' k hk).1, (hbounds' k hk).2⟩

theorem pairwise {source : List Char} (hseen : LaidOut.Ascends source seen) {a b : Nat} {ps : List Position}
    (h : InOrder seen a b ps) (hb : b ≤ seen.length) : ps.Pairwise (· ≤ ·) := by
  obtain ⟨ks, rfl, hks, hbounds⟩ := h
  refine List.pairwise_map.2 (hks.imp_of_mem fun {k k'} _ hk' hle => ?_)
  exact hseen.start_le hle (Nat.lt_of_lt_of_le (hbounds k' hk').2 hb)

end InOrder

namespace Expr

variable {seen : List Position}

/-- Where all expressions inside some expressions start. -/
def starts (es : List Expr) : List Position := (es.flatMap subexpressions).map (·.range.start)

theorem starts_cons (e : Expr) (es : List Expr) :
    starts (e :: es) = e.range.start :: starts e.children ++ starts es := by
  rw [starts, List.flatMap_cons, List.map_append, subexpressions_eq, List.map_cons]
  rfl

/-- Expressions one after another are in order, as soon as those inside each of them are. -/
theorem starts_of_fill {b : Nat} : ∀ {es : List Expr} {a : Nat},
    (∀ e ∈ es, ∀ a b, Node.Fits seen a b (.expr e) → InOrder seen a b (starts e.children)) →
    Node.Fill seen a b (es.map .expr) → InOrder seen a b (starts es)
  | [], a, _, _ => .nil a b
  | e :: es, a, h, .cons hle hfits hfill => by
    obtain ⟨hlt, -, hrange⟩ := hfits.spans
    have hinside := (h e List.mem_cons_self _ _ hfits).cons hlt
    have hrest := starts_of_fill (fun e' he' => h e' (List.mem_cons_of_mem e he')) hfill
    have hstart : e.range.start = seen.getD _ default := congrArg SourceRange.start hrange
    rw [starts_cons, hstart]
    exact (hinside.append hrest (Nat.le_of_lt hlt) hfill.le).mono_left hle

/-- The expressions inside an expression come in the order of their starts. -/
theorem starts_children (e : Expr) : ∀ a b, Node.Fits seen a b (.expr e) → InOrder seen a b (starts e.children) := by
  induction e using treeInduction with
  | h e ih => exact fun a b h => starts_of_fill ih h.children

theorem starts_in_order {es : List Expr} {a b : Nat} (h : Node.Fill seen a b (es.map .expr)) : InOrder seen a b (starts es) :=
  starts_of_fill (fun e _ => starts_children e) h

end Expr

end ElmLint
