import ElmLint.Suppression
import Mathlib.Tactic.Tauto

/-!
# Suppressions remember all that was done, and nothing else

An operation either adds to the suppressions or asks them something. What an operation covers is told by the operation alone
(`Operation.Covers`). One operation adds what it covers to what is covered (`covers_perform`), so after a sequence of operations a
diagnostic is suppressed when one of them covers it (`covers_performAll`); and every question is answered by the operations
before it (`answers_performAll`).
-/

namespace ElmLint

/-! ## Directives -/

namespace Directive

/-- A comment is a directive against an id: it lists the id or the one that stands for all, or it lists none. -/
def Targets (comment : List Char) (id : String) : Prop :=
  ∃ ids, ids? comment = some ids ∧ (id ∈ ids ∨ wildcard ∈ ids ∨ ids = [])

theorem targets_iff (comment : List Char) (id : String) :
    Targets comment id ↔ ∃ listed ∈ (suppressed? comment).getD [], listed = id ∨ listed = wildcard := by
  unfold Targets suppressed?
  cases ids? comment with
  | none => simp
  | some ids =>
    cases ids with
    | nil => simp
    | cons first rest =>
      simp only [Option.some.injEq, exists_eq_left', Option.map_some, Option.getD_some, List.isEmpty_cons,
        Bool.false_eq_true, if_false, reduceCtorEq, or_false]
      constructor
      · rintro (h | h)
        · exact ⟨id, h, .inl rfl⟩
        · exact ⟨wildcard, h, .inr rfl⟩
      · rintro ⟨listed, h, rfl | rfl⟩
        · exact .inl h
        · exact .inr h

end Directive

namespace Suppressions

theorem coversId_iff (id : Text) (d : Diagnostic) : coversId id d = true ↔ id = d.errorId ∨ id = Directive.wildcard := by
  simp [coversId]

theorem coversId_ofString (id : String) (d : Diagnostic) :
    coversId id d = true ↔ id = d.errorId ∨ id = Directive.wildcard := by
  have hinj : ∀ s : String, (id : Text) = s ↔ id = s := fun s => ⟨Text.ofString_injective, congrArg Text.ofString⟩
  rw [coversId_iff, hinj, hinj]

/-! ## Operations -/

/-- What can be done with suppressions: adding to them in one of three ways, and asking them in one of two. -/
inductive Operation where
  | addGlobal (id : Text)
  | addFile (id pattern : Text)
  | loadInline (m : Module)
  /-- Whether a diagnostic is suppressed. -/
  | ask (d : Diagnostic)
  /-- Which of some diagnostics are not suppressed. -/
  | sift (ds : List Diagnostic)

/-- What an operation answers. -/
inductive Answer where
  | done
  | suppressed (answer : Bool)
  | kept (ds : List Diagnostic)

/-- Perform an operation. -/
def perform (s : Suppressions) : Operation → Answer × Suppressions
  | .addGlobal id => (.done, s.addGlobal id)
  | .addFile id pattern => (.done, s.addFile id pattern)
  | .loadInline m => (.done, s.loadInline m)
  | .ask d => (.suppressed (s.covers d), s)
  | .sift ds => (.kept (s.filter ds), s)

/-- Perform operations one after another. -/
def performAll : Suppressions → List Operation → List Answer × Suppressions
  | s, [] => ([], s)
  | s, op :: ops =>
    let (answer, s') := s.perform op
    let (answers, last) := performAll s' ops
    (answer :: answers, last)

/-- A comment reaches a diagnostic that begins on its line or on the next one. -/
def Reaches (c : Comment) (d : Diagnostic) : Prop :=
  c.range.start.row = d.range.start.row ∨ c.range.start.row + 1 = d.range.start.row

namespace Operation

/-- Whether an operation only asks. -/
def asks : Operation → Bool
  | ask _ | sift _ => true
  | _ => false

/-- What an operation suppresses by itself: an id, or all of them, everywhere or in the files that a pattern selects; or what the
directives of a module are against, on their lines and the next ones. -/
def Covers (d : Diagnostic) : Operation → Prop
  | addGlobal id => id = d.errorId ∨ id = Directive.wildcard
  | addFile id pattern => (id = d.errorId ∨ id = Directive.wildcard) ∧ selectsFile pattern d.file = true
  | loadInline m => m.file = d.file ∧ ∃ c ∈ m.comments, Reaches c d ∧ Directive.Targets c.text.toList d.errorId
  | ask _ | sift _ => False

theorem asks_eq_false_of_covers {op : Operation} {d : Diagnostic} (h : op.Covers d) : op.asks = false := by
  cases op with
  | ask | sift => exact h.elim
  | addGlobal | addFile | loadInline => rfl

end Operation

/-! ## One operation -/

theorem covers_addGlobal (s : Suppressions) (id : Text) (d : Diagnostic) :
    (s.addGlobal id).covers d = (s.covers d || coversId id d) := by
  simp only [covers, addGlobal, List.any_append, List.any_cons, List.any_nil, Bool.or_false]
  ac_rfl

theorem covers_addFile (s : Suppressions) (id pattern : Text) (d : Diagnostic) :
    (s.addFile id pattern).covers d = (s.covers d || coversId id d && selectsFile pattern d.file) := by
  simp only [covers, addFile, List.any_append, List.any_cons, List.any_nil, Bool.or_false]
  ac_rfl

theorem covers_loadInline (s : Suppressions) (m : Module) (d : Diagnostic) :
    (s.loadInline m).covers d = (s.covers d || (m.comments.flatMap (ofComment m.file)).any
      fun (file, line, id) => file == d.file && reachesLine line d && coversId id d) := by
  simp only [covers, loadInline, List.any_append]
  ac_rfl

/-- The directives of a module reach what they are against. -/
theorem any_directives_iff (m : Module) (d : Diagnostic) :
    ((m.comments.flatMap (ofComment m.file)).any
      fun (file, line, id) => file == d.file && reachesLine line d && coversId id d) = true ↔
      (Operation.loadInline m).Covers d := by
  simp only [List.any_eq_true, List.mem_flatMap, ofComment, List.mem_map, Bool.and_eq_true, beq_iff_eq, coversId_ofString,
    reachesLine, Bool.or_eq_true, Operation.Covers, Directive.targets_iff]
  constructor
  · rintro ⟨_, ⟨c, hc, listed, hlisted, rfl⟩, ⟨hfile, hreaches⟩, hid⟩
    exact ⟨hfile, c, hc, hreaches, listed, hlisted, hid⟩
  · rintro ⟨hfile, c, hc, hreaches, listed, hlisted, hid⟩
    exact ⟨_, ⟨c, hc, listed, hlisted, rfl⟩, ⟨hfile, hreaches⟩, hid⟩

/-- An operation adds what it covers to what is covered. -/
theorem covers_perform (s : Suppressions) (op : Operation) (d : Diagnostic) :
    (s.perform op).2.covers d = true ↔ s.covers d = true ∨ op.Covers d := by
  cases op with
  | addGlobal id => rw [perform, covers_addGlobal, Bool.or_eq_true, coversId_iff]; rfl
  | addFile id pattern => rw [perform, covers_addFile, Bool.or_eq_true, Bool.and_eq_true, coversId_iff]; rfl
  | loadInline m => rw [perform, covers_loadInline, Bool.or_eq_true, any_directives_iff]
  | ask | sift => exact (or_false _).symm ▸ Iff.rfl

/-- Whether an operation covers a diagnostic can be computed: by performing it. -/
instance (d : Diagnostic) (op : Operation) : Decidable (op.Covers d) :=
  decidable_of_iff ((({} : Suppressions).perform op).2.covers d = true) <| by
    have hnone : ({} : Suppressions).covers d = false := rfl
    rw [covers_perform, hnone]
    exact or_iff_right Bool.false_ne_true

/-! ## Many operations -/

theorem covers_performAll (d : Diagnostic) : ∀ (ops : List Operation) (s : Suppressions),
    (s.performAll ops).2.covers d = true ↔ s.covers d = true ∨ ∃ op ∈ ops, op.Covers d
  | [], s => by simp [performAll]
  | op :: ops, s => by
    have hrest := covers_performAll d ops (s.perform op).2
    rw [covers_perform, or_assoc] at hrest
    simp only [List.mem_cons, exists_eq_or_imp]
    exact hrest

/-- What an operation answers after some others. -/
def answerAfter (before : List Operation) : Operation → Answer
  | .ask d => .suppressed (decide (∃ op ∈ before, op.Covers d))
  | .sift ds => .kept (ds.filter fun d => decide (∀ op ∈ before, ¬ op.Covers d))
  | _ => .done

theorem covers_performAll_empty (ops : List Operation) (d : Diagnostic) :
    (performAll {} ops).2.covers d = decide (∃ op ∈ ops, op.Covers d) := by
  have hnone : ({} : Suppressions).covers d = false := rfl
  rw [Bool.eq_iff_iff, covers_performAll, decide_eq_true_eq, hnone]
  exact or_iff_right Bool.false_ne_true

theorem filter_performAll_empty (ops : List Operation) (ds : List Diagnostic) :
    (performAll {} ops).2.filter ds = ds.filter fun d => decide (∀ op ∈ ops, ¬ op.Covers d) := by
  refine List.filter_congr fun d _ => ?_
  rw [covers_performAll_empty, ← decide_not, decide_eq_decide]
  simp

theorem length_answers_performAll : ∀ (ops : List Operation) (s : Suppressions), (s.performAll ops).1.length = ops.length
  | [], _ => rfl
  | op :: ops, s => congrArg (· + 1) (length_answers_performAll ops (s.perform op).2)

theorem performAll_append : ∀ (before after : List Operation) (s : Suppressions), s.performAll (before ++ after) =
    ((s.performAll before).1 ++ ((s.performAll before).2.performAll after).1, ((s.performAll before).2.performAll after).2)
  | [], _, _ => rfl
  | op :: before, after, s => by
    simp only [List.cons_append, performAll, performAll_append before after]

/-- Every operation is answered by what was done before it. -/
theorem answers_performAll (before : List Operation) (op : Operation) (after : List Operation) :
    (performAll {} (before ++ op :: after)).1[before.length]? = some (answerAfter before op) := by
  have hanswer : ((performAll {} before).2.perform op).1 = answerAfter before op := by
    cases op with
    | ask d => rw [perform, answerAfter, covers_performAll_empty]
    | sift ds => rw [perform, answerAfter, filter_performAll_empty]
    | addGlobal | addFile | loadInline => rfl
  rw [performAll_append, ← hanswer, ← length_answers_performAll before {}, List.getElem?_append_right (Nat.le_refl _),
    Nat.sub_self]
  rfl

/-- Suppression is the union of what was loaded. After any sequence of operations a diagnostic is suppressed exactly when one of
the operations covers it, and each operation on the way is answered accordingly. So sequences with the same additions suppress
the same, in whatever order and however often they stand and whatever is asked in between; a longer sequence suppresses no less;
and of some diagnostics those remain that no operation covers, in their order. -/
theorem performAll_covers_union (ops : List Operation) :
    (∀ d, (performAll {} ops).2.covers d = true ↔ ∃ op ∈ ops, op.Covers d) ∧
    (∀ before op after, ops = before ++ op :: after → (performAll {} ops).1[before.length]? = some (answerAfter before op)) ∧
    (∀ ops', (∀ op, op.asks = false → (op ∈ ops' ↔ op ∈ ops)) →
      ∀ d, (performAll {} ops').2.covers d = (performAll {} ops).2.covers d) ∧
    (∀ ops', ops ⊆ ops' → ∀ d, (performAll {} ops).2.covers d = true → (performAll {} ops').2.covers d = true) ∧
    ∀ ds, (performAll {} ops).2.filter ds = ds.filter fun d => decide (∀ op ∈ ops, ¬ op.Covers d) := by
  refine ⟨fun d => ?_, ?_, fun ops' hsame d => ?_, fun ops' hsub d => ?_, filter_performAll_empty ops⟩
  · rw [covers_performAll_empty, decide_eq_true_eq]
  · rintro before op after rfl
    exact answers_performAll before op after
  · rw [covers_performAll_empty, covers_performAll_empty, decide_eq_decide]
    constructor
    · rintro ⟨op, hop, hcovers⟩
      exact ⟨op, (hsame op (Operation.asks_eq_false_of_covers hcovers)).1 hop, hcovers⟩
    · rintro ⟨op, hop, hcovers⟩
      exact ⟨op, (hsame op (Operation.asks_eq_false_of_covers hcovers)).2 hop, hcovers⟩
  · rw [covers_performAll_empty, covers_performAll_empty, decide_eq_true_eq, decide_eq_true_eq]
    rintro ⟨op, hop, hcovers⟩
    exact ⟨op, hsub hop, hcovers⟩

/-- A module with a directive in its second line. -/
def directiveInLineTwo : Module where
  header := none
  imports := []
  declarations := []
  comments := [⟨"-- elmcheck-suppress ignoredError, other legacy code", ⟨2, 1⟩, ⟨2, 53⟩⟩]
  file := "A.elm"

/-- A diagnostic in the third line of a file. -/
def diagnosticInLineThree (file : String) : Diagnostic where
  errorId := "ignoredError"
  message := "The error is being ignored."
  severity := .warning
  file := file
  range := ⟨⟨3, 1⟩, ⟨3, 6⟩⟩

/-- The directive suppresses what begins in the next line of its file; the two operations around it do not. Before it was loaded
the answer was no, and it stays yes when the operations come in another order with one of them twice. -/
theorem performAll_covers_one_of_four :
    let d := diagnosticInLineThree "A.elm"
    let other := diagnosticInLineThree "B.elm"
    let ops : List Operation := [.addGlobal "boom", .ask d, .loadInline directiveInLineTwo, .addFile "*" "Legacy/*.elm"]
    let reordered : List Operation :=
      [.addFile "*" "Legacy/*.elm", .loadInline directiveInLineTwo, .addGlobal "boom", .loadInline directiveInLineTwo, .ask d]
    (performAll {} ops).2.covers d = true ∧ (performAll {} ops).1[1]? = some (.suppressed false) ∧
      (performAll {} reordered).2.covers d = true ∧ (performAll {} ops).2.filter [other, d, other] = [other, other] := by
  intro d other ops reordered
  obtain ⟨hcovers, hanswers, hsame, -, hfilter⟩ := performAll_covers_union ops
  have hdirective : (Operation.loadInline directiveInLineTwo).Covers d := by decide +kernel
  have hd : (performAll {} ops).2.covers d = true := (hcovers d).2 ⟨.loadInline directiveInLineTwo, by simp [ops], hdirective⟩
  have hadditions : ∀ op : Operation, op.asks = false → (op ∈ reordered ↔ op ∈ ops) := by
    intro op hop
    simp only [ops, reordered, List.mem_cons, List.not_mem_nil, or_false]
    have hask : op ≠ .ask d := by
      rintro rfl
      cases hop
    tauto
  refine ⟨hd, (hanswers [.addGlobal "boom"] (.ask d) _ rfl).trans ?_, (hsame reordered hadditions d).trans hd, ?_⟩
  · have hbefore : ¬ ∃ op ∈ [Operation.addGlobal "boom"], op.Covers d := by decide +kernel
    rw [answerAfter, decide_eq_false hbefore]
  · have hother : decide (∀ op ∈ ops, ¬ op.Covers other) = true := decide_eq_true (by decide +kernel)
    have hdropped : decide (∀ op ∈ ops, ¬ op.Covers d) = false := decide_eq_false (by decide +kernel)
    simp only [hfilter, List.filter_cons, List.filter_nil, hother, hdropped]
    rfl

end Suppressions

end ElmLint
