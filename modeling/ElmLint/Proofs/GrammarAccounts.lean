import ElmLint.Layout
import ElmLint.Proofs.Accounts

/-!
# The grammar keeps accounts

A relation that accounts for words, markers, names and literals (`RuleLedger`) accounts for all that the rules of the grammar read: for
each rule as soon as for the rules that it calls (`accounts_rules`), so for every run of the grammar (`faithful_run`). If it accounts for
the settings of an effect module, too (`Ledger`), then it accounts for the items of a module (`accounts_topLevel`).
-/

namespace ElmLint.Grammar

variable {M : Type} [AddCommMonoid M]

/-- Rules that move on, and give what a reading of their expressions gives. -/
structure Known (l : LaidOut) (call : (r : Rule) → Cursor → Outcome r.Sem) : Prop where
  ahead : ∀ r c v c', call r c = .ok v c' → c.Ahead c'
  reading : ∀ r c v c', call r c = .ok v c' → ∃ call', (rules l.range r).read call' c = .ok v c'

/-- What it takes to account for all that the rules of the grammar read: words count nothing, markers count what they count, and so do
the names of constructors and other values, and literals between quotes. -/
structure RuleLedger (l : LaidOut) (w : Weights M) (P : Cursor → M → Cursor → Prop) : Prop extends Additive P, w.Lawful where
  lexeme : ∀ lex : Lexeme, lex.isPlain = true → ∀ c n, lex.length? c.rest = some n → P c 0 (c.advance n)
  marker : ∀ m c n, (Lexeme.marker m).length? c.rest = some n → P c (w.marker m) (c.advance n)
  quoted : ∀ call, Known l call → ∀ c v c', (stringLiteral <|> charLiteral).read call c = .ok v c' →
    P c (w.pattern (.literal v (l.range c.offset c'.offset))) c'
  bare : ∀ call, Known l call → ∀ c v c', qualifiedUpper.read call c = .ok v c' →
    P c (w.pattern (.named v.1 v.2 [] (l.range c.offset c'.offset))) c'
  applied : ∀ call, Known l call → ∀ c v c₁ arguments c', qualifiedUpper.read call c = .ok v c₁ →
    (Peg.atLeastOne (gap *> rule .patternAtom)).read call c₁ = .ok arguments c' → P c₁ (w.ofPatterns arguments) c' →
    P c (w.pattern (.named v.1 v.2 arguments (l.range c.offset c'.offset)) + w.ofPatterns arguments) c'
  reference : ∀ call, Known l call → ∀ c v c', (reference l.range).read call c = .ok v c' → P c (w.expr v) c'

/-- What it takes to account for all that the grammar reads: the settings of an effect module count nothing, either. -/
structure Ledger (l : LaidOut) (w : Weights M) (P : Cursor → M → Cursor → Prop) : Prop extends RuleLedger l w P where
  settings : ∀ call, Known l call → ∀ c v c', effectSettings.read call c = .ok v c' → P c 0 c'

/-- The weight of what a rule gives. -/
def weightOf (w : Weights M) : (r : Rule) → r.Sem → M
  | .typeExpr, _ | .typeAtom, _ => 0
  | .pattern, p | .consPattern, p | .patternAtom, p => w.ofPattern p
  | .expr, e | .operand, e | .postfixAtom, e | .atom, e => w.ofExpr e
  | .setter, s => w.ofExpr s.value
  | .arm, a => w.ofArm a
  | .letItem, i => w.ofLetItem i

/-- What is assumed of the rules that a phrase calls: what they give accounts for what they read, and it is a reading of their
expressions. -/
structure Faithful (l : LaidOut) (w : Weights M) (P : Cursor → M → Cursor → Prop)
    (call : (r : Rule) → Cursor → Outcome r.Sem) : Prop where
  accounts : ∀ r, Accounts P call (rule r) (weightOf w r)
  known : Known l call

variable {l : LaidOut} {w : Weights M} {P : Cursor → M → Cursor → Prop} {call : (r : Rule) → Cursor → Outcome r.Sem}
  (hP : RuleLedger l w P) (hcall : Faithful l w P call) {α : Type} {p : Phrase α} {f : α → M}

include hP hcall

/-- Plain words and types count nothing. -/
theorem silent (p : Phrase α) (hp : mute p = true) : Accounts P call p fun _ => 0 := by
  refine .mute hP.toAdditive hP.lexeme (fun r hr => ?_) p hp
  cases r with
  | typeExpr => exact hcall.accounts .typeExpr
  | typeAtom => exact hcall.accounts .typeAtom
  | _ => cases hr

/-! ## Lists and blocks -/

theorem Accounts.commaList (hp : Accounts P call p f) : Accounts P call (commaList p) fun v => (v.map f).sum :=
  .separated hP.toAdditive (silent hP hcall _ rfl) hp

theorem Accounts.between {left right : String} (hleft : (Lexeme.exact left).isPlain = true) (hright : (Lexeme.exact right).isPlain = true)
    (hp : Accounts P call p f) : Accounts P call (between left p right) f := by
  have hopening : Accounts P call (symbol left *> gap) fun _ => 0 :=
    (silent hP hcall (symbol left) hleft).after hP.toAdditive (silent hP hcall gap rfl)
  exact ((hopening.after hP.toAdditive hp).before hP.toAdditive (silent hP hcall gap rfl)).before hP.toAdditive
    (silent hP hcall (symbol right) hright)

omit hcall in
theorem accounts_marker (m : Marker) : Accounts P call (marker m) fun _ => w.marker m := by
  intro c v c' h
  obtain ⟨n, hn, -, rfl⟩ := Peg.read_lexeme_ok.1 h
  exact hP.marker m c n hn

/-- A marker between two items counts nothing. -/
theorem accounts_separator : Accounts P call (gap *> marker .separating *> gap) fun _ => 0 := by
  have hmarker : Accounts P call (marker .separating) fun _ => 0 :=
    (accounts_marker hP .separating).congr fun _ => hP.marker_separating.symm
  exact ((silent hP hcall gap rfl).after hP.toAdditive hmarker).after hP.toAdditive (silent hP hcall gap rfl)

/-- A block counts its items and the markers at its ends. -/
theorem Accounts.block (hp : Accounts P call p f) : Accounts P call (block p) fun v =>
    w.marker .opening + w.marker .closing + (v.map f).sum := by
  have hopening : Accounts P call (marker .opening *> gap) fun _ => w.marker .opening :=
    (accounts_marker hP .opening).andThen hP.toAdditive (silent hP hcall gap rfl) (fun _ => rfl) fun _ => (add_zero _).symm
  have hitems := hopening.andThen hP.toAdditive (.separated hP.toAdditive (accounts_separator hP hcall) hp) (fun _ => rfl)
    fun _ => rfl
  refine (hitems.before hP.toAdditive (silent hP hcall gap rfl)).andSkip hP.toAdditive (accounts_marker hP .closing)
    (fun _ => rfl) fun v => ?_
  ac_rfl

/-! ## Literals -/

omit hP hcall in
theorem isQuoted_ofNumber {value : List Char → Literal} (h : ∀ text, (value text).isQuoted = false) (text : List Char) :
    (Literal.ofNumber value text).isQuoted = false := by
  rw [Literal.ofNumber]
  split
  · rfl
  · exact h text

omit hP hcall in
theorem isQuoted_ofInt : ∀ text, (Literal.ofInt text).isQuoted = false := by
  refine isQuoted_ofNumber fun digits => ?_
  split
  · rfl
  · split <;> rfl

/-- Strings and characters count what they count, and numbers nothing. -/
theorem accounts_literal {c c' : Cursor} {v : Literal} (h : literal.read call c = .ok v c') :
    P c (w.pattern (.literal v (l.range c.offset c'.offset))) c' := by
  have hnumber : ∀ {value : List Char → Literal} {p : Phrase (List Char)}, (∀ text, (value text).isQuoted = false) →
      mute p = true → (Peg.map value p).read call c = .ok v c' → P c (w.pattern (.literal v (l.range c.offset c'.offset))) c' := by
    intro value p hvalue hp h
    obtain ⟨text, htext, rfl⟩ := Peg.read_node_ok.1 h
    rw [hP.pattern_eq_zero (.literal _ _) (hvalue text)]
    exact silent hP hcall p hp c text c' htext
  rcases Peg.read_alt_ok.1 h with h | ⟨-, h⟩
  · exact hnumber (isQuoted_ofNumber fun _ => rfl) rfl h
  rcases Peg.read_alt_ok.1 h with h | ⟨-, h⟩
  · exact hnumber isQuoted_ofInt rfl h
  · exact hP.quoted call hcall.known c v c' h

/-- The unit counts nothing. -/
theorem accounts_unit {c c' : Cursor} {v : Literal} (h : unit.read call c = .ok v c') :
    P c (w.pattern (.literal v (l.range c.offset c'.offset))) c' := by
  have hsilent := silent hP hcall unit rfl c v c' h
  obtain ⟨_, _, rfl⟩ := Peg.read_node_ok.1 h
  rwa [hP.pattern_eq_zero _ rfl]

/-! ## Patterns -/

theorem accounts_patternGroup : Accounts P call (patternGroup l.range) w.ofPattern := by
  refine (((hcall.accounts .pattern).commaList hP hcall).between hP hcall rfl rfl).node fun i j elements => ?_
  split
  · exact Weights.ofPattern_of_children hP.toLawful rfl
  · exact Weights.ofPattern_of_children hP.toLawful rfl

theorem accounts_listPattern : Accounts P call (listPattern l.range) w.ofPattern := by
  refine ((((hcall.accounts .pattern).commaList hP hcall).opt hP.toAdditive).between hP hcall rfl rfl).node
    fun i j elements => ?_
  rw [Weights.ofPattern_of_children hP.toLawful rfl]
  cases elements with
  | none => rfl
  | some elements => exact (add_zero _).symm

theorem accounts_patternAtom : Accounts P call (patternAtom l.range) w.ofPattern := by
  refine .orElse (.node (silent hP hcall _ rfl) fun i j v => Weights.ofPattern_of_children hP.toLawful rfl) (.orElse ?_ ?_)
  · intro c v c' h
    obtain ⟨value, hvalue, rfl⟩ := Peg.read_node_ok.1 h
    rw [Weights.ofPattern_literal]
    rcases Peg.read_alt_ok.1 hvalue with hvalue | ⟨-, hvalue⟩
    · exact accounts_unit hP hcall hvalue
    · exact accounts_literal hP hcall hvalue
  refine .orElse (accounts_patternGroup hP hcall) (.orElse (accounts_listPattern hP hcall) ?_)
  refine .orElse (.node (silent hP hcall _ rfl) fun i j v => Weights.ofPattern_of_children hP.toLawful rfl) (.orElse ?_ ?_)
  · intro c v c' h
    obtain ⟨name, hname, rfl⟩ := Peg.read_node_ok.1 h
    rw [Weights.ofPattern_eq, Pattern.children, Weights.ofPatterns_nil, add_zero]
    exact hP.bare call hcall.known c name c' hname
  · exact .node (silent hP hcall _ rfl) fun i j v => Weights.ofPattern_of_children hP.toLawful rfl

theorem accounts_appliedPattern : Accounts P call (appliedPattern l.range) w.ofPattern := by
  refine .orElse ?_ (hcall.accounts .patternAtom)
  intro c v c' h
  obtain ⟨⟨name, arguments⟩, hboth, rfl⟩ := Peg.read_node_ok.1 h
  obtain ⟨c₁, hname, harguments⟩ := Peg.read_seq_ok.1 hboth
  have hweight : Accounts P call (Peg.atLeastOne (gap *> rule .patternAtom)) w.ofPatterns :=
    ((silent hP hcall gap rfl).after hP.toAdditive (hcall.accounts .patternAtom)).atLeastOne hP.toAdditive
  rw [Weights.ofPattern_eq]
  exact hP.applied call hcall.known c name c₁ arguments c' hname harguments (hweight c₁ arguments c' harguments)

theorem accounts_consPattern : Accounts P call (consPattern l.range) w.ofPattern := by
  refine ((accounts_appliedPattern hP hcall).seq hP.toAdditive
    (((silent hP hcall (spaced "::") rfl).after hP.toAdditive (hcall.accounts .consPattern)).opt hP.toAdditive)).node
    fun i j v => ?_
  obtain ⟨head, tail⟩ := v
  cases tail with
  | none => exact (add_zero _).symm
  | some tail => exact Weights.ofPattern_of_children hP.toLawful rfl

theorem accounts_pattern : Accounts P call (pattern l.range) w.ofPattern := by
  refine ((hcall.accounts .consPattern).seq hP.toAdditive (silent hP hcall (.many (aliasName l.range)) rfl)).map fun v => ?_
  obtain ⟨inner, aliases⟩ := v
  have hfold : ∀ (aliases : List (String × SourceRange)) (p : Pattern),
      w.ofPattern (aliases.foldl (fun p a => .aliased p a.1 ⟨p.range.start, a.2.stop⟩) p) = w.ofPattern p := by
    intro aliases
    induction aliases with
    | nil => exact fun _ => rfl
    | cons a aliases ih =>
      exact fun p => (ih _).trans ((Weights.ofPattern_of_children hP.toLawful rfl).trans (add_zero _))
  exact (hfold aliases inner).trans (add_zero _).symm

/-! ## Expressions -/

theorem accounts_exprGroup : Accounts P call (exprGroup l.range) w.ofExpr := by
  refine (((hcall.accounts .expr).commaList hP hcall).between hP hcall rfl rfl).node fun i j elements => ?_
  split
  · exact Weights.ofExpr_of_children hP.toLawful rfl rfl rfl
  · exact Weights.ofExpr_of_children hP.toLawful rfl rfl rfl

theorem accounts_listExpr : Accounts P call (listExpr l.range) w.ofExpr := by
  refine ((((hcall.accounts .expr).commaList hP hcall).opt hP.toAdditive).between hP hcall rfl rfl).node fun i j elements => ?_
  rw [Weights.ofExpr_of_children hP.toLawful rfl rfl rfl]
  cases elements with
  | none => rfl
  | some elements => exact (add_zero _).symm

omit hP hcall in
theorem ofExprs_setters (setters : List (Setter Expr)) :
    w.ofExprs (setters.map (·.value)) = (setters.map (weightOf w .setter)).sum := by
  rw [Weights.ofExprs, List.map_map]
  rfl

theorem accounts_recordUpdate : Accounts P call (recordUpdate l.range) w.ofExpr := by
  refine (((silent hP hcall lowerName rfl).seq hP.toAdditive ((silent hP hcall (spaced "|") rfl).after hP.toAdditive
    ((hcall.accounts .setter).commaList hP hcall))).between hP hcall rfl rfl).node fun i j v => ?_
  rw [Weights.ofExpr_of_children hP.toLawful rfl rfl rfl]
  exact (ofExprs_setters v.2).trans (zero_add _).symm

theorem accounts_recordExpr : Accounts P call (recordExpr l.range) w.ofExpr := by
  refine ((((hcall.accounts .setter).commaList hP hcall).opt hP.toAdditive).between hP hcall rfl rfl).node
    fun i j setters => ?_
  rw [Weights.ofExpr_of_children hP.toLawful rfl rfl rfl]
  cases setters with
  | none => rfl
  | some setters => exact (ofExprs_setters setters).trans (add_zero _).symm

theorem accounts_reference : Accounts P call (reference l.range) w.ofExpr := by
  intro c v c' h
  have hreference := hP.reference call hcall.known c v c' h
  obtain ⟨⟨qualifier, name⟩, -, rfl⟩ := Peg.read_node_ok.1 h
  rw [Weights.ofExpr_eq, Weights.ofNode]
  simpa [Expr.boundPatterns, Expr.children] using hreference

theorem accounts_atom : Accounts P call (atom l.range) w.ofExpr := by
  refine .orElse ?_ ?_
  · intro c v c' h
    obtain ⟨value, hvalue, rfl⟩ := Peg.read_node_ok.1 h
    rw [Weights.ofExpr_literal, hP.expr_literal]
    rcases Peg.read_alt_ok.1 hvalue with hvalue | ⟨-, hvalue⟩
    · exact accounts_literal hP hcall hvalue
    · exact accounts_unit hP hcall hvalue
  refine .orElse (.node (silent hP hcall _ rfl) fun i j v => Weights.ofExpr_of_children hP.toLawful rfl rfl rfl) ?_
  refine .orElse (accounts_exprGroup hP hcall) (.orElse (accounts_listExpr hP hcall) ?_)
  refine .orElse (accounts_recordUpdate hP hcall) (.orElse (accounts_recordExpr hP hcall) (.orElse ?_ ?_))
  · exact .node (silent hP hcall _ rfl) fun i j v => Weights.ofExpr_of_children hP.toLawful rfl rfl rfl
  · exact accounts_reference hP hcall

theorem accounts_postfixAtom : Accounts P call (postfixAtom l.range) w.ofExpr := by
  refine ((hcall.accounts .atom).seq hP.toAdditive
    (silent hP hcall (.many (.node (fun i j field => (field, l.range i j)) fieldAccess)) rfl)).map fun v => ?_
  obtain ⟨inner, accesses⟩ := v
  have hfold : ∀ (accesses : List (String × SourceRange)) (e : Expr),
      w.ofExpr (accesses.foldl (fun e a => .access e a.1 ⟨e.range.start, a.2.stop⟩) e) = w.ofExpr e := by
    intro accesses
    induction accesses with
    | nil => exact fun _ => rfl
    | cons a accesses ih =>
      exact fun e => (ih _).trans ((Weights.ofExpr_of_children hP.toLawful rfl rfl rfl).trans (add_zero _))
  exact (hfold accesses inner).trans (add_zero _).symm

theorem accounts_application : Accounts P call (application l.range) w.ofExpr := by
  refine ((hcall.accounts .postfixAtom).seq hP.toAdditive
    (((silent hP hcall gap rfl).after hP.toAdditive (hcall.accounts .postfixAtom)).many hP.toAdditive)).node fun i j v => ?_
  obtain ⟨function, arguments⟩ := v
  cases arguments with
  | nil => exact (add_zero _).symm
  | cons a arguments =>
    refine (Weights.ofExpr_of_children hP.toLawful rfl rfl rfl).trans ?_
    exact w.ofExprs_cons function (a :: arguments)

theorem accounts_conditional : Accounts P call (conditional l.range) w.ofExpr := by
  refine (((silent hP hcall (word "if" *> gap) rfl).after hP.toAdditive (hcall.accounts .expr)).seq hP.toAdditive
    (((silent hP hcall (gap *> word "then" *> gap) rfl).after hP.toAdditive (hcall.accounts .expr)).seq hP.toAdditive
      ((silent hP hcall (gap *> word "else" *> gap) rfl).after hP.toAdditive (hcall.accounts .expr)))).node fun i j v => ?_
  rw [Weights.ofExpr_of_children hP.toLawful rfl rfl rfl]
  simp [Expr.children, weightOf]

theorem accounts_arm : Accounts P call arm (weightOf w .arm) :=
  ((hcall.accounts .pattern).seq hP.toAdditive ((silent hP hcall (spaced "->") rfl).after hP.toAdditive
    (hcall.accounts .expr))).map fun _ => rfl

theorem accounts_caseOf : Accounts P call (caseOf l.range) w.ofExpr := by
  refine (((silent hP hcall (word "case" *> gap) rfl).after hP.toAdditive (hcall.accounts .expr)).seq hP.toAdditive
    ((silent hP hcall (gap *> word "of" *> gap) rfl).after hP.toAdditive ((hcall.accounts .arm).block hP hcall))).node
    fun i j v => ?_
  rw [Weights.ofExpr_caseOf, hP.expr_of_opensBlock _ rfl]
  exact add_left_comm _ _ _

theorem accounts_functionDecl : Accounts P call (functionDecl l.range) w.ofFunction :=
  ((silent hP hcall lowerName rfl).seq hP.toAdditive ((((silent hP hcall gap rfl).after hP.toAdditive
    (hcall.accounts .patternAtom)).many hP.toAdditive).seq hP.toAdditive ((silent hP hcall (spaced "=") rfl).after
      hP.toAdditive (hcall.accounts .expr)))).node fun _ _ _ => (zero_add _).symm

theorem accounts_letItem : Accounts P call (letItem l.range) w.ofLetItem := by
  refine .orElse (.map (silent hP hcall (signature l.range) rfl) fun _ => rfl) ?_
  refine .orElse (.map (accounts_functionDecl hP hcall) fun _ => rfl) ?_
  refine (Accounts.without hP.toAdditive).after hP.toAdditive (.map (f := w.ofLetDecl) (.node
    ((hcall.accounts .pattern).seq hP.toAdditive ((silent hP hcall (spaced "=") rfl).after hP.toAdditive
      (hcall.accounts .expr))) fun i j v => ?_) fun _ => rfl)
  rw [Weights.ofLetDecl, LetDecl.patterns, Weights.ofPatterns_cons, Weights.ofPatterns_nil, add_zero]
  rfl

theorem accounts_letIn : Accounts P call (letIn l.range) w.ofExpr := by
  refine (((silent hP hcall (word "let" *> gap) rfl).after hP.toAdditive ((hcall.accounts .letItem).block hP hcall)).seq
    hP.toAdditive ((silent hP hcall (gap *> word "in" *> gap) rfl).after hP.toAdditive (hcall.accounts .expr))).node
    fun i j v => ?_
  rw [Weights.ofExpr_letIn, hP.expr_of_opensBlock _ rfl, Weights.sum_ofLetDecl_attach]
  exact (add_assoc _ _ _).symm

theorem accounts_lambda : Accounts P call (lambda l.range) w.ofExpr := by
  refine (((silent hP hcall (symbol "\\" *> gap) rfl).after hP.toAdditive (.separated hP.toAdditive
    (silent hP hcall gap rfl) (hcall.accounts .patternAtom))).seq hP.toAdditive ((silent hP hcall (spaced "->") rfl).after
      hP.toAdditive (hcall.accounts .expr))).node fun i j v => ?_
  rw [Weights.ofExpr_eq, Weights.ofNode, hP.expr_eq_zero _ rfl rfl, zero_add]
  exact congrArg (w.ofPatterns v.1 + ·) (add_zero _)

theorem accounts_operand : Accounts P call (operand l.range) w.ofExpr := by
  refine .orElse (accounts_lambda hP hcall) (.orElse (accounts_conditional hP hcall) ?_)
  refine .orElse (accounts_caseOf hP hcall) (.orElse (accounts_letIn hP hcall) (.orElse ?_ (accounts_application hP hcall)))
  refine ((silent hP hcall (symbol "-") rfl).after hP.toAdditive (hcall.accounts .postfixAtom)).node fun i j v => ?_
  exact (Weights.ofExpr_of_children hP.toLawful rfl rfl rfl).trans (add_zero _)

/-- Operands joined by operators bring their weights one after another. -/
theorem accounts_expr : Accounts P call expr w.ofExpr := by
  refine ((hcall.accounts .operand).seq hP.toAdditive (((silent hP hcall (gap *> operator) rfl).seq hP.toAdditive
    ((silent hP hcall gap rfl).after hP.toAdditive (hcall.accounts .operand))).many hP.toAdditive)).map fun v => ?_
  obtain ⟨first, rest⟩ := v
  have hfold : ∀ (rest : List (String × Expr)) (e : Expr),
      w.ofExpr (rest.foldl (fun left (op, right) => .binary op left right ⟨left.range.start, right.range.stop⟩) e) =
        w.ofExpr e + (rest.map fun v => 0 + w.ofExpr v.2).sum := by
    intro rest
    induction rest with
    | nil => exact fun e => (add_zero _).symm
    | cons v rest ih =>
      intro e
      rw [List.foldl_cons, ih, Weights.ofExpr_of_children hP.toLawful rfl rfl rfl, List.map_cons, List.sum_cons]
      simp [Expr.children, add_assoc]
  exact hfold rest first

/-! ## Rules -/

/-- What each rule gives accounts for what it reads, as soon as what the rules it calls give does. -/
theorem accounts_rules (r : Rule) : Accounts P call (rules l.range r) (weightOf w r) := by
  cases r with
  | typeExpr => exact silent hP hcall (typeExpr l.range) rfl
  | typeAtom => exact silent hP hcall (typeAtom l.range) rfl
  | pattern => exact accounts_pattern hP hcall
  | consPattern => exact accounts_consPattern hP hcall
  | patternAtom => exact accounts_patternAtom hP hcall
  | expr => exact accounts_expr hP hcall
  | operand => exact accounts_operand hP hcall
  | postfixAtom => exact accounts_postfixAtom hP hcall
  | atom => exact accounts_atom hP hcall
  | setter =>
    exact ((silent hP hcall lowerName rfl).seq hP.toAdditive ((silent hP hcall (spaced "=") rfl).after hP.toAdditive
      (hcall.accounts .expr))).node fun _ _ _ => (zero_add _).symm
  | arm => exact accounts_arm hP hcall
  | letItem => exact accounts_letItem hP hcall

/-- An item of the top level is a header, or it accounts for what is read. -/
theorem header_or_accounts {c c' : Cursor} {v : TopItem} (h : (topItem l.range).read call c = .ok v c') :
    (∃ value, (header l.range).read call c = .ok value c' ∧ v = .header value) ∨ P c (w.ofTopItem v) c' := by
  rcases Peg.read_alt_ok.1 h with h | ⟨-, h⟩
  · obtain ⟨value, hvalue, rfl⟩ := Peg.read_node_ok.1 h
    exact .inl ⟨value, hvalue, rfl⟩
  · refine .inr (Accounts.orElse ?_ (.orElse ?_ (.orElse ?_ (.orElse ?_ (.orElse ?_ ?_)))) c v c' h)
    · exact .map (silent hP hcall (importDecl l.range) rfl) fun _ => rfl
    · exact .map (silent hP hcall (port l.range) rfl) fun _ => rfl
    · exact .map (silent hP hcall (typeAlias l.range) rfl) fun _ => rfl
    · exact .map (silent hP hcall (customType l.range) rfl) fun _ => rfl
    · exact .map (silent hP hcall (signature l.range) rfl) fun _ => rfl
    · exact .map (accounts_functionDecl hP hcall) fun _ => rfl

omit hcall in
/-- Every run of the grammar is faithful. -/
theorem faithful_run (fuel : Nat) : Faithful l w P (Peg.run (rules l.range) fuel) := by
  have hrun : ∀ fuel, Known l (Peg.run (rules l.range) fuel) := by
    refine fun fuel => ⟨Peg.run_ahead fuel, fun r c v c' h => ?_⟩
    cases fuel with
    | zero => cases h
    | succ fuel => exact ⟨_, h⟩
  refine ⟨fun r c v c' h => ?_, hrun fuel⟩
  induction fuel generalizing r c v c' with
  | zero => cases h
  | succ fuel ih => exact accounts_rules hP ⟨ih, hrun fuel⟩ r c v c' h

omit hP

/-! ## Modules -/

variable (hL : Ledger l w P)

include hL

/-- A header counts nothing, the settings of an effect module included. -/
theorem accounts_header : Accounts P call (header l.range) fun _ => 0 := by
  have hP := hL.toRuleLedger
  have hname : Accounts P call (word "module" *> space *> moduleName <* .opt effectSettings) fun _ => 0 :=
    (silent hP hcall (word "module" *> space *> moduleName) rfl).before hP.toAdditive
      ((Accounts.opt hP.toAdditive (hL.settings call hcall.known)).congr fun v => by cases v <;> simp)
  have hrest := hname.seq hP.toAdditive (silent hP hcall (gap *> word "exposing" *> gap *> exposing l.range) rfl)
  exact ((silent hP hcall (.opt moduleKind) rfl).seq hP.toAdditive hrest).node fun _ _ _ => by simp

theorem accounts_topItem : Accounts P call (topItem l.range) w.ofTopItem := by
  intro c v c' h
  rcases header_or_accounts hL.toRuleLedger hcall h with ⟨value, hvalue, rfl⟩ | haccount
  · exact accounts_header hcall hL c value c' hvalue
  · exact haccount

theorem accounts_topLevel : Accounts P call (topLevel l.range) fun items => (items.map w.ofTopItem).sum := by
  have hP := hL.toRuleLedger
  have hitems := Accounts.separated hP.toAdditive (accounts_separator hP hcall) (accounts_topItem hcall hL)
  refine (((silent hP hcall gap rfl).after hP.toAdditive (hitems.opt hP.toAdditive)).before hP.toAdditive
    (silent hP hcall gap rfl)).map fun v => ?_
  cases v with
  | none => rfl
  | some items => exact (add_zero _).symm

omit hcall in
/-- The weight of the items of a text accounts for what was read of it. -/
theorem accounts_readText {items : List TopItem} {next : Cursor}
    (h : readText l.range (topLevel l.range) l.text = .ok items next) :
    P (.start l.text) (items.map w.ofTopItem).sum next :=
  accounts_topLevel (faithful_run hL.toRuleLedger _) hL _ _ _ h

end ElmLint.Grammar
