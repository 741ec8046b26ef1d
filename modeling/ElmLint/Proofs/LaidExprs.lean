import ElmLint.Proofs.LaidWords

/-!
# Layout of renderings

Layout finds the markers of a rendered expression (`lays_expr`), whatever blocks and brackets are open around it and whatever comes
after it, as long as the expression is indented more than the innermost block and no later line more than the expression. An
expression that needs no brackets ends with a word of its own, so that anything may come after it.
-/

namespace ElmLint.Layout

variable {style : Style}

/-- Layout finds the markers of an expression. -/
def ExprLays (style : Style) (e : Expr) : Prop :=
  ∀ {indent : Nat} {blocks : List Block} {depth : Nat} {marked : List (Marker ⊕ Spot)}, columnOf blocks ≤ indent →
    depthOf blocks ≤ depth → (e.isAtomic = true ∨ EndsLeft indent marked) → Lays blocks depth marked →
    Lays blocks depth (e.marked style indent ++ marked)

/-- An expression that is indented further than what comes after it. -/
theorem ExprLays.nested {e : Expr} (h : ExprLays style e) {indent : Nat} {blocks : List Block} {depth : Nat}
    {marked : List (Marker ⊕ Spot)} (hindent : columnOf blocks ≤ indent) (hdepth : depthOf blocks ≤ depth)
    (hends : EndsLeft indent marked) (hmarked : Lays blocks depth marked) :
    Lays blocks depth (e.marked style (indent + style.indent) ++ marked) :=
  h (Nat.le_add_right_of_le hindent) hdepth (.inr (hends.mono (Nat.le_add_right _ _))) hmarked

theorem endsLeft_line (indent : Nat) {words : List (List Char)} (hne : words ≠ []) (marked : List (Marker ⊕ Spot)) :
    EndsLeft indent (lineOf indent words ++ marked) := by
  obtain ⟨w, words, rfl⟩ := List.exists_cons_of_ne_nil hne
  intro spot hspot
  cases hspot
  exact ⟨indent, Nat.le_refl _, rfl⟩

theorem endsLeft_wordLine (indent : Nat) (word : String) (marked : List (Marker ⊕ Spot)) :
    EndsLeft indent (wordLine indent word ++ marked) := endsLeft_line indent (List.cons_ne_nil _ _) marked

section Lines

variable {blocks : List Block} {depth indent : Nat} {marked : List (Marker ⊕ Spot)}

/-- A line with one word that means nothing to layout. -/
theorem Lays.symbol (word : String) (hword : word ∈ plainSymbols) (hindent : columnOf blocks ≤ indent) (h : Lays blocks depth marked) :
    Lays blocks depth (wordLine indent word ++ marked) :=
  h.line (wordSteps_plain (isPlainWord_symbol word hword)) hindent

theorem Lays.opens (word : String) (hword : word.toList ∈ [['('], ['['], ['{']]) (hindent : columnOf blocks ≤ indent)
    (h : Lays blocks (depth + 1) marked) : Lays blocks depth (wordLine indent word ++ marked) :=
  h.word (.opens hword) fun _ hgap => Gap.line.inj hgap ▸ hindent

theorem Lays.closes (word : String) (hword : word.toList ∈ [[')'], [']'], ['}']]) (hindent : columnOf blocks ≤ indent)
    (hdepth : depthOf blocks ≤ depth) (h : Lays blocks depth marked) : Lays blocks (depth + 1) (wordLine indent word ++ marked) :=
  h.word (.closes hword hdepth) fun _ hgap => Gap.line.inj hgap ▸ hindent

theorem Lays.comma (hindent : columnOf blocks ≤ indent) (hdepth : depthOf blocks < depth) (h : Lays blocks depth marked) :
    Lays blocks depth (wordLine indent "," ++ marked) :=
  h.word (.comma hdepth) fun _ hgap => Gap.line.inj hgap ▸ hindent

end Lines

/-! ## Parts of expressions -/

section Parts

variable {blocks : List Block} {depth indent : Nat} {marked : List (Marker ⊕ Spot)}

/-- The arguments of a function. -/
theorem lays_arguments {es : List Expr} (h : ∀ e ∈ es, ExprLays style e) (hatomic : ∀ e ∈ es, e.isAtomic = true)
    (hindent : columnOf blocks ≤ indent) (hdepth : depthOf blocks ≤ depth) (hmarked : Lays blocks depth marked) :
    Lays blocks depth (Expr.markedEach style [] indent es ++ marked) := by
  induction es with
  | nil =>
    rw [Expr.markedEach]
    exact hmarked
  | cons e es ih =>
    obtain ⟨he, hes⟩ := List.forall_mem_cons.1 h
    obtain ⟨heAtomic, hesAtomic⟩ := List.forall_mem_cons.1 hatomic
    rw [Expr.markedEach, List.nil_append, List.append_assoc]
    exact he hindent hdepth (.inl heAtomic) (ih hes hesAtomic)

/-- Later elements between brackets, before a line that closes these. -/
theorem lays_laterElements {es : List Expr} (h : ∀ e ∈ es, ExprLays style e) (hindent : columnOf blocks ≤ indent)
    (hdepth : depthOf blocks < depth) (hends : EndsLeft indent marked) (hmarked : Lays blocks depth marked) :
    EndsLeft indent (Expr.markedEach style (wordLine indent ",") (indent + style.indent) es ++ marked) ∧
      Lays blocks depth (Expr.markedEach style (wordLine indent ",") (indent + style.indent) es ++ marked) := by
  induction es with
  | nil =>
    rw [Expr.markedEach]
    exact ⟨hends, hmarked⟩
  | cons e es ih =>
    obtain ⟨he, hes⟩ := List.forall_mem_cons.1 h
    obtain ⟨hendsLater, hlater⟩ := ih hes
    rw [Expr.markedEach, List.append_assoc, List.append_assoc]
    exact ⟨endsLeft_wordLine _ _ _, .comma hindent hdepth (he.nested hindent (Nat.le_of_lt hdepth) hendsLater hlater)⟩

theorem lays_elements {es : List Expr} (h : ∀ e ∈ es, ExprLays style e) (hindent : columnOf blocks ≤ indent)
    (hdepth : depthOf blocks < depth) (hends : EndsLeft indent marked) (hmarked : Lays blocks depth marked) :
    Lays blocks depth (Expr.markedElements style indent es ++ marked) := by
  cases es with
  | nil =>
    rw [Expr.markedElements]
    exact hmarked
  | cons e es =>
    obtain ⟨he, hes⟩ := List.forall_mem_cons.1 h
    obtain ⟨hendsLater, hlater⟩ := lays_laterElements hes hindent hdepth hends hmarked
    rw [Expr.markedElements, List.append_assoc]
    exact he.nested hindent (Nat.le_of_lt hdepth) hendsLater hlater

/-- Elements between brackets. -/
theorem lays_bracketed (left right : String) (hleft : left.toList ∈ [['('], ['['], ['{']])
    (hright : right.toList ∈ [[')'], [']'], ['}']]) {es : List Expr} (h : ∀ e ∈ es, ExprLays style e) (hindent : columnOf blocks ≤ indent) (hdepth : depthOf blocks ≤ depth)
    (hmarked : Lays blocks depth marked) :
    Lays blocks depth (wordLine indent left ++ (Expr.markedElements style indent es ++ wordLine indent right) ++ marked) := by
  rw [List.append_assoc, List.append_assoc]
  exact .opens left hleft hindent (lays_elements h hindent (Nat.lt_succ_of_le hdepth) (endsLeft_wordLine _ _ _)
    (.closes right hright hindent hdepth hmarked))

/-- The line that an item begins with, its body and what comes after it. -/
theorem lays_item {marker : Marker} (hmarker : marker = .opening ∨ marker = .separating) {b : Block} (hcolumn : b.column = indent + 1)
    {words : List (List Char)} (hne : words ≠ []) (hwords : WordSteps (b :: blocks) b.depth words b.depth) {body : Expr}
    (hbody : ExprLays style body) (hends : EndsLeft indent marked) (hmarked : Lays (b :: blocks) b.depth marked) :
    EndsLeft indent (.inl marker :: (lineOf indent words ++ (body.marked style (indent + style.indent) ++ marked))) ∧
      LaysItem marker b blocks (.inl marker :: (lineOf indent words ++ (body.marked style (indent + style.indent) ++ marked))) := by
  refine ⟨endsLeft_line indent hne _, Lays.item hmarker hcolumn hne hwords (hbody ?_ (Nat.le_refl _) (.inr ?_) hmarked)⟩
  · have := style.indent_pos
    rw [columnOf, hcolumn]
    omega
  · exact hends.mono (Nat.le_add_right _ _)

/-- The arms of a `case`. -/
theorem lays_arms {b : Block} (hcolumn : b.column = indent + 1) (hends : EndsLeft indent marked)
    (hmarked : Lays (b :: blocks) b.depth marked) : ∀ {arms : List (Arm Expr)} {marker : Marker}, arms ≠ [] →
      marker = .opening ∨ marker = .separating → (∀ arm ∈ arms, arm.pattern.Renderable style) →
      (∀ arm ∈ arms, ExprLays style arm.body) →
      EndsLeft indent (Expr.markedArms style marker indent arms ++ marked) ∧
        LaysItem marker b blocks (Expr.markedArms style marker indent arms ++ marked)
  | [], _, hne, _, _, _ => absurd rfl hne
  | ⟨pattern, body⟩ :: arms, marker, _, hmarker, hpatterns, hbodies => by
    obtain ⟨hpattern, hpatterns⟩ := List.forall_mem_cons.1 hpatterns
    obtain ⟨hbody, hbodies⟩ := List.forall_mem_cons.1 hbodies
    have hwords : WordSteps (b :: blocks) b.depth (pattern.words style ++ [['-', '>']]) b.depth :=
      (wordSteps_pattern hpattern (Nat.le_refl _)).append (wordSteps_plain (isPlainWord_symbol "->" (by decide)))
    have hlater : EndsLeft indent (Expr.markedArms style .separating indent arms ++ marked) ∧
        Lays (b :: blocks) b.depth (Expr.markedArms style .separating indent arms ++ marked) := by
      cases arms with
      | nil =>
        rw [Expr.markedArms]
        exact ⟨hends, hmarked⟩
      | cons arm arms => exact lays_arms hcolumn hends hmarked (List.cons_ne_nil _ _) (.inr rfl) hpatterns hbodies
    rw [Expr.markedArms, List.cons_append, List.append_assoc, List.append_assoc]
    exact lays_item hmarker hcolumn (by simp) hwords hbody hlater.1 hlater.2

/-- The declarations of a `let`. -/
theorem lays_decls {b : Block} (hcolumn : b.column = indent + 1) (hends : EndsLeft indent marked)
    (hmarked : Lays (b :: blocks) b.depth marked) : ∀ {decls : List (LetDecl Expr)} {marker : Marker}, decls ≠ [] →
      marker = .opening ∨ marker = .separating → (∀ decl ∈ decls, decl.HasPlainHead style) →
      (∀ decl ∈ decls, ExprLays style decl.body) →
      EndsLeft indent (Expr.markedDecls style marker indent decls ++ marked) ∧
        LaysItem marker b blocks (Expr.markedDecls style marker indent decls ++ marked)
  | [], _, hne, _, _, _ => absurd rfl hne
  | .destructuring _ _ _ :: _, _, _, _, hheads, _ => (hheads _ List.mem_cons_self).elim
  | .function ⟨name, arguments, body, _, _⟩ :: decls, marker, _, hmarker, hheads, hbodies => by
    obtain ⟨⟨-, hname, -, harguments⟩, hheads⟩ := List.forall_mem_cons.1 hheads
    obtain ⟨hbody, hbodies⟩ := List.forall_mem_cons.1 hbodies
    have hnone : WordSteps (b :: blocks) b.depth [] b.depth := rfl
    have hwords : WordSteps (b :: blocks) b.depth (name.toList :: (Pattern.wordsEach style [] arguments ++ [['=']])) b.depth :=
      ⟨b.depth, .plain (isPlainWord_lowerName hname),
        (wordSteps_each hnone fun p hp => wordSteps_pattern (harguments p hp) (Nat.le_refl _)).append
          (wordSteps_plain (isPlainWord_symbol "=" (by decide)))⟩
    have hlater : EndsLeft indent (Expr.markedDecls style .separating indent decls ++ marked) ∧
        Lays (b :: blocks) b.depth (Expr.markedDecls style .separating indent decls ++ marked) := by
      cases decls with
      | nil =>
        rw [Expr.markedDecls]
        exact ⟨hends, hmarked⟩
      | cons decl decls => exact lays_decls hcolumn hends hmarked (List.cons_ne_nil _ _) (.inr rfl) hheads hbodies
    rw [Expr.markedDecls, List.cons_append, List.append_assoc, List.append_assoc]
    exact lays_item hmarker hcolumn (List.cons_ne_nil _ _) hwords hbody hlater.1 hlater.2

end Parts

/-! ## Expressions -/

/-- Layout finds the markers of a rendered expression. -/
theorem lays_expr {e : Expr} (h : e.Renderable style) : ExprLays style e := by
  have hstyle := style.indent_pos
  induction h with
  | literal _ hvalue =>
    intro indent blocks depth marked hindent hdepth _ hmarked
    rw [Expr.marked]
    exact hmarked.line (wordSteps_literal hvalue hdepth) hindent
  | reference _ hqualifier hname =>
    intro indent blocks depth marked hindent _ _ hmarked
    rw [Expr.marked]
    exact hmarked.line (wordSteps_plain (isPlainWord_qualifiedWord hqualifier hname)) hindent
  | application _ _ hfunction hatomic _ _ ihFunction ihArguments =>
    intro indent blocks depth marked hindent hdepth _ hmarked
    rw [Expr.marked, List.append_assoc]
    exact ihFunction hindent hdepth (.inl hfunction)
      (lays_arguments ihArguments hatomic (Nat.le_add_right_of_le hindent) hdepth hmarked)
  | binary _ hoperator _ _ _ _ ihLeft ihRight =>
    intro indent blocks depth marked hindent hdepth hends hmarked
    have hright := ihRight.nested hindent hdepth (hends.resolve_left nofun) hmarked
    rw [Expr.marked, List.append_assoc, List.append_assoc]
    exact ihLeft.nested hindent hdepth (endsLeft_wordLine _ _ _)
      (.symbol _ (List.mem_append_left _ hoperator) hindent hright)
  | parenthesized _ _ ih =>
    intro indent blocks depth marked hindent hdepth _ hmarked
    rw [Expr.marked, List.append_assoc, List.append_assoc]
    exact .opens "(" (by decide) hindent (ih.nested hindent (Nat.le_succ_of_le hdepth) (endsLeft_wordLine _ _ _)
      (.closes ")" (by decide) hindent hdepth hmarked))
  | tuple _ _ _ ih =>
    intro indent blocks depth marked hindent hdepth _ hmarked
    rw [Expr.marked]
    exact lays_bracketed "(" ")" (by decide) (by decide) ih hindent hdepth hmarked
  | list _ _ ih =>
    intro indent blocks depth marked hindent hdepth _ hmarked
    rw [Expr.marked]
    exact lays_bracketed "[" "]" (by decide) (by decide) ih hindent hdepth hmarked
  | conditional _ _ _ _ ihCondition ihThen ihElse =>
    intro indent blocks depth marked hindent hdepth hends hmarked
    have helse := ihElse.nested hindent hdepth (hends.resolve_left nofun) hmarked
    have hthen := ihThen.nested hindent hdepth (endsLeft_wordLine _ _ _) (.symbol "else" (by decide) hindent helse)
    have hcondition := ihCondition.nested hindent hdepth (endsLeft_wordLine _ _ _) (.symbol "then" (by decide) hindent hthen)
    simp only [Expr.marked, List.append_assoc]
    exact .symbol "if" (by decide) hindent hcondition
  | @caseOf subject arms _ hne hpatterns _ _ ihSubject ihBodies =>
    intro indent blocks depth marked hindent hdepth hends hmarked
    have hends := hends.resolve_left nofun
    let b : Block := ⟨.ofBlock, indent + style.indent + 1, depth⟩
    have hclosed : Lays (b :: blocks) b.depth (.inl .closing :: marked) := hmarked.closeOf hends (by omega)
    have hendsArms : EndsLeft (indent + style.indent) (.inl .closing :: marked) := hends.mono (Nat.le_add_right _ _)
    have harms := (lays_arms (b := b) rfl hendsArms hclosed hne (.inl rfl) hpatterns ihBodies).2
    have hsubject := ihSubject.nested hindent hdepth (endsLeft_wordLine _ "of" _) (Lays.keyword .ofBlock harms hindent)
    simp only [Expr.marked, List.append_assoc, List.singleton_append]
    exact .symbol "case" (by decide) hindent hsubject
  | @letIn declarations body _ hne hheads _ _ ihBodies ihBody =>
    intro indent blocks depth marked hindent hdepth hends hmarked
    let b : Block := ⟨.letBlock, indent + style.indent + 1, depth⟩
    have hbody := ihBody.nested hindent hdepth (hends.resolve_left nofun) hmarked
    have hclosed : Lays (b :: blocks) b.depth
        (.inl .closing :: (wordLine indent "in" ++ (body.marked style (indent + style.indent) ++ marked))) :=
      hbody.closeLet b.column hindent
    have hendsDecls : EndsLeft (indent + style.indent)
        (.inl .closing :: (wordLine indent "in" ++ (body.marked style (indent + style.indent) ++ marked))) :=
      (endsLeft_wordLine indent "in" _).mono (Nat.le_add_right _ _)
    have hdecls := (lays_decls (b := b) rfl hendsDecls hclosed hne (.inl rfl) hheads ihBodies).2
    simp only [Expr.marked, List.append_assoc, List.cons_append]
    exact .keyword .letBlock hdecls hindent
  | lambda _ _ _ hpatterns _ ihBody =>
    intro indent blocks depth marked hindent hdepth hends hmarked
    have hbody := ihBody.nested hindent hdepth (hends.resolve_left nofun) hmarked
    have hnone : WordSteps blocks depth [] depth := rfl
    have harguments := wordSteps_each hnone fun p hp => wordSteps_pattern (hpatterns p hp) hdepth
    rw [Expr.marked, List.append_assoc]
    exact hbody.line ⟨depth, .plain (isPlainWord_symbol "\\" (by decide)),
      harguments.append (wordSteps_plain (isPlainWord_symbol "->" (by decide)))⟩ hindent

end ElmLint.Layout
