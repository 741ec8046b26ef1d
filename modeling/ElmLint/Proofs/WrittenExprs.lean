import ElmLint.Proofs.WrittenPatterns

/-!
# Reading the expressions of a rendering

The signs of an expression, its words and the markers of its blocks, are read back as the expression, apart from its place, when
something comes after them that ends expressions (`Grammar.exprReadBack`). As with patterns, the proof goes by the rules that an
expression is read by (`Grammar.ExprReadBack`): an atom is read whatever comes after it, an operand up to what begins no argument, and
a chain of operators, which groups to the left, up to what is no operator.
-/

namespace ElmLint

/-! ## Signs of expressions -/

/-- The signs of a rendering: its words and markers. -/
def signsOf (spots : List (Marker ⊕ Spot)) : List Sign := spots.map (Sum.map id Spot.word)

@[simp]
theorem signsOf_nil : signsOf [] = [] := rfl

@[simp]
theorem signsOf_append (l l' : List (Marker ⊕ Spot)) : signsOf (l ++ l') = signsOf l ++ signsOf l' := List.map_append

@[simp]
theorem signsOf_marker (m : Marker) (l : List (Marker ⊕ Spot)) : signsOf (.inl m :: l) = .inl m :: signsOf l := rfl

@[simp]
theorem signsOf_lineOf (indent : Nat) (words : List (List Char)) : signsOf (lineOf indent words) = words.map .inr := by
  cases words with
  | nil => rfl
  | cons w ws => simp [lineOf, signsOf, Function.comp_def]

@[simp]
theorem signsOf_wordLine (indent : Nat) (word : String) : signsOf (wordLine indent word) = [.inr word.toList] :=
  signsOf_lineOf indent [word.toList]

namespace Expr

/-- The signs of an expression at an indentation. -/
def signs (style : Style) (indent : Nat) (e : Expr) : List Sign := signsOf (e.marked style indent)

variable (style : Style) (indent : Nat)

theorem signsOf_markedEach (before : List (Marker ⊕ Spot)) (es : List Expr) :
    signsOf (markedEach style before indent es) = es.flatMap fun e => signsOf before ++ e.signs style indent := by
  induction es with
  | nil => simp [markedEach]
  | cons e es ih => simp [markedEach, ih, signs]

/-- The signs of an arm. -/
def armSigns (arm : Arm Expr) : List Sign :=
  (arm.pattern.words style).map .inr ++ .inr ['-', '>'] :: arm.body.signs style (indent + style.indent)

theorem signsOf_markedArms (marker : Marker) (arm : Arm Expr) (arms : List (Arm Expr)) :
    signsOf (markedArms style marker indent (arm :: arms)) =
      .inl marker :: (armSigns style indent arm ++ arms.flatMap fun arm => .inl .separating :: armSigns style indent arm) := by
  induction arms generalizing marker arm with
  | nil => simp [markedArms, armSigns, signs]
  | cons next arms ih =>
    rw [markedArms, signsOf_marker, signsOf_append, signsOf_append, ih]
    simp [armSigns, signs]

/-- The signs of a declaration without an annotation. -/
def declSigns : LetDecl Expr → List Sign
  | .function decl =>
    .inr decl.name.toList :: ((Pattern.wordsEach style [] decl.arguments).map .inr ++
      .inr ['='] :: decl.body.signs style (indent + style.indent))
  | .destructuring pattern value _ =>
    (pattern.words style).map .inr ++ .inr ['='] :: value.signs style (indent + style.indent)

theorem signsOf_markedDecls (marker : Marker) (decl : LetDecl Expr) (decls : List (LetDecl Expr)) :
    signsOf (markedDecls style marker indent (decl :: decls)) =
      .inl marker :: (declSigns style indent decl ++ decls.flatMap fun decl => .inl .separating :: declSigns style indent decl) := by
  induction decls generalizing marker decl with
  | nil => cases decl <;> simp [markedDecls, declSigns, signs]
  | cons next decls ih =>
    cases decl with
    | function decl =>
      rw [markedDecls, signsOf_marker, signsOf_append, signsOf_append, ih]
      simp [declSigns, signs]
    | destructuring pattern value range =>
      rw [markedDecls, signsOf_marker, signsOf_append, signsOf_append, ih]
      simp [declSigns, signs]

end Expr

namespace Grammar

variable {locate : Locate} {α β γ : Type} {signs : List Sign}

/-! ## What ends expressions -/

/-- The signs that come after expressions. -/
def exprEnds : List Sign :=
  [.inl .separating, .inl .closing, .inr [')'], .inr [']'], .inr [','], .inr ['t', 'h', 'e', 'n'], .inr ['e', 'l', 's', 'e'],
    .inr ['o', 'f']]

theorem then_mem_exprEnds : .inr ['t', 'h', 'e', 'n'] ∈ exprEnds := by simp [exprEnds]

theorem else_mem_exprEnds : .inr ['e', 'l', 's', 'e'] ∈ exprEnds := by simp [exprEnds]

theorem of_mem_exprEnds : .inr ['o', 'f'] ∈ exprEnds := by simp [exprEnds]

/-- A sign that ends expressions comes next, or nothing. -/
def EndsExpr (signs : List Sign) : Prop := ∀ sign ∈ signs.head?, sign ∈ exprEnds

theorem endsExpr_nil : EndsExpr [] := fun _ h => nomatch h

theorem endsExpr_cons {sign : Sign} (h : sign ∈ exprEnds) (signs : List Sign) : EndsExpr (sign :: signs) :=
  fun _ hsign => Option.some.inj hsign ▸ h

theorem EndsExpr.misses_operator (h : EndsExpr signs) : Misses locate (Flush signs) operator := by
  refine misses_flush rfl fun c hc => ?_
  cases signs with
  | nil => cases hc
  | cons sign signs =>
    have hends : ∀ sign ∈ exprEnds, (firstChar? [sign]).any operator.begins = false := by decide
    refine (Option.any_eq_false _ _).1 (hends sign (h sign rfl)) c ?_
    cases sign <;> exact hc

theorem misses_postfixAtom {P : List Char → Prop} (h : Misses locate P (atom locate)) : Misses locate P (rule .postfixAtom) :=
  misses_rule (misses_rule h).seq.map

/-- Before a letter, an atom is a reference. -/
theorem LetterStart.takes_atom {R : Expr → Prop} {Q : List Char → Prop} (h : LetterStart locate signs)
    (hreference : Takes locate (Flush signs) (reference locate) R Q) : Takes locate (Flush signs) (atom locate) R Q :=
  Misses.orElse (h.literal.orElse_misses h.paren.andThen.andThen.map).node (Misses.orElse (misses_between h.paren).node
    (Misses.orElse (misses_between h.paren).node (Misses.orElse (misses_between h.bracket).node
      (Misses.orElse (misses_between h.brace).node (Misses.orElse (misses_between h.brace).node
        (Misses.orElse h.field.map.node hreference))))))

/-- No atom begins with a keyword. -/
theorem misses_atom_keyword (word : String) (h : word ∈ ["then", "else", "of"]) :
    Misses locate (Flush (.inr word.toList :: signs)) (atom locate) := by
  have hall : ∀ word ∈ ["then", "else", "of"], word ∈ keywords ∧ word.toList.head?.all isLetter = true := by decide
  have hletter : LetterStart locate (.inr word.toList :: signs) := letterStart ((Option.all_eq_true _ _).1 (hall word h).2)
  have hreference : Misses locate (Flush (.inr word.toList :: signs)) (reference locate) :=
    (takes_lexeme_of_reads (reads_keyword word (hall word h).1)).without.andThen.node
  exact (hletter.literal.orElse_misses hletter.paren.andThen.andThen.map).node.orElse_misses
    ((misses_between hletter.paren).node.orElse_misses ((misses_between hletter.paren).node.orElse_misses
      ((misses_between hletter.bracket).node.orElse_misses ((misses_between hletter.brace).node.orElse_misses
        ((misses_between hletter.brace).node.orElse_misses (hletter.field.map.node.orElse_misses hreference))))))

theorem EndsExpr.misses_atom (h : EndsExpr signs) : Misses locate (Flush signs) (rule .postfixAtom) := by
  apply misses_postfixAtom
  cases signs with
  | nil => exact misses_flush rfl fun c hc => nomatch hc
  | cons sign signs =>
    have hends := h sign rfl
    simp only [exprEnds, List.mem_cons, List.not_mem_nil, or_false] at hends
    rcases hends with rfl | rfl | rfl | rfl | rfl | rfl | rfl | rfl
    · exact misses_flush rfl fun c hc => Option.some.inj hc ▸ rfl
    · exact misses_flush rfl fun c hc => Option.some.inj hc ▸ rfl
    · exact misses_at rfl rfl
    · exact misses_at rfl rfl
    · exact misses_at rfl rfl
    · exact misses_atom_keyword "then" (by decide)
    · exact misses_atom_keyword "else" (by decide)
    · exact misses_atom_keyword "of" (by decide)

/-- No atom begins with an operator. -/
theorem misses_atom_operator {op : String} (hop : op ∈ operators) :
    Misses locate (Flush (.inr op.toList :: signs)) (rule .postfixAtom) := by
  have hall : (operators.all fun op => op.toList.head?.all fun c => !(atom locate).begins c) = true := rfl
  refine misses_postfixAtom (misses_flush rfl fun c hc => ?_)
  have hbegins := List.all_eq_true.1 hall op hop
  rw [show op.toList.head? = some c from hc] at hbegins
  simpa using hbegins

theorem takes_operator {op : String} (hop : op ∈ operators) :
    Takes locate (Flush (.inr op.toList :: signs)) operator (· = op) (After signs) := by
  have hreads : ∀ op ∈ operators, Lexeme.operator.length? op.toList = some op.toList.length ∧ op.toList.all isSolid = true := by decide
  refine (takes_lexeme_of_reads (Lexeme.readsWord_of_solid (hreads op hop).2 rfl (hreads op hop).1)).map fun _ heq => ?_
  rw [heq, String.ofList_toList]

/-! ## Atoms -/

/-- No field is accessed after the end of a word. -/
theorem misses_fieldAccess : Misses locate (After signs) fieldAccess := by
  refine misses_of_begins rfl fun cs hcs d hd => beq_eq_false_iff_ne.2 ?_
  rintro rfl
  exact absurd (hcs.1 '.' hd) (by decide)

theorem takes_postfixAtom {P : List Char → Prop} {R : Expr → Prop} (h : Takes locate P (atom locate) R (After signs)) :
    Takes locate P (rule .postfixAtom) R (After signs) := by
  refine takes_rule (((takes_rule h).seq misses_fieldAccess.node.many).map ?_)
  rintro ⟨e, _⟩ ⟨he, rfl⟩
  exact he

/-- None of the words by which operands other than atoms and applications begin comes next. -/
structure PlainStart (locate : Locate) (signs : List Sign) : Prop where
  lambda : Misses locate (Flush signs) (symbol "\\")
  conditional : Misses locate (Flush signs) (word "if")
  caseOf : Misses locate (Flush signs) (word "case")
  letIn : Misses locate (Flush signs) (word "let")
  negation : Misses locate (Flush signs) (symbol "-")

/-- Before something that begins plainly, an operand is an atom with its arguments. -/
theorem PlainStart.takes_operand {R : Expr → Prop} {Q : List Char → Prop} (h : PlainStart locate signs)
    (happlication : Takes locate (Flush signs) (application locate) R Q) : Takes locate (Flush signs) (rule .operand) R Q :=
  takes_rule (Misses.orElse h.lambda.andThen.andThen.seq.node (Misses.orElse h.conditional.andThen.andThen.seq.node
    (Misses.orElse h.caseOf.andThen.andThen.seq.node (Misses.orElse h.letIn.andThen.andThen.seq.node
      (Misses.orElse h.negation.andThen.node happlication)))))

/-- A sign that begins expressions comes next: it begins with no closing parenthesis, and with no operator. -/
def BeginsExpr (signs : List Sign) : Prop :=
  ∃ w rest, signs = .inr w :: rest ∧ ∀ c ∈ w.head?, c ≠ ')' ∧ operator.begins c = false

/-- An operator with an operand after it, which stands at some indentation. -/
structure Link where
  operator : String
  indent : Nat
  operand : Expr

/-- The signs of operators and operands. -/
def linkSigns (style : Style) (links : List Link) : List Sign :=
  links.flatMap fun link => .inr link.operator.toList :: link.operand.signs style link.indent

/-- An expression with more operands, without places. -/
def withLinks (e : Expr) (links : List Link) : Expr :=
  links.foldl (fun left link => .binary link.operator left link.operand.bare default) e

/-- An operand is read back. -/
def ReadsOperand (locate : Locate) (style : Style) (indent : Nat) (e : Expr) : Prop :=
  ∀ signs, Misses locate (Flush signs) (rule .postfixAtom) → (e.isOpen = true → EndsExpr signs) →
    Takes locate (Flush (e.signs style indent ++ signs)) (rule .operand) (·.bare = e.bare) (Indented signs)

/-- Operators and operands that are read back. Only the last operand takes in what comes after it. -/
def ReadsLinks (locate : Locate) (style : Style) : List Link → Prop
  | [] => True
  | link :: links => link.operator ∈ operators ∧ ReadsOperand locate style link.indent link.operand ∧
      (links ≠ [] → link.operand.isOpen = false) ∧ ReadsLinks locate style links

/-- How an expression is read back by the rules for expressions that it is one of. -/
structure ExprReadBack (locate : Locate) (style : Style) (e : Expr) : Prop where
  begins : ∀ indent, BeginsExpr (e.signs style indent)
  atom : e.isAtomic = true → ∀ indent signs, PlainStart locate (e.signs style indent ++ signs) ∧
    Takes locate (Flush (e.signs style indent ++ signs)) (rule .postfixAtom) (·.bare = e.bare) (After signs)
  operand : e.isBinary = false → ∀ indent, ReadsOperand locate style indent e
  whole : ∀ indent links signs, ReadsLinks locate style links → (links ≠ [] → e.endsOpen = false) → EndsExpr signs →
    Takes locate (Flush (e.signs style indent ++ (linkSigns style links ++ signs))) (rule .expr) (·.bare = withLinks e.bare links)
      (Indented signs)

section ReadBack

variable {style : Style} {e : Expr}

/-- What comes after an operand ends its arguments. -/
theorem ReadsLinks.misses_atom {links : List Link} (h : ReadsLinks locate style links) (hends : EndsExpr signs) :
    Misses locate (Flush (linkSigns style links ++ signs)) (rule .postfixAtom) := by
  cases links with
  | nil => exact hends.misses_atom
  | cons link links => exact misses_atom_operator h.1

/-- Operators and operands are read one by one. -/
theorem takes_links {links : List Link} (h : ReadsLinks locate style links) (hends : EndsExpr signs) :
    Takes locate (Indented (linkSigns style links ++ signs)) (.many (.seq (gap *> operator) (gap *> rule .operand)))
      (fun vs => vs.map (fun v => (v.1, v.2.bare)) = links.map fun link => (link.operator, link.operand.bare)) (Indented signs) := by
  have hmany : Takes locate (fun cs => ReadsLinks locate style links ∧ Indented (linkSigns style links ++ signs) cs)
      (.many (.seq (gap *> operator) (gap *> rule .operand)))
      (fun vs => vs.map (fun v => (v.1, v.2.bare)) = links.map fun link => (link.operator, link.operand.bare))
      (fun cs => ReadsLinks locate style [] ∧ Indented signs cs) := by
    refine takes_many (P := fun links cs => ReadsLinks locate style links ∧ Indented (linkSigns style links ++ signs) cs) rfl ?_
      (fun _ _ _ h => not_indented_nil h.2) ?_
    · intro link _ later
      refine Takes.of_pure fun ⟨hop, hoperand, hopen, hlater⟩ => ⟨hlater, ?_⟩
      have hlast : link.operand.isOpen = true → EndsExpr (linkSigns style later ++ signs) := by
        cases later with
        | nil => exact fun _ => hends
        | cons _ _ =>
          intro h
          rw [hopen (List.cons_ne_nil _ _)] at h
          cases h
      have hread := hoperand _ (hlater.misses_atom hends) hlast
      have hboth := (takes_gap.andThen (takes_operator hop)).seq ((takes_gap.of fun _ => After.indented).andThen hread)
      rw [linkSigns, List.flatMap_cons, List.append_assoc, List.cons_append]
      exact hboth.imp fun v hv => by rw [hv.1, hv.2]
    · have hnone : Misses locate (Flush signs) operator := hends.misses_operator
      exact (takes_gap.andThen_misses hnone).seq.of fun _ hcs => hcs.2
  exact hmany.mono (fun cs hcs => ⟨h, hcs⟩) (fun _ => id) fun _ hcs => hcs.2

theorem bare_foldl_binary (vs : List (String × Expr)) (e : Expr) :
    (vs.foldl (fun left (op, right) => .binary op left right ⟨left.range.start, right.range.stop⟩) e).bare =
      (vs.map fun v => (v.1, v.2.bare)).foldl (fun left v => .binary v.1 left v.2 default) e.bare := by
  induction vs generalizing e with
  | nil => rfl
  | cons v vs ih =>
    rw [List.foldl_cons, ih]
    rfl

/-- An expression without operators outside parentheses. -/
theorem ExprReadBack.of_operand (hbinary : e.isBinary = false) (hbegins : ∀ indent, BeginsExpr (e.signs style indent))
    (hatom : e.isAtomic = true → ∀ indent signs, PlainStart locate (e.signs style indent ++ signs) ∧
      Takes locate (Flush (e.signs style indent ++ signs)) (rule .postfixAtom) (·.bare = e.bare) (After signs))
    (hoperand : ∀ indent, ReadsOperand locate style indent e) : ExprReadBack locate style e := by
  refine ⟨hbegins, hatom, fun _ => hoperand, fun indent links signs hlinks hopen hends => ?_⟩
  have hlast : e.isOpen = true → EndsExpr (linkSigns style links ++ signs) := by
    cases links with
    | nil => exact fun _ => hends
    | cons _ _ =>
      intro h
      have hclosed := hopen (List.cons_ne_nil _ _)
      cases e <;> simp_all [Expr.endsOpen, Expr.isBinary]
  have hfirst := hoperand indent (linkSigns style links ++ signs) (hlinks.misses_atom hends) hlast
  refine takes_rule ((hfirst.seq (takes_links hlinks hends)).map fun v hv => ?_)
  rw [bare_foldl_binary, hv.1, hv.2, List.foldl_map]
  rfl

theorem ExprReadBack.expr (h : ExprReadBack locate style e) (indent : Nat) (hends : EndsExpr signs) :
    Takes locate (Flush (e.signs style indent ++ signs)) (rule .expr) (·.bare = e.bare) (Indented signs) :=
  h.whole indent [] signs trivial (fun hne => absurd rfl hne) hends

/-- Arguments are read one by one. -/
theorem takes_atoms {es : List Expr} (indent : Nat) (hatomic : ∀ x ∈ es, x.isAtomic = true)
    (hes : ∀ x ∈ es, ExprReadBack locate style x) (hend : Misses locate (Flush signs) (rule .postfixAtom)) :
    Takes locate (Indented (es.flatMap (Expr.signs style indent) ++ signs)) (.many (gap *> rule .postfixAtom))
      (fun vs => vs.map Expr.bare = es.map Expr.bare) (Indented signs) := by
  refine takes_many (P := fun es => Indented (es.flatMap (Expr.signs style indent) ++ signs)) rfl (fun x hx later => ?_)
    (fun x hx later h => ?_) (takes_gap.andThen_misses hend)
  · have hatom := ((hes x hx).atom (hatomic x hx) indent (later.flatMap (Expr.signs style indent) ++ signs)).2
    rw [List.flatMap_cons, List.append_assoc]
    exact (takes_gap.andThen hatom).leaves fun _ => After.indented
  · obtain ⟨w, rest, hw, -⟩ := (hes x hx).begins indent
    rw [List.flatMap_cons, hw] at h
    exact not_indented_nil h

/-- An atom with arguments, or alone. -/
theorem takes_application {es : List Expr} {function : List Sign} {bare : Expr} (indent : Nat) (hatomic : ∀ x ∈ es, x.isAtomic = true)
    (hes : ∀ x ∈ es, ExprReadBack locate style x) (hend : Misses locate (Flush signs) (rule .postfixAtom))
    (hplain : PlainStart locate (function ++ (es.flatMap (Expr.signs style indent) ++ signs)))
    (hfunction : Takes locate (Flush (function ++ (es.flatMap (Expr.signs style indent) ++ signs))) (rule .postfixAtom) (·.bare = bare)
      (After (es.flatMap (Expr.signs style indent) ++ signs))) :
    Takes locate (Flush (function ++ (es.flatMap (Expr.signs style indent) ++ signs))) (rule .operand)
      (·.bare = if es.isEmpty then bare else .application bare (es.map Expr.bare) default) (Indented signs) := by
  refine hplain.takes_operand ((hfunction.seq ((takes_atoms indent hatomic hes hend).of fun _ => After.indented)).node ?_)
  rintro i j ⟨v, vs⟩ ⟨hv : Expr.bare v = bare, hvs : vs.map Expr.bare = _⟩
  cases es with
  | nil =>
    rw [List.map_eq_nil_iff.1 hvs]
    exact hv
  | cons x es =>
    obtain ⟨v', vs', rfl, -⟩ := List.map_eq_cons_iff.1 hvs
    simp only [List.isEmpty_cons, Bool.false_eq_true, if_false]
    rw [Expr.bare, Expr.bareEach_eq_map, hv, hvs]

/-- An expression that needs no parentheses anywhere. -/
theorem ExprReadBack.of_atom (hatomic : e.isAtomic = true) (hbegins : ∀ indent, BeginsExpr (e.signs style indent))
    (hplain : ∀ indent signs, PlainStart locate (e.signs style indent ++ signs))
    (hatom : ∀ indent signs, Takes locate (Flush (e.signs style indent ++ signs)) (Grammar.atom locate) (·.bare = e.bare)
      (After signs)) : ExprReadBack locate style e := by
  have hbinary : e.isBinary = false := by cases e <;> first | rfl | cases hatomic
  refine .of_operand hbinary hbegins (fun _ indent signs => ⟨hplain indent signs, takes_postfixAtom (hatom indent signs)⟩) ?_
  intro indent signs hend _
  have hnone : ∀ x ∈ ([] : List Expr), ExprReadBack locate style x := List.forall_mem_nil _
  exact takes_application indent (List.forall_mem_nil _) hnone hend (hplain indent signs) (takes_postfixAtom (hatom indent signs))

/-- Expressions with commas between them and a closing bracket after them. -/
theorem takes_exprs {es : List Expr} (hes : ∀ x ∈ e :: es, ExprReadBack locate style x) (indent : Nat) {close : List Char}
    (hclose : close ∈ [[')'], [']']]) :
    Takes locate (Flush (signsOf (Expr.markedElements style indent (e :: es)) ++ .inr close :: signs)) exprList
      (fun vs => vs.map Expr.bare = (e :: es).map Expr.bare) (Indented (.inr close :: signs)) := by
  have hends : ∀ later, EndsAt [[','], close] later → EndsExpr later := by
    intro later hlater sign hsign
    obtain ⟨word, hword, rfl⟩ := hlater sign hsign
    simp only [List.mem_cons, List.not_mem_nil, or_false] at hclose hword
    rcases hword with rfl | rfl
    · simp [exprEnds]
    · rcases hclose with rfl | rfl <;> simp [exprEnds]
  have hbrackets : [[')'], [']']] ⊆ [[')'], [']'], ['}']] := by decide
  rw [Expr.markedElements, signsOf_append, Expr.signsOf_markedEach, List.append_assoc]
  exact takes_commaList (fun x : Expr => x.signs style (indent + style.indent)) rfl (hbrackets hclose)
    fun x hx later hlater => (hes x hx).expr _ (hends later hlater)

end ReadBack

/-! ## One kind of atom after another -/

section Atoms

variable {style : Style}

/-- What begins with a character of a class that no operator and no closing parenthesis is in. -/
theorem beginsExpr_of {p : Char → Bool} {w : List Char} {rest : List Sign} (hclose : p ')' = false)
    (hop : (operators.all fun op => op.toList.head?.all fun c => !p c) = true) (h : ∀ c ∈ w.head?, p c = true) :
    BeginsExpr (.inr w :: rest) := by
  refine ⟨w, rest, rfl, fun c hc => ⟨?_, ?_⟩⟩
  · rintro rfl
    rw [h _ hc] at hclose
    cases hclose
  · refine List.any_eq_false.2 fun op hmem hbegins => ?_
    have hnot := List.all_eq_true.1 hop op hmem
    rw [beq_iff_eq.1 hbegins] at hnot
    simp [h c hc] at hnot

theorem plainStart_of_isLiteralStart (hfirst : ∀ c ∈ firstChar? signs, isLiteralStart c = true) : PlainStart locate signs := by
  have hmisses : ∀ l : Lexeme, l.isNullable = false → (∀ c, l.begins c = true → isLiteralStart c = false) →
      Misses locate (Flush signs) (.lexeme l) := fun l hl h => misses_of_class l hl h hfirst
  constructor <;> exact hmisses _ rfl fun c hc => Option.some.inj (beq_iff_eq.1 hc) ▸ by decide +kernel

theorem exprReadBack_unit (range : SourceRange) : ExprReadBack locate style (.literal .unit range) := by
  refine .of_atom rfl (fun indent => beginsExpr_of (p := (· == '(')) rfl (by decide) fun c hc => Option.some.inj hc ▸ rfl)
    (fun indent signs => ?_) fun indent signs => ?_
  · constructor <;> exact misses_at rfl rfl
  · refine Takes.orElse (Takes.node (Misses.orElse (misses_at rfl rfl) takes_unit) fun _ _ _ hv => hv ▸ rfl)

theorem exprReadBack_literal {value : Literal} (range : SourceRange) (h : value.Renderable style) :
    ExprReadBack locate style (.literal value range) := by
  by_cases hunit : value = .unit
  · exact hunit ▸ exprReadBack_unit range
  have hsigns : ∀ indent, Expr.signs style indent (.literal value range) = (value.words style).map .inr := fun indent => by
    simp [Expr.signs, Expr.marked]
  have hfirst := fun signs => firstChar?_literal signs h hunit
  refine .of_atom rfl (fun indent => ?_) (fun indent signs => ?_) fun indent signs => ?_
  · obtain ⟨w, hw⟩ : ∃ w, value.words style = [w] := exists_words_literal hunit
    rw [hsigns, hw]
    exact beginsExpr_of (p := isLiteralStart) (by decide +kernel) (by decide +kernel) fun c hc => hfirst [] c (by rw [hw]; exact hc)
  · rw [hsigns]
    exact plainStart_of_isLiteralStart (hfirst signs)
  · rw [hsigns]
    exact Takes.orElse ((takes_literal h hunit).orElse.node fun _ _ _ hv => hv ▸ rfl)

/-- A name with a qualifier, or a capitalised one, begins with a capital letter; any other is no keyword. -/
theorem qualifiedWord_cases {qualifier : ModuleName} {name : String} (hqualifier : ∀ segment ∈ qualifier, IsUpperName segment)
    (hname : IsUpperName name ∨ IsLowerName name) : (∀ c ∈ (qualifiedWord qualifier name).head?, isUpper c = true) ∨
      qualifiedWord qualifier name = name.toList ∧ IsLowerName name := by
  cases qualifier with
  | nil =>
    have hword : qualifiedWord [] name = name.toList := by rw [qualifiedWord_eq]; exact List.intercalate_singleton
    refine hname.imp (fun h => ?_) fun h => ⟨hword, h⟩
    obtain ⟨c, cs, heq, hc, -⟩ := h
    rw [hword, heq]
    exact fun _ hd => Option.some.inj hd ▸ hc
  | cons segment qualifier =>
    obtain ⟨c, cs, heq, hc, -⟩ := hqualifier segment List.mem_cons_self
    obtain ⟨next, more, hmore⟩ : ∃ next more, (qualifier ++ [name]).map String.toList = next :: more :=
      List.exists_cons_of_ne_nil (by simp)
    rw [qualifiedWord_eq, List.cons_append, List.map_cons, hmore, List.intercalate_cons_cons, heq]
    exact .inl fun _ hd => Option.some.inj hd ▸ hc

theorem exprReadBack_reference {qualifier : ModuleName} {name : String} (range : SourceRange)
    (hqualifier : ∀ segment ∈ qualifier, IsUpperName segment) (hname : IsUpperName name ∨ IsLowerName name) :
    ExprReadBack locate style (.reference qualifier name range) := by
  have hletter : ∀ c ∈ (qualifiedWord qualifier name).head?, isLetter c = true := (reads_path_qualifiedWord hqualifier hname).begins
  have hcapital : ∀ word ∈ keywords, word.toList.head?.any isUpper = false := by decide
  have hkeyword : ∀ signs, Misses locate (Flush (.inr (qualifiedWord qualifier name) :: signs)) (.lexeme .keyword) := by
    intro signs
    rcases qualifiedWord_cases hqualifier hname with hupper | ⟨hword, hlower⟩
    · refine misses_of_class _ rfl (fun c hc => ?_) hupper
      obtain ⟨word, hword, hhead⟩ := List.any_eq_true.1 hc
      exact (Option.any_eq_false _ _).1 (hcapital word hword) c (beq_iff_eq.1 hhead)
    · rw [hword]
      exact misses_lexeme_of_misses hlower.misses_keyword
  have hword : ∀ word ∈ keywords, word.toList.all isSolid = true → word.toList ≠ [] → ∀ signs,
      Misses locate (Flush (.inr (qualifiedWord qualifier name) :: signs)) (Grammar.word word) := by
    intro word hmem hsolid hne signs
    rcases qualifiedWord_cases hqualifier hname with hupper | ⟨hword, hlower⟩
    · refine misses_of_class _ (by simpa [Lexeme.isNullable] using hne) (fun c hc => ?_) hupper
      exact (Option.any_eq_false _ _).1 (hcapital word hmem) c (beq_iff_eq.1 hc)
    · rw [hword]
      exact misses_lexeme_of_misses (missesWord_word hlower.isNameChar hsolid (hlower.ne_of_mem_keywords hmem))
  have hdots : ∀ segment ∈ qualifier ++ [name], '.' ∉ segment.toList := by
    intro segment hsegment
    have hchars : IsUpperName segment ∨ IsLowerName segment := by
      rcases List.mem_append.1 hsegment with hs | hs
      · exact .inl (hqualifier segment hs)
      · exact List.mem_singleton.1 hs ▸ hname
    exact dot_notMem (hchars.elim (fun h => IsName.isNameChar h fun _ => isNameChar_of_isUpper) IsLowerName.isNameChar)
  have hpath : ∀ signs, Takes locate (Flush (.inr (qualifiedWord qualifier name) :: signs)) (.map qualified (.lexeme .path))
      (· = (qualifier, name)) (After signs) := fun signs =>
    (takes_lexeme_of_reads (reads_path_qualifiedWord hqualifier hname)).map fun _ heq => heq ▸ qualified_qualifiedWord hdots
  refine .of_atom rfl (fun indent => ?_) (fun indent signs => ?_) fun indent signs => ?_
  · exact beginsExpr_of (p := isLetter) rfl (by decide) hletter
  · exact ⟨misses_of_class _ rfl (fun c hc => Option.some.inj (beq_iff_eq.1 hc) ▸ rfl) hletter,
      hword "if" (by decide) (by decide) (by decide) signs, hword "case" (by decide) (by decide) (by decide) signs,
      hword "let" (by decide) (by decide) (by decide) signs,
      misses_of_class _ rfl (fun c hc => Option.some.inj (beq_iff_eq.1 hc) ▸ rfl) hletter⟩
  · have hstart : LetterStart locate (.inr (qualifiedWord qualifier name) :: signs) := letterStart hletter
    exact hstart.takes_atom (((hkeyword signs).without.andThen (hpath signs)).node fun _ _ _ hv => hv ▸ rfl)

/-- What stands between parentheses: one expression, or the elements of a tuple. -/
theorem takes_exprGroup {e : Expr} {es : List Expr} (hes : ∀ x ∈ e :: es, ExprReadBack locate style x) (indent : Nat) {R : Expr → Prop}
    (hR : ∀ i j (vs : List Expr), vs.map Expr.bare = (e :: es).map Expr.bare → R (match vs with
      | [inner] => .parenthesized inner (locate i j)
      | elements => .tuple elements (locate i j))) :
    Takes locate (Flush (.inr ['('] :: (signsOf (Expr.markedElements style indent (e :: es)) ++ .inr [')'] :: signs))) (atom locate)
      R (After signs) := by
  obtain ⟨w, rest, hw, hfirst⟩ := (hes e List.mem_cons_self).begins (indent + style.indent)
  have hinner : signsOf (Expr.markedElements style indent (e :: es)) ++ .inr [')'] :: signs =
      .inr w :: (rest ++ signsOf (Expr.markedEach style (wordLine indent ",") (indent + style.indent) es) ++ .inr [')'] :: signs) := by
    rw [Expr.markedElements, signsOf_append, ← Expr.signs, hw, List.cons_append, List.cons_append]
  have hopen : Takes locate (Flush (.inr ['('] :: (signsOf (Expr.markedElements style indent (e :: es)) ++ .inr [')'] :: signs)))
      (symbol "(" *> gap) (fun _ => True) (Flush (signsOf (Expr.markedElements style indent (e :: es)) ++ .inr [')'] :: signs)) :=
    (takes_symbol "(" (by decide)).andThen (takes_gap.of fun _ => After.indented)
  have hunit : Misses locate (Flush (.inr ['('] :: (signsOf (Expr.markedElements style indent (e :: es)) ++ .inr [')'] :: signs)))
      unit := by
    refine (hopen.andThen_misses ?_).map
    rw [hinner]
    refine misses_flush rfl fun c hc => beq_eq_false_iff_ne.2 fun (heq : some ')' = some c) => ?_
    exact (hfirst c hc).1 (Option.some.inj heq).symm
  have hoperator : Misses locate (Flush (.inr ['('] :: (signsOf (Expr.markedElements style indent (e :: es)) ++ .inr [')'] :: signs)))
      (operatorFunction locate) := by
    refine Misses.node (Misses.andSkip (Misses.andSkip (hopen.andThen_misses ?_)))
    rw [hinner]
    exact misses_flush rfl fun c hc => (hfirst c hc).2
  refine Misses.orElse (Misses.orElse_misses (misses_at rfl rfl) hunit).node (Misses.orElse hoperator (Takes.orElse ?_))
  exact (takes_between "(" ")" (by decide) (by decide) (takes_exprs hes indent (by simp))).node hR

theorem beginsExpr_symbol {c : Char} {rest : List Sign} (hclose : c ≠ ')') (hop : operator.begins c = false) :
    BeginsExpr (.inr [c] :: rest) :=
  ⟨[c], rest, rfl, fun _ hd => Option.some.inj hd ▸ ⟨hclose, hop⟩⟩

theorem exprReadBack_parenthesized {inner : Expr} (range : SourceRange) (h : ExprReadBack locate style inner) :
    ExprReadBack locate style (.parenthesized inner range) := by
  refine .of_atom rfl (fun indent => beginsExpr_symbol (by decide) rfl) (fun indent signs => ?_) fun indent signs => ?_
  · constructor <;> exact misses_at rfl rfl
  have hgroup : Takes locate (Flush (.inr ['('] :: (signsOf (Expr.markedElements style indent [inner]) ++ .inr [')'] :: signs)))
      (atom locate) (·.bare = .parenthesized inner.bare default) (After signs) :=
    takes_exprGroup (List.forall_mem_singleton.2 h) indent fun i j vs hvs => ?_
  · simpa [Expr.signs, Expr.marked, Expr.markedElements, Expr.markedEach, Expr.bare] using hgroup
  · obtain ⟨v, rfl, hv⟩ := List.map_eq_singleton_iff.1 hvs
    rw [Expr.bare, hv]

theorem exprReadBack_tuple {elements : List Expr} (range : SourceRange) (hlength : 2 ≤ elements.length)
    (h : ∀ e ∈ elements, ExprReadBack locate style e) : ExprReadBack locate style (.tuple elements range) := by
  refine .of_atom rfl (fun indent => beginsExpr_symbol (by decide) rfl) (fun indent signs => ?_) fun indent signs => ?_
  · constructor <;> exact misses_at rfl rfl
  obtain ⟨e, e', es, rfl⟩ : ∃ e e' es, elements = e :: e' :: es := by
    match elements, hlength with
    | e :: e' :: es, _ => exact ⟨e, e', es, rfl⟩
  have hgroup : Takes locate (Flush (.inr ['('] :: (signsOf (Expr.markedElements style indent (e :: e' :: es)) ++ .inr [')'] :: signs)))
      (atom locate) (·.bare = .tuple ((e :: e' :: es).map Expr.bare) default) (After signs) :=
    takes_exprGroup h indent fun i j vs hvs => ?_
  · simpa [Expr.signs, Expr.marked, Expr.bare, Expr.bareEach_eq_map] using hgroup
  · obtain ⟨v, vs', rfl, -, hvs'⟩ := List.map_eq_cons_iff.1 hvs
    obtain ⟨v', vs, rfl, -, -⟩ := List.map_eq_cons_iff.1 hvs'
    rw [Expr.bare, Expr.bareEach_eq_map, hvs]

/-- No expression begins with a closing bracket. -/
theorem misses_expr_bracket : Misses locate (Flush (.inr [']'] :: signs)) (rule .expr) := by
  have hatom : Misses locate (Flush (.inr [']'] :: signs)) (rule .postfixAtom) := misses_postfixAtom (misses_at rfl rfl)
  have hoperand : Misses locate (Flush (.inr [']'] :: signs)) (rule .operand) :=
    misses_rule (Misses.orElse_misses (misses_at rfl rfl) (Misses.orElse_misses (misses_at rfl rfl) (Misses.orElse_misses
      (misses_at rfl rfl) (Misses.orElse_misses (misses_at rfl rfl) (Misses.orElse_misses (misses_at rfl rfl) hatom.seq.node)))))
  exact misses_rule hoperand.seq.map

theorem exprReadBack_list {elements : List Expr} (range : SourceRange) (h : ∀ e ∈ elements, ExprReadBack locate style e) :
    ExprReadBack locate style (.list elements range) := by
  refine .of_atom rfl (fun indent => beginsExpr_symbol (by decide) rfl) (fun indent signs => ?_) fun indent signs => ?_
  · constructor <;> exact misses_at rfl rfl
  have hitems : Takes locate (Flush (signsOf (Expr.markedElements style indent elements) ++ .inr [']'] :: signs)) (.opt exprList)
      (fun vs => (vs.getD []).map Expr.bare = elements.map Expr.bare) (Indented (.inr [']'] :: signs)) := by
    cases elements with
    | nil =>
      have hmisses : Misses locate (Flush (.inr [']'] :: signs)) exprList := Misses.map (Misses.seq misses_expr_bracket)
      exact (hmisses.opt.imp fun vs hvs => hvs ▸ rfl).leaves fun _ => Flush.indented
    | cons e es =>
      refine (takes_exprs h indent (by simp)).opt.imp ?_
      rintro _ ⟨vs, rfl, hvs⟩
      exact hvs
  have hatom : Takes locate (Flush (.inr ['['] :: (signsOf (Expr.markedElements style indent elements) ++ .inr [']'] :: signs)))
      (atom locate) (·.bare = .list (elements.map Expr.bare) default) (After signs) := by
    refine Misses.orElse (misses_at rfl rfl) (Misses.orElse (misses_at rfl rfl) (Misses.orElse (misses_at rfl rfl) (Takes.orElse ?_)))
    refine (takes_between "[" "]" (by decide) (by decide) hitems).node fun _ _ vs hvs => ?_
    rw [Expr.bare, Expr.bareEach_eq_map, hvs]
  simpa [Expr.signs, Expr.marked, Expr.bare, Expr.bareEach_eq_map] using hatom

end Atoms

/-! ## One kind of operand after another -/

section Operands

variable {style : Style}

theorem exprReadBack_application {function : Expr} {arguments : List Expr} (range : SourceRange) (hne : arguments ≠ [])
    (hatomic : function.isAtomic = true) (hatomics : ∀ e ∈ arguments, e.isAtomic = true)
    (hfunction : ExprReadBack locate style function) (harguments : ∀ e ∈ arguments, ExprReadBack locate style e) :
    ExprReadBack locate style (.application function arguments range) := by
  have hsigns : ∀ indent, Expr.signs style indent (.application function arguments range) =
      function.signs style indent ++ arguments.flatMap (Expr.signs style (indent + style.indent)) := fun indent => by
    rw [Expr.signs, Expr.marked, signsOf_append, Expr.signsOf_markedEach]
    rfl
  refine .of_operand rfl (fun indent => ?_) (fun h => absurd h Bool.false_ne_true) fun indent signs hend _ => ?_
  · obtain ⟨w, rest, hw, hfirst⟩ := hfunction.begins indent
    rw [hsigns, hw]
    exact ⟨w, _, rfl, hfirst⟩
  · rw [hsigns, List.append_assoc]
    obtain ⟨hplain, hatom⟩ := hfunction.atom hatomic indent (arguments.flatMap (Expr.signs style (indent + style.indent)) ++ signs)
    refine (takes_application _ hatomics harguments hend hplain hatom).imp fun v hv => ?_
    rw [hv, if_neg (by simpa using hne), Expr.bare, Expr.bareEach_eq_map]

theorem exprReadBack_binary {op : String} {left right : Expr} (range : SourceRange) (hop : op ∈ operators)
    (hopen : left.endsOpen = false) (hbinary : right.isBinary = false) (hleft : ExprReadBack locate style left)
    (hright : ExprReadBack locate style right) : ExprReadBack locate style (.binary op left right range) := by
  have hsigns : ∀ indent, Expr.signs style indent (.binary op left right range) = left.signs style (indent + style.indent) ++
      .inr op.toList :: right.signs style (indent + style.indent) := fun indent => by
    simp [Expr.signs, Expr.marked]
  refine ⟨fun indent => ?_, (fun h => nomatch h), (fun h => nomatch h), fun indent links signs hlinks hlast hends => ?_⟩
  · obtain ⟨w, rest, hw, hfirst⟩ := hleft.begins (indent + style.indent)
    rw [hsigns, hw]
    exact ⟨w, _, rfl, hfirst⟩
  · -- The right operand is the first link of the chain that the left operand begins.
    have hchain : ReadsLinks locate style (⟨op, indent + style.indent, right⟩ :: links) :=
      ⟨hop, hright.operand hbinary _, hlast, hlinks⟩
    have hwhole := hleft.whole (indent + style.indent) _ signs hchain (fun _ => hopen) hends
    rw [hsigns, List.append_assoc, List.cons_append, ← List.append_assoc (right.signs style _)]
    exact hwhole

theorem exprReadBack_conditional {condition thenBranch elseBranch : Expr} (range : SourceRange)
    (hcondition : ExprReadBack locate style condition) (hthen : ExprReadBack locate style thenBranch)
    (helse : ExprReadBack locate style elseBranch) :
    ExprReadBack locate style (.conditional condition thenBranch elseBranch range) := by
  have hsigns : ∀ indent, Expr.signs style indent (.conditional condition thenBranch elseBranch range) =
      .inr ['i', 'f'] :: (condition.signs style (indent + style.indent) ++
        .inr ['t', 'h', 'e', 'n'] :: (thenBranch.signs style (indent + style.indent) ++
          .inr ['e', 'l', 's', 'e'] :: elseBranch.signs style (indent + style.indent))) := fun indent => by
    simp [Expr.signs, Expr.marked]
  refine .of_operand rfl (fun indent => ?_) (fun h => absurd h Bool.false_ne_true) fun indent signs hend hends => ?_
  · rw [hsigns]
    exact ⟨_, _, rfl, fun _ hd => Option.some.inj hd ▸ by decide⟩
  · rw [hsigns]
    simp only [List.cons_append, List.append_assoc]
    have helse' := takes_gap_word_gap "else" (by decide) (helse.expr (indent + style.indent) (hends rfl))
    have hthen' := takes_gap_word_gap "then" (by decide)
      (hthen.expr (indent + style.indent) (endsExpr_cons else_mem_exprEnds (elseBranch.signs style (indent + style.indent) ++ signs)))
    refine takes_rule (Misses.orElse (misses_at rfl rfl) (Takes.orElse (Takes.node (Takes.seq (takes_word_gap "if" (by decide)
      (hcondition.expr _ (endsExpr_cons then_mem_exprEnds _))) (hthen'.seq helse')) fun i j v hv => ?_)))
    rw [Expr.bare, hv.1, hv.2.1, hv.2.2]
    rfl

/-- The items of a block, between its markers. -/
theorem takes_block {item : Phrase α} {itemSigns : γ → List Sign} {f : α → β} {g : γ → β} (hitem : item.nullable = false) {x : γ}
    {xs : List γ} (hreads : ∀ y ∈ x :: xs, ∀ signs, EndsExpr signs →
      Takes locate (Flush (itemSigns y ++ signs)) item (fun v => f v = g y) (Indented signs)) :
    Takes locate (Flush (.inl .opening :: (itemSigns x ++ ((xs.flatMap fun y => .inl .separating :: itemSigns y) ++
      .inl .closing :: signs)))) (block item) (fun vs => vs.map f = (x :: xs).map g) (Indented signs) := by
  have hends : ∀ later : List γ, EndsExpr ((later.flatMap fun y => .inl .separating :: itemSigns y) ++ .inl .closing :: signs) := by
    intro later
    cases later with
    | nil => exact endsExpr_cons (by simp [exprEnds]) _
    | cons y later => exact endsExpr_cons (by simp [exprEnds]) _
  have hitems : Takes locate _ (separated (gap *> marker .separating *> gap) item) (fun vs => vs.map f = (x :: xs).map g) _ :=
    takes_separated
      (F := fun y later => Flush (itemSigns y ++ ((later.flatMap fun y => .inl .separating :: itemSigns y) ++ .inl .closing :: signs)))
      (M := fun later => Indented ((later.flatMap fun y => .inl .separating :: itemSigns y) ++ .inl .closing :: signs))
      hitem (fun y hy later => hreads y hy _ (hends later)) ?_ (fun _ _ _ => not_indented_nil) ?_
  · exact ((((takes_marker .opening).andThen takes_gap).andThen hitems).andSkip takes_gap).andSkip (takes_marker .closing)
  · intro y _ later
    rw [List.flatMap_cons, List.append_assoc]
    exact (takes_gap.andThen (takes_marker .separating)).andThen takes_gap
  · refine (takes_gap.andThen_misses ?_).andThen
    exact misses_flush rfl fun c hc => Option.some.inj hc ▸ rfl

/-- An arm is read back. -/
theorem takes_arm {arm : Arm Expr} (hpattern : arm.pattern.Renderable style) (hbody : ExprReadBack locate style arm.body) (indent : Nat)
    (hends : EndsExpr signs) :
    Takes locate (Flush (Expr.armSigns style indent arm ++ signs)) (rule .arm) (fun v => Arm.bare v = arm.bare) (Indented signs) := by
  rw [Expr.armSigns, List.append_assoc, List.cons_append]
  have hexpr := ((takes_spaced "->" (by decide)).of fun _ => After.indented).andThen (hbody.expr (indent + style.indent) hends)
  refine takes_rule (Takes.map (Takes.seq ((readBack hpattern).pattern (endsPattern_cons (by decide) _)) hexpr) fun v hv => ?_)
  rw [Arm.bare, Arm.bare, hv.1, hv.2]

theorem exprReadBack_caseOf {subject : Expr} {arms : List (Arm Expr)} (range : SourceRange) (hne : arms ≠ [])
    (hpatterns : ∀ arm ∈ arms, arm.pattern.Renderable style) (hsubject : ExprReadBack locate style subject)
    (hbodies : ∀ arm ∈ arms, ExprReadBack locate style arm.body) : ExprReadBack locate style (.caseOf subject arms range) := by
  obtain ⟨arm, arms, rfl⟩ := List.exists_cons_of_ne_nil hne
  have hsigns : ∀ indent, Expr.signs style indent (.caseOf subject (arm :: arms) range) =
      .inr ['c', 'a', 's', 'e'] :: (subject.signs style (indent + style.indent) ++ .inr ['o', 'f'] ::
        .inl .opening :: (Expr.armSigns style (indent + style.indent) arm ++
          ((arms.flatMap fun arm => .inl .separating :: Expr.armSigns style (indent + style.indent) arm) ++ [.inl .closing]))) := by
    intro indent
    simp [Expr.signs, Expr.marked, Expr.signsOf_markedArms]
  refine .of_operand rfl (fun indent => ?_) (fun h => absurd h Bool.false_ne_true) fun indent signs _ _ => ?_
  · rw [hsigns]
    exact ⟨_, _, rfl, fun _ hd => Option.some.inj hd ▸ by decide⟩
  · rw [hsigns]
    simp only [List.cons_append, List.append_assoc, List.nil_append]
    have hblock : Takes locate _ (block (rule .arm)) (fun vs => vs.map Arm.bare = (arm :: arms).map Arm.bare) (Indented signs) :=
      takes_block rfl fun x hx signs hends => takes_arm (hpatterns x hx) (hbodies x hx) (indent + style.indent) hends
    refine takes_rule (Misses.orElse (misses_at rfl rfl) (Misses.orElse (misses_at rfl rfl) (Takes.orElse (Takes.node (Takes.seq
      (takes_word_gap "case" (by decide) (hsubject.expr _ (endsExpr_cons of_mem_exprEnds _)))
        (takes_gap_word_gap "of" (by decide) hblock)) fun i j v hv => ?_))))
    rw [Expr.bare, Expr.bareArms_eq_map, hv.1, hv.2, Expr.bare, Expr.bareArms_eq_map]

section Declarations

variable {name : String} {arguments : List Pattern} {body : Expr}

/-- The declaration of a function is read back. -/
theorem takes_functionDecl (hname : IsLowerName name) (hatomic : ∀ p ∈ arguments, p.isAtomic = true)
    (harguments : ∀ p ∈ arguments, p.Renderable style) (hbody : ExprReadBack locate style body) (indent : Nat) (hends : EndsExpr signs) :
    Takes locate (Flush (.inr name.toList :: ((Pattern.wordsEach style [] arguments).map .inr ++
      .inr ['='] :: (body.signs style indent ++ signs)))) (functionDecl locate)
      (fun v => LetDecl.bare (.function v) = .function ⟨name, arguments.map Pattern.bare, body.bare, default, none⟩) (Indented signs) := by
  have hequals := ((takes_spaced "=" (by decide)).of fun _ => After.indented).andThen (hbody.expr indent hends)
  have hpatterns : Takes locate
      (After ((Pattern.wordsEach style [] arguments).map .inr ++ .inr ['='] :: (body.signs style indent ++ signs)))
      functionArguments (fun vs => vs.map Pattern.bare = arguments.map Pattern.bare) _ :=
    takes_arguments hatomic (fun p hp => readBack (harguments p hp)) (endsPattern_cons (by decide) _).misses_atom
  refine ((takes_lowerName hname).seq (hpatterns.seq hequals)).node fun i j v hv => ?_
  simp only [LetDecl.bare, hv.1, hv.2.1, hv.2.2]

/-- The declaration of a function is no annotation. -/
theorem misses_signature (hname : IsLowerName name) (harguments : ∀ p ∈ arguments, p.Renderable style) :
    Misses locate (Flush (.inr name.toList :: ((Pattern.wordsEach style [] arguments).map .inr ++ .inr ['='] :: signs)))
      (signature locate) := by
  have hcolon : Misses locate (Flush ((Pattern.wordsEach style [] arguments).map .inr ++ .inr ['='] :: signs)) (symbol ":") := by
    cases arguments with
    | nil => exact misses_at rfl rfl
    | cons p ps =>
      have hp : PatternReadBack locate style p := readBack (harguments p List.mem_cons_self)
      obtain ⟨w, ws, hw, -, hfirst⟩ := hp.begun
      refine misses_flush rfl fun c hc => beq_eq_false_iff_ne.2 fun (heq : some ':' = some c) => hfirst ?_
      rw [Pattern.wordsEach, hw] at hc
      rw [heq]
      exact hc
  exact ((takes_lowerName hname).seq_misses ((misses_spaced hcolon).of fun _ => After.indented).andThen).node

end Declarations

/-- A declaration without an annotation is read back. -/
theorem takes_letItem {decl : LetDecl Expr} (hhead : decl.HasPlainHead style) (hbody : ExprReadBack locate style decl.body) (indent : Nat)
    (hends : EndsExpr signs) : Takes locate (Flush (Expr.declSigns style indent decl ++ signs)) (rule .letItem)
      (fun v => v.declaration?.map LetDecl.bare = some decl.bare) (Indented signs) := by
  cases decl with
  | destructuring _ _ _ => exact hhead.elim
  | function decl =>
    obtain ⟨hsignature, hname, hatomic, harguments⟩ := hhead
    rw [Expr.declSigns, List.cons_append, List.append_assoc, List.cons_append]
    refine takes_rule (Misses.orElse (misses_signature hname harguments).map (Takes.orElse ?_))
    refine (takes_functionDecl hname hatomic harguments hbody (indent + style.indent) hends).map fun v hv => ?_
    rw [LetItem.declaration?, Option.map_some, hv, LetDecl.bare, hsignature, LetDecl.body]

/-- Without signatures there is nothing to attach. -/
theorem attachSignatures_eq_self {δ : Type} {signature? : δ → Option Signature} {annotate? : Signature → δ → Option δ} {ds : List δ}
    (h : ∀ d ∈ ds, signature? d = none) : attachSignatures signature? annotate? ds = ds := by
  fun_induction attachSignatures signature? annotate? ds with
  | case1 => rfl
  | case2 d => rfl
  | case3 d e rest annotated hannotated ih =>
    rw [h d List.mem_cons_self] at hannotated
    cases hannotated
  | case4 d e rest hannotated ih => rw [ih fun d' hd' => h d' (List.mem_cons_of_mem d hd')]

/-- The declarations of a block without annotations. -/
theorem map_bare_attach {items : List LetItem} {decls : List (LetDecl Expr)}
    (h : items.map (fun item => item.declaration?.map LetDecl.bare) = decls.map fun decl => some decl.bare) :
    (LetItem.attach items).map LetDecl.bare = decls.map LetDecl.bare := by
  have hdecl : ∀ item ∈ items, item.signature? = none := by
    intro item hitem
    cases item with
    | declaration _ => rfl
    | signature s =>
      have hmem : none ∈ decls.map fun decl => some decl.bare := h ▸ List.mem_map.2 ⟨_, hitem, rfl⟩
      obtain ⟨decl, -, hnone⟩ := List.mem_map.1 hmem
      cases hnone
  rw [LetItem.attach, attachSignatures_eq_self hdecl, List.map_filterMap]
  have hsome := congrArg (List.filterMap id) h
  simpa [List.filterMap_map, Function.comp_def] using hsome

theorem exprReadBack_letIn {declarations : List (LetDecl Expr)} {body : Expr} (range : SourceRange) (hne : declarations ≠ [])
    (hheads : ∀ decl ∈ declarations, decl.HasPlainHead style) (hdecls : ∀ decl ∈ declarations, ExprReadBack locate style decl.body)
    (hbody : ExprReadBack locate style body) : ExprReadBack locate style (.letIn declarations body range) := by
  obtain ⟨decl, decls, rfl⟩ := List.exists_cons_of_ne_nil hne
  have hsigns : ∀ indent, Expr.signs style indent (.letIn (decl :: decls) body range) =
      .inr ['l', 'e', 't'] :: .inl .opening :: (Expr.declSigns style (indent + style.indent) decl ++
        ((decls.flatMap fun decl => .inl .separating :: Expr.declSigns style (indent + style.indent) decl) ++
          .inl .closing :: .inr ['i', 'n'] :: body.signs style (indent + style.indent))) := by
    intro indent
    simp [Expr.signs, Expr.marked, Expr.signsOf_markedDecls]
  refine .of_operand rfl (fun indent => ?_) (fun h => absurd h Bool.false_ne_true) fun indent signs _ hends => ?_
  · rw [hsigns]
    exact ⟨_, _, rfl, fun _ hd => Option.some.inj hd ▸ by decide⟩
  · rw [hsigns]
    simp only [List.cons_append, List.append_assoc]
    have hblock : Takes locate _ (block (rule .letItem)) (fun vs => vs.map (fun item => item.declaration?.map LetDecl.bare) =
        (decl :: decls).map fun decl => some decl.bare)
      (Indented (.inr ['i', 'n'] :: (body.signs style (indent + style.indent) ++ signs))) :=
      takes_block rfl fun x hx signs hends => takes_letItem (hheads x hx) (hdecls x hx) (indent + style.indent) hends
    have hin := takes_gap_word_gap "in" (by decide) (hbody.expr (indent + style.indent) (hends rfl))
    refine takes_rule (Misses.orElse (misses_at rfl rfl) (Misses.orElse (misses_at rfl rfl) (Misses.orElse (misses_at rfl rfl)
      (Takes.orElse (Takes.node (Takes.seq (takes_word_gap "let" (by decide) hblock) hin) fun i j v hv => ?_)))))
    rw [Expr.bare, Expr.bareDecls_eq_map, map_bare_attach hv.1, hv.2, Expr.bare, Expr.bareDecls_eq_map]

theorem exprReadBack_lambda {arguments : List Pattern} {body : Expr} (range : SourceRange) (hne : arguments ≠ [])
    (hatomic : ∀ p ∈ arguments, p.isAtomic = true) (harguments : ∀ p ∈ arguments, p.Renderable style)
    (hbody : ExprReadBack locate style body) : ExprReadBack locate style (.lambda arguments body range) := by
  obtain ⟨p, ps, rfl⟩ := List.exists_cons_of_ne_nil hne
  have hsigns : ∀ indent, Expr.signs style indent (.lambda (p :: ps) body range) = .inr ['\\'] :: ((p.words style).map .inr ++
      ((Pattern.wordsEach style [] ps).map .inr ++ .inr ['-', '>'] :: body.signs style (indent + style.indent))) := by
    intro indent
    simp [Expr.signs, Expr.marked, Pattern.wordsEach]
  refine .of_operand rfl (fun indent => ?_) (fun h => absurd h Bool.false_ne_true) fun indent signs _ hends => ?_
  · rw [hsigns]
    exact beginsExpr_symbol (by decide) rfl
  · rw [hsigns]
    simp only [List.cons_append, List.append_assoc]
    obtain ⟨hpatomic, hatomics⟩ := List.forall_mem_cons.1 hatomic
    obtain ⟨hp, hps⟩ := List.forall_mem_cons.1 harguments
    have hbody' := ((takes_spaced "->" (by decide)).of fun _ => After.indented).andThen (hbody.expr (indent + style.indent) (hends rfl))
    have hmore : Takes locate (After ((Pattern.wordsEach style [] ps).map .inr ++
        .inr ['-', '>'] :: (body.signs style (indent + style.indent) ++ signs))) (.many (gap *> rule .patternAtom))
        (fun vs => vs.map Pattern.bare = ps.map Pattern.bare) _ :=
      takes_arguments hatomics (fun q hq => readBack (hps q hq)) (endsPattern_cons (by decide) _).misses_atom
    have hpatterns : Takes locate _ (separated gap (rule .patternAtom)) (fun vs => vs.map Pattern.bare = (p :: ps).map Pattern.bare) _ :=
      Takes.map (((readBack hp).atom hpatomic _).seq hmore) fun v hv => by rw [List.map_cons, List.map_cons, hv.1, hv.2]
    have hhead := ((takes_symbol "\\" (by decide)).andThen (takes_gap.of fun _ => After.indented)).andThen hpatterns
    refine takes_rule (Takes.orElse (Takes.node (Takes.seq hhead hbody') fun i j v hv => ?_))
    rw [Expr.bare, hv.1, hv.2]
    rfl

end Operands

/-- An expression that is rendered is read back. -/
theorem exprReadBack {style : Style} {e : Expr} (h : e.Renderable style) : ExprReadBack locate style e := by
  induction h with
  | literal range h => exact exprReadBack_literal range h
  | reference range hqualifier hname => exact exprReadBack_reference range hqualifier hname
  | application range hne hatomic hatomics _ _ ihfunction iharguments =>
    exact exprReadBack_application range hne hatomic hatomics ihfunction iharguments
  | binary range hop hopen hbinary _ _ ihleft ihright => exact exprReadBack_binary range hop hopen hbinary ihleft ihright
  | parenthesized range _ ih => exact exprReadBack_parenthesized range ih
  | tuple range hlength _ ih => exact exprReadBack_tuple range hlength ih
  | list range _ ih => exact exprReadBack_list range ih
  | conditional range _ _ _ ihcondition ihthen ihelse => exact exprReadBack_conditional range ihcondition ihthen ihelse
  | caseOf range hne hpatterns _ _ ihsubject ihbodies => exact exprReadBack_caseOf range hne hpatterns ihsubject ihbodies
  | letIn range hne hheads _ _ ihdecls ihbody => exact exprReadBack_letIn range hne hheads ihdecls ihbody
  | lambda range hne hatomic harguments _ ih => exact exprReadBack_lambda range hne hatomic harguments ih

end Grammar

end ElmLint
