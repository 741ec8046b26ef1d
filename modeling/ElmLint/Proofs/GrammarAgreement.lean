import ElmLint.Proofs.Agreement

/-!
# The grammar reads texts that differ in their gaps alike

Every rule of the grammar gives the same in two texts with one skeleton, as soon as the rules that it calls do (`settled_rules`); so
every run does (`settled_run`).
-/

namespace ElmLint.Grammar

variable {α β : Type} {w : Runs} {T : List Char → List Char → Prop}

/-- A relation of texts in which words of solid characters and blanks are read alike. -/
structure Steady (T : List Char → List Char → Prop) : Prop where
  count : Counts T
  reads : ∀ l : Lexeme, l.isWord = true ∨ l = .blanks → ∀ cs cs', T cs cs' → l.ReadsAlike T cs cs'

theorem steady_alike (words : List (Token.Kind × List Char)) : Steady (Alike words) where
  count _ _ h := h.visibleCount_eq
  reads _ hl _ _ h := h.reads hl

theorem Agree.map_eq {U : List Char → List Char → Prop} {p p' : Phrase α} {f : α → β} (hp : Agree w T U Eq p p') :
    Agree w T U Eq (.map f p) (.map f p') := hp.map fun _ _ h => congrArg f h

/-- Nodes that differ in nothing but their ranges agree. -/
theorem Agree.node_eq {U : List Char → List Char → Prop} {p p' : Phrase α} {build build' : Nat → Nat → α → β} (hw : w.Fair)
    (hT : Counts T) (hU : Counts U) (hp : Agree w T U Eq p p') (hshows : p.shows = true) (hshows' : p'.shows = true)
    (hbuild : ∀ i j i' j' v, w.left.range i j = w.right.range i' j' → build i j v = build' i' j' v) :
    Agree w T U Eq (.node build p) (.node build' p') :=
  hp.node hw hT hU hshows hshows' fun i j i' j' v _ hrange h => h ▸ hbuild i j i' j' v hrange

/-! ## Words and lists -/

section Words

variable (hT : Steady T)

include hT

theorem agree_lexeme {l : Lexeme} (hl : l.isWord = true) (hgap : l.isGap = false) : Agree w T T Eq (.lexeme l) (.lexeme l) :=
  (Agree.lexeme (hT.reads l (.inl hl))).mono (fun _ _ => id) (fun _ _ => id) fun _ _ h => h hgap

theorem agree_gap : Agree w T T (fun _ _ => True) gap gap := (Agree.lexeme (hT.reads .blanks (.inr rfl))).any

theorem agree_symbol {text : String} (h : (Lexeme.exact text).isWord = true) : Agree w T T Eq (symbol text) (symbol text) :=
  agree_lexeme hT h rfl

theorem agree_word {text : String} (h : (Lexeme.word text).isWord = true) : Agree w T T Eq (word text) (word text) :=
  agree_lexeme hT h rfl

theorem agree_textOf {l : Lexeme} (hl : l.isWord = true) (hgap : l.isGap = false) : Agree w T T Eq (textOf l) (textOf l) :=
  (agree_lexeme hT hl hgap).map_eq

theorem agree_lowerName : Agree w T T Eq lowerName lowerName :=
  (agree_lexeme hT (l := .keyword) rfl rfl).without.andThen (agree_textOf hT rfl rfl)

theorem agree_qualifiedUpper : Agree w T T Eq qualifiedUpper qualifiedUpper := (agree_lexeme hT (l := .upperPath) rfl rfl).map_eq

theorem agree_moduleName : Agree w T T Eq moduleName moduleName := (agree_lexeme hT (l := .upperPath) rfl rfl).map_eq

theorem agree_spaced {text : String} (h : (Lexeme.exact text).isWord = true) : Agree w T T Eq (spaced text) (spaced text) :=
  ((agree_gap hT).andThen (agree_symbol hT h)).andSkip (agree_gap hT)

theorem agree_unit : Agree w T T Eq unit unit :=
  (((agree_symbol hT rfl).andThen (agree_gap hT)).andThen (agree_symbol hT rfl)).map_eq

theorem agree_commaList (hw : w.Fair) {p p' : Phrase α} (hp : Agree w T T Eq p p') :
    Agree w T T Eq (commaList p) (commaList p') :=
  (hp.both (((agree_spaced hT rfl).andThen hp).many hw hT.count rfl rfl)).map_eq

theorem agree_between {left right : String} (hleft : (Lexeme.exact left).isWord = true)
    (hright : (Lexeme.exact right).isWord = true) {p p' : Phrase α} (hp : Agree w T T Eq p p') :
    Agree w T T Eq (between left p right) (between left p' right) :=
  ((((agree_symbol hT hleft).andThen (agree_gap hT)).andThen hp).andSkip (agree_gap hT)).andSkip (agree_symbol hT hright)

end Words

/-! ## The rules of the grammar -/

/-- A phrase gives the same in two runs on texts with one skeleton. -/
def Settled (w : Runs) (words : List (Token.Kind × List Char)) (p : Locate → Phrase α) : Prop :=
  Agree w (Alike words) (Alike words) Eq (p w.left.range) (p w.right.range)

section Rules

variable {words : List (Token.Kind × List Char)} (hw : w.Fair) (hcall : ∀ r, Settled w words fun _ => rule r)

include hw hcall

/-! ### Literals and types -/

omit hw hcall in
theorem settled_literal : Settled w words fun _ => literal := by
  have hquoted : ∀ {l : Lexeme}, l = .string ∨ l = .char → l.isGap = false →
      Agree w (Alike words) (Alike words) Eq (.lexeme l) (.lexeme l) := fun hl hgap =>
    (Agree.lexeme fun _ _ h => h.reads_literal hl).mono (fun _ _ => id) (fun _ _ => id) fun _ _ h => h hgap
  have hword : ∀ {l : Lexeme}, l.isWord = true → l.isGap = false → Agree w (Alike words) (Alike words) Eq (.lexeme l) (.lexeme l) :=
    agree_lexeme (steady_alike words)
  exact (hword (l := .float) rfl rfl).map_eq.orElse <| (hword (l := .int) rfl rfl).map_eq.orElse <|
    (hquoted (.inl rfl) rfl).map_eq.orElse (hquoted (.inr rfl) rfl).map_eq

omit hcall in
/-- Nodes that differ in nothing but their ranges are settled. -/
theorem settled_node {p p' : Phrase α} {build build' : Nat → Nat → α → β} (hp : Agree w (Alike words) (Alike words) Eq p p')
    (hshows : p.shows = true) (hshows' : p'.shows = true)
    (hbuild : ∀ i j i' j' v, w.left.range i j = w.right.range i' j' → build i j v = build' i' j' v) :
    Agree w (Alike words) (Alike words) Eq (.node build p) (.node build' p') :=
  hp.node_eq hw (steady_alike words).count (steady_alike words).count hshows hshows' hbuild

omit hcall in
theorem settled_many {p p' : Phrase α} (hp : Agree w (Alike words) (Alike words) Eq p p') (hshows : p.shows = true)
    (hshows' : p'.shows = true) : Agree w (Alike words) (Alike words) Eq (.many p) (.many p') :=
  hp.many hw (steady_alike words).count hshows hshows'

omit hw hcall in
theorem settled_opt {p p' : Phrase α} (hp : Agree w (Alike words) (Alike words) Eq p p') :
    Agree w (Alike words) (Alike words) Eq (.opt p) (.opt p') := hp.opt (fun _ _ => id) (fun _ _ => congrArg some) rfl

theorem settled_typeGroup : Settled w words typeGroup :=
  settled_node hw (agree_between (steady_alike words) rfl rfl (agree_commaList (steady_alike words) hw (hcall .typeExpr)))
    rfl rfl fun _ _ _ _ _ h => by rw [h]

theorem settled_fieldType : Settled w words fieldType :=
  settled_node hw ((agree_lowerName (steady_alike words)).both
    ((agree_spaced (steady_alike words) rfl).andThen (hcall .typeExpr))) rfl rfl fun _ _ _ _ _ h => by rw [h]

theorem settled_recordType : Settled w words recordType := by
  have hbase : Settled w words fun _ => recordBase :=
    (agree_lowerName (steady_alike words)).andSkip (agree_spaced (steady_alike words) rfl)
  have hfields : Settled w words fieldTypes := agree_commaList (steady_alike words) hw (settled_fieldType hw hcall)
  exact settled_node hw (agree_between (steady_alike words) rfl rfl ((settled_opt hbase).both (settled_opt hfields))) rfl rfl
    fun _ _ _ _ _ h => by rw [h]

theorem settled_typeAtom : Settled w words typeAtom :=
  (settled_node hw (agree_unit (steady_alike words)) rfl rfl fun _ _ _ _ _ h => by rw [h]).orElse <|
    (settled_typeGroup hw hcall).orElse <| (settled_recordType hw hcall).orElse <|
    (settled_node hw (agree_qualifiedUpper (steady_alike words)) rfl rfl fun _ _ _ _ _ h => by rw [h]).orElse <|
    settled_node hw (agree_lowerName (steady_alike words)) rfl rfl fun _ _ _ _ _ h => by rw [h]

theorem settled_typeExpr : Settled w words typeExpr := by
  have harguments : Settled w words fun _ => Peg.atLeastOne (gap *> rule .typeAtom) :=
    ((agree_gap (steady_alike words)).andThen (hcall .typeAtom)).atLeastOne hw (steady_alike words).count rfl rfl
  have happlied : Settled w words appliedType :=
    settled_node hw ((agree_qualifiedUpper (steady_alike words)).both harguments) rfl rfl fun _ _ _ _ _ h => by rw [h]
  have hresult : Settled w words fun _ => Peg.opt (spaced "->" *> rule .typeExpr) :=
    settled_opt ((agree_spaced (steady_alike words) rfl).andThen (hcall .typeExpr))
  exact settled_node hw ((happlied.orElse (hcall .typeAtom)).both hresult) rfl rfl fun _ _ _ _ _ h => by rw [h]

/-! ### Patterns -/

theorem settled_patternAtom : Settled w words patternAtom := by
  have hwildcard : Settled w words wildcard :=
    settled_node hw (agree_lexeme (steady_alike words) (l := .wildcard) rfl rfl) rfl rfl fun _ _ _ _ _ h => by rw [h]
  have hliteral : Settled w words fun _ => unit <|> literal := (agree_unit (steady_alike words)).orElse settled_literal
  have hlist : Settled w words fun _ => patternList := agree_commaList (steady_alike words) hw (hcall .pattern)
  have hfields : Settled w words fun _ => patternFields :=
    agree_commaList (steady_alike words) hw (agree_lowerName (steady_alike words))
  exact hwildcard.orElse <| (settled_node hw hliteral rfl rfl fun _ _ _ _ _ h => by rw [h]).orElse <|
    (settled_node hw (agree_between (steady_alike words) rfl rfl hlist) rfl rfl fun _ _ _ _ _ h => by rw [h]).orElse <|
    (settled_node hw (agree_between (steady_alike words) rfl rfl (settled_opt hlist)) rfl rfl fun _ _ _ _ _ h => by rw [h]).orElse <|
    (settled_node hw (agree_between (steady_alike words) rfl rfl (settled_opt hfields)) rfl rfl fun _ _ _ _ _ h => by rw [h]).orElse <|
    (settled_node hw (agree_qualifiedUpper (steady_alike words)) rfl rfl fun _ _ _ _ _ h => by rw [h]).orElse <|
    settled_node hw (agree_lowerName (steady_alike words)) rfl rfl fun _ _ _ _ _ h => by rw [h]

theorem settled_consPattern : Settled w words consPattern := by
  have harguments : Settled w words fun _ => Peg.atLeastOne (gap *> rule .patternAtom) :=
    ((agree_gap (steady_alike words)).andThen (hcall .patternAtom)).atLeastOne hw (steady_alike words).count rfl rfl
  have happlied : Settled w words appliedConstructor :=
    settled_node hw ((agree_qualifiedUpper (steady_alike words)).both harguments) rfl rfl fun _ _ _ _ _ h => by rw [h]
  have htail : Settled w words fun _ => Peg.opt (spaced "::" *> rule .consPattern) :=
    settled_opt ((agree_spaced (steady_alike words) rfl).andThen (hcall .consPattern))
  exact settled_node hw ((happlied.orElse (hcall .patternAtom)).both htail) rfl rfl fun _ _ _ _ _ h => by rw [h]

theorem settled_pattern : Settled w words pattern := by
  have has : Settled w words fun _ => space *> word "as" :=
    loose_space.andThen hw (agree_word (steady_alike words) rfl) rfl rfl
  have hname : Settled w words fun _ => space *> word "as" *> space *> lowerName :=
    (has.andThen_loose loose_space).andThen hw (agree_lowerName (steady_alike words)) rfl rfl
  have halias : Settled w words aliasName := settled_node hw hname rfl rfl fun _ _ _ _ _ h => by rw [h]
  exact ((hcall .consPattern).both (settled_many hw halias rfl rfl)).map_eq

/-! ### Expressions -/

omit hw hcall in
theorem settled_operatorIn : Settled w words fun _ => between "(" operator ")" :=
  agree_between (steady_alike words) rfl rfl (agree_textOf (steady_alike words) rfl rfl)

omit hw hcall in
theorem settled_fieldAccess : Settled w words fun _ => fieldAccess := (agree_lexeme (steady_alike words) (l := .field) rfl rfl).map_eq

theorem settled_setter : Settled w words setter :=
  settled_node hw ((agree_lowerName (steady_alike words)).both ((agree_spaced (steady_alike words) rfl).andThen (hcall .expr)))
    rfl rfl fun _ _ _ _ _ h => by rw [h]

theorem settled_atom : Settled w words atom := by
  have hliteral : Settled w words fun _ => literal <|> unit := settled_literal.orElse (agree_unit (steady_alike words))
  have hlist : Settled w words fun _ => exprList := agree_commaList (steady_alike words) hw (hcall .expr)
  have hsetters : Settled w words fun _ => setters := agree_commaList (steady_alike words) hw (hcall .setter)
  have hupdate : Settled w words fun _ => Peg.seq lowerName (spaced "|" *> setters) :=
    (agree_lowerName (steady_alike words)).both ((agree_spaced (steady_alike words) rfl).andThen hsetters)
  have hreference : Settled w words fun _ => Peg.without (.lexeme .keyword) *> Peg.map qualified (.lexeme .path) :=
    (agree_lexeme (steady_alike words) (l := .keyword) rfl rfl).without.andThen
      (agree_lexeme (steady_alike words) (l := .path) rfl rfl).map_eq
  exact (settled_node hw hliteral rfl rfl fun _ _ _ _ _ h => by rw [h]).orElse <|
    (settled_node hw settled_operatorIn rfl rfl fun _ _ _ _ _ h => by rw [h]).orElse <|
    (settled_node hw (agree_between (steady_alike words) rfl rfl hlist) rfl rfl fun _ _ _ _ _ h => by rw [h]).orElse <|
    (settled_node hw (agree_between (steady_alike words) rfl rfl (settled_opt hlist)) rfl rfl fun _ _ _ _ _ h => by rw [h]).orElse <|
    (settled_node hw (agree_between (steady_alike words) rfl rfl hupdate) rfl rfl fun _ _ _ _ _ h => by rw [h]).orElse <|
    (settled_node hw (agree_between (steady_alike words) rfl rfl (settled_opt hsetters)) rfl rfl fun _ _ _ _ _ h => by rw [h]).orElse <|
    (settled_node hw settled_fieldAccess rfl rfl fun _ _ _ _ _ h => by rw [h]).orElse <|
    settled_node hw hreference rfl rfl fun _ _ _ _ _ h => by rw [h]

theorem settled_postfixAtom : Settled w words postfixAtom := by
  have haccess : Settled w words fun locate => .node (fun i j field => (field, locate i j)) fieldAccess :=
    settled_node hw settled_fieldAccess rfl rfl fun _ _ _ _ _ h => by rw [h]
  exact ((hcall .atom).both (settled_many hw haccess rfl rfl)).map_eq

omit hw hcall in
theorem settled_marker (m : Marker) : Settled w words fun _ => marker m :=
  (Agree.lexeme fun _ _ h => h.reads_marker m).mono (fun _ _ => id) (fun _ _ => id) fun _ _ h => h rfl

omit hcall in
theorem settled_block {p p' : Phrase α} (hp : Agree w (Alike words) (Alike words) Eq p p') (hshows : p.shows = true)
    (hshows' : p'.shows = true) : Agree w (Alike words) (Alike words) Eq (block p) (block p') := by
  have hseparator : Settled w words fun _ => gap *> marker .separating := (agree_gap (steady_alike words)).andThen (settled_marker _)
  have hmore := settled_many hw ((hseparator.andThen (agree_gap (steady_alike words))).andThen hp) hshows hshows'
  exact ((((settled_marker .opening).andThen (agree_gap (steady_alike words))).andThen (hp.both hmore).map_eq).andSkip
    (agree_gap (steady_alike words))).andSkip (settled_marker .closing)

omit hw hcall in
/-- A word before a phrase, with blanks between them. -/
theorem settled_word {text : String} (h : (Lexeme.word text).isWord = true) {p p' : Phrase α}
    (hp : Agree w (Alike words) (Alike words) Eq p p') :
    Agree w (Alike words) (Alike words) Eq (word text *> gap *> p) (word text *> gap *> p') :=
  ((agree_word (steady_alike words) h).andThen (agree_gap (steady_alike words))).andThen hp

omit hw hcall in
/-- A word before a phrase, with blanks around it. -/
theorem settled_spacedWord {text : String} (h : (Lexeme.word text).isWord = true) {p p' : Phrase α}
    (hp : Agree w (Alike words) (Alike words) Eq p p') :
    Agree w (Alike words) (Alike words) Eq (gap *> word text *> gap *> p) (gap *> word text *> gap *> p') :=
  (((agree_gap (steady_alike words)).andThen (agree_word (steady_alike words) h)).andThen (agree_gap (steady_alike words))).andThen hp

theorem settled_lambda : Settled w words lambda := by
  have hmore := settled_many hw ((agree_gap (steady_alike words)).andThen (hcall .patternAtom)) rfl rfl
  have harguments : Settled w words fun _ => symbol "\\" *> gap *> separated gap (rule .patternAtom) :=
    ((agree_symbol (steady_alike words) rfl).andThen (agree_gap (steady_alike words))).andThen
      ((hcall .patternAtom).both hmore).map_eq
  exact settled_node hw (harguments.both ((agree_spaced (steady_alike words) rfl).andThen (hcall .expr))) rfl rfl
    fun _ _ _ _ _ h => by rw [h]

theorem settled_operand : Settled w words operand := by
  have hconditional : Settled w words conditional :=
    settled_node hw ((settled_word rfl (hcall .expr)).both
      ((settled_spacedWord rfl (hcall .expr)).both (settled_spacedWord rfl (hcall .expr)))) rfl rfl fun _ _ _ _ _ h => by rw [h]
  have hcase : Settled w words caseOf :=
    settled_node hw ((settled_word rfl (hcall .expr)).both (settled_spacedWord rfl (settled_block hw (hcall .arm) rfl rfl)))
      rfl rfl fun _ _ _ _ _ h => by rw [h]
  have hlet : Settled w words letIn :=
    settled_node hw ((settled_word rfl (settled_block hw (hcall .letItem) rfl rfl)).both (settled_spacedWord rfl (hcall .expr)))
      rfl rfl fun _ _ _ _ _ h => by rw [h]
  have hnegation : Settled w words negation :=
    settled_node hw ((agree_symbol (steady_alike words) rfl).andThen (hcall .postfixAtom)) rfl rfl fun _ _ _ _ _ h => by rw [h]
  have happlication : Settled w words application :=
    settled_node hw ((hcall .postfixAtom).both (settled_many hw ((agree_gap (steady_alike words)).andThen (hcall .postfixAtom)) rfl rfl))
      rfl rfl fun _ _ _ _ _ h => by rw [h]
  exact (settled_lambda hw hcall).orElse <| hconditional.orElse <| hcase.orElse <| hlet.orElse <| hnegation.orElse happlication

theorem settled_expr : Settled w words fun _ => expr := by
  have hoperator : Settled w words fun _ => gap *> operator :=
    (agree_gap (steady_alike words)).andThen (agree_textOf (steady_alike words) rfl rfl)
  have hmore := settled_many hw (hoperator.both ((agree_gap (steady_alike words)).andThen (hcall .operand))) rfl rfl
  exact ((hcall .operand).both hmore).map_eq

omit hw in
theorem settled_arm : Settled w words fun _ => arm :=
  ((hcall .pattern).both ((agree_spaced (steady_alike words) rfl).andThen (hcall .expr))).map_eq

theorem settled_signature : Settled w words signature :=
  settled_node hw ((agree_lowerName (steady_alike words)).both
    ((agree_spaced (steady_alike words) rfl).andThen (hcall .typeExpr))) rfl rfl fun _ _ _ _ _ h => by rw [h]

theorem settled_functionDecl : Settled w words functionDecl := by
  have harguments : Settled w words fun _ => functionArguments :=
    settled_many hw ((agree_gap (steady_alike words)).andThen (hcall .patternAtom)) rfl rfl
  exact settled_node hw ((agree_lowerName (steady_alike words)).both
    (harguments.both ((agree_spaced (steady_alike words) rfl).andThen (hcall .expr)))) rfl rfl fun _ _ _ _ _ h => by rw [h]

theorem settled_letItem : Settled w words letItem := by
  have hplain : Settled w words fun _ => lowerName *> gap *> symbol "=" :=
    ((agree_lowerName (steady_alike words)).andThen (agree_gap (steady_alike words))).andThen (agree_symbol (steady_alike words) rfl)
  have hdestructuring : Settled w words destructuring :=
    settled_node hw ((hcall .pattern).both ((agree_spaced (steady_alike words) rfl).andThen (hcall .expr))) rfl rfl
      fun _ _ _ _ _ h => by rw [h]
  exact (settled_signature hw hcall).map_eq.orElse <| (settled_functionDecl hw hcall).map_eq.orElse <|
    hplain.without.andThen hdestructuring.map_eq

/-- Every rule is settled, when the rules that it calls are. -/
theorem settled_rules (r : Rule) : Settled w words fun locate => rules locate r := by
  cases r with
  | typeExpr => exact settled_typeExpr hw hcall
  | typeAtom => exact settled_typeAtom hw hcall
  | pattern => exact settled_pattern hw hcall
  | consPattern => exact settled_consPattern hw hcall
  | patternAtom => exact settled_patternAtom hw hcall
  | expr => exact settled_expr hw hcall
  | operand => exact settled_operand hw hcall
  | postfixAtom => exact settled_postfixAtom hw hcall
  | atom => exact settled_atom hw hcall
  | setter => exact settled_setter hw hcall
  | arm => exact settled_arm hcall
  | letItem => exact settled_letItem hw hcall

end Rules

/-- Two runs of the grammar, with fuel of their own. -/
def Runs.ofFuel (l l' : LaidOut) (fuel fuel' : Nat) : Runs :=
  ⟨l, l', Peg.run (rules l.range) fuel, Peg.run (rules l'.range) fuel'⟩

theorem Runs.fair_ofFuel {l l' : LaidOut} (hseen : l.seen = l'.seen) (fuel fuel' : Nat) : (Runs.ofFuel l l' fuel fuel').Fair :=
  ⟨hseen, Peg.run_showing (rules_show _) fuel, Peg.run_showing (rules_show _) fuel'⟩

/-- Every rule is settled in every two runs of the grammar. -/
theorem settled_run {l l' : LaidOut} (hseen : l.seen = l'.seen) {words : List (Token.Kind × List Char)} :
    ∀ (fuel fuel' : Nat) (r : Rule), Settled (Runs.ofFuel l l' fuel fuel') words fun _ => rule r
  | 0, _, _ => fun _ _ _ => trivial
  | _ + 1, 0, _ => fun _ _ _ => .exhausted_right _
  | fuel + 1, fuel' + 1, r =>
    settled_rules (Runs.fair_ofFuel hseen fuel fuel') (settled_run hseen fuel fuel') r

end ElmLint.Grammar
