import ElmLint.Proofs.Parse
import ElmLint.Proofs.Shapes
import ElmLint.Proofs.WrittenNames

/-!
# Parsed modules are well shaped

The grammar gives well-shaped trees only. Mostly this is told by the phrase that builds a node: from rules of which classes its parts
come, how many of them it asks for, and that a small name is read only where no keyword is. In two places it is told by greed. Where
an expression has ended no operator with its operand follows, so that nothing can be joined to an operand that ends with an
expression (`noLink_operand`); and a dotted name goes on as long as it can, so that after a constructor there is no field to be
read (`read_dotted`).

* `Module.parse_wellShaped`: every module that can be read is well shaped.
-/

namespace ElmLint

/-! ## Names -/

/-- A name that is read to its end, where no keyword is, is none. -/
theorem take_notMem_keywords {cs : List Char} {n : Nat} (hnone : Lexeme.keyword.length? cs = none) (hle : n ≤ cs.length)
    (hend : (cs.drop n).head?.any isNameChar = false) : String.ofList (cs.take n) ∉ keywords := by
  intro hmem
  have hword := List.findSome?_eq_none_iff.1 hnone _ hmem
  rw [String.toList_ofList, wordLength?_eq_some_iff.2 ⟨List.take_prefix n cs, by rwa [List.length_take_of_le hle], rfl⟩] at hword
  cases hword

/-- A constructor's name is no keyword. -/
theorem notMem_keywords_of_isConstructorName {name : String} (h : isConstructorName name = true) : name ∉ keywords := by
  have hsmall : ∀ word ∈ keywords, isConstructorName word = false := by decide
  intro hmem
  rw [hsmall name hmem] at h
  cases h

/-- A name begins as it must, and no name character follows it. -/
theorem nameLength?_spec {first : Char → Bool} {cs : List Char} {n : Nat} (h : nameLength? first cs = some n) :
    cs.head?.any first = true ∧ (cs.drop n).head?.any isNameChar = false := by
  cases cs with
  | nil => cases h
  | cons c cs =>
    obtain ⟨hc, rfl⟩ := nameLength?_cons_eq_some_iff.1 h
    rw [List.drop_succ_cons, drop_runLength]
    have hnot := List.head?_dropWhile_not isNameChar cs
    refine ⟨hc, ?_⟩
    cases hd : (cs.dropWhile isNameChar).head? with
    | none => rfl
    | some d => simpa [hd] using hnot

/-- There is no field where no dot has a small letter after it. -/
theorem length?_field_eq_none {cs : List Char} (h : ∀ c after, cs = '.' :: c :: after → isLower c = false) :
    Lexeme.field.length? cs = none := by
  simp only [Lexeme.length?]
  split
  · next rest =>
    cases rest with
    | nil => rfl
    | cons c after => simp [nameLength?, h c after rfl]
  · rfl

namespace Grammar

variable {call : (r : Rule) → Cursor → Outcome r.Sem} {α β : Type}

/-! ## What phrases give -/

/-- Whatever a phrase gives has a property. -/
def Gives (call : (r : Rule) → Cursor → Outcome r.Sem) (p : Phrase α) (Q : α → Prop) : Prop :=
  ∀ c v c', p.read call c = .ok v c' → Q v

/-- Whatever a phrase gives has a property that may depend on the place where the phrase ends. -/
def GivesAt (call : (r : Rule) → Cursor → Outcome r.Sem) (p : Phrase α) (Q : α → Cursor → Prop) : Prop :=
  ∀ c v c', p.read call c = .ok v c' → Q v c'

namespace GivesAt

variable {p p' : Phrase α} {q : Phrase β} {Q : α → Cursor → Prop} {R : β → Cursor → Prop}

theorem orElse (hp : GivesAt call p Q) (hp' : GivesAt call p' Q) : GivesAt call (p <|> p') Q := by
  intro c v c' h
  rcases Peg.read_alt_ok.1 h with h | ⟨-, h⟩
  · exact hp c v c' h
  · exact hp' c v c' h

theorem node {build : Nat → Nat → α → β} (hp : GivesAt call p Q) (hbuild : ∀ i j a c, Q a c → R (build i j a) c) :
    GivesAt call (.node build p) R := by
  intro c v c' h
  obtain ⟨a, ha, rfl⟩ := Peg.read_node_ok.1 h
  exact hbuild _ _ a c' (hp c a c' ha)

theorem last (p : Phrase α) (hq : GivesAt call q R) : GivesAt call (.seq p q) fun v => R v.2 := by
  intro c v c' h
  obtain ⟨c₁, -, h⟩ := Peg.read_seq_ok.1 h
  exact hq c₁ v.2 c' h

theorem after (p : Phrase α) (hq : GivesAt call q R) : GivesAt call (p *> q) R := (hq.last p).node fun _ _ _ _ h => h

end GivesAt

namespace Gives

variable {p p' : Phrase α} {q : Phrase β} {Q : α → Prop} {R : β → Prop}

theorem any (p : Phrase α) : Gives call p fun _ => True := fun _ _ _ _ => trivial

theorem orElse (hp : Gives call p Q) (hp' : Gives call p' Q) : Gives call (p <|> p') Q :=
  GivesAt.orElse (Q := fun v _ => Q v) hp hp'

theorem node {build : Nat → Nat → α → β} (hp : Gives call p Q) (hbuild : ∀ i j a, Q a → R (build i j a)) :
    Gives call (.node build p) R :=
  GivesAt.node (Q := fun v _ => Q v) (R := fun v _ => R v) hp fun i j a _ => hbuild i j a

theorem map {build : α → β} (hp : Gives call p Q) (hbuild : ∀ a, Q a → R (build a)) : Gives call (.map build p) R :=
  hp.node fun _ _ => hbuild

theorem both (hp : Gives call p Q) (hq : Gives call q R) : Gives call (.seq p q) fun v => Q v.1 ∧ R v.2 := by
  intro c v c' h
  obtain ⟨c₁, h₁, h₂⟩ := Peg.read_seq_ok.1 h
  exact ⟨hp c v.1 c₁ h₁, hq c₁ v.2 c' h₂⟩

theorem after (p : Phrase α) (hq : Gives call q R) : Gives call (p *> q) R := ((any p).both hq).map fun _ h => h.2

theorem before (hp : Gives call p Q) (q : Phrase β) : Gives call (p <* q) Q := (hp.both (any q)).map fun _ h => h.1

theorem opt (hp : Gives call p Q) : Gives call (.opt p) fun v => ∀ a ∈ v, Q a := by
  intro c v c' h
  rcases Peg.read_opt_ok.1 h with ⟨a, rfl, ha⟩ | ⟨rfl, -⟩
  · intro b hb
    exact Option.mem_some_iff.1 hb ▸ hp c a c' ha
  · intro b hb
    cases hb

theorem many (hp : Gives call p Q) : Gives call (.many p) fun v => ∀ a ∈ v, Q a := by
  intro c v c' h
  rw [Peg.read_many] at h
  exact Peg.repeated_gives (Q := fun _ a _ => Q a) (R := fun _ as _ => ∀ a ∈ as, Q a) hp (fun _ => List.forall_mem_nil Q)
    (fun _ _ _ _ _ ha has => List.forall_mem_cons.2 ⟨ha, has⟩) _ c v c' h

/-- A match and more of them. -/
theorem cons {q : Phrase (List α)} (hp : Gives call p Q) (hq : Gives call q fun v => ∀ a ∈ v, Q a) :
    Gives call (.map (fun (first, rest) => first :: rest) (.seq p q)) fun v => v ≠ [] ∧ ∀ a ∈ v, Q a :=
  (hp.both hq).map fun _ h => ⟨List.cons_ne_nil _ _, List.forall_mem_cons.2 h⟩

theorem atLeastOne (hp : Gives call p Q) : Gives call (.atLeastOne p) fun v => v ≠ [] ∧ ∀ a ∈ v, Q a := hp.cons hp.many

theorem separated (q : Phrase β) (hp : Gives call p Q) : Gives call (separated q p) fun v => v ≠ [] ∧ ∀ a ∈ v, Q a :=
  hp.cons (hp.after q).many

theorem commaList (hp : Gives call p Q) : Gives call (commaList p) fun v => v ≠ [] ∧ ∀ a ∈ v, Q a := hp.separated _

/-- A list that may be missing. -/
theorem perhaps {q : Phrase (List α)} (hq : Gives call q fun v => v ≠ [] ∧ ∀ a ∈ v, Q a) :
    Gives call (.opt q) fun v => ∀ a ∈ v.getD [], Q a := by
  intro c v c' h
  cases v with
  | none => exact List.forall_mem_nil Q
  | some as => exact (hq.opt c _ c' h as rfl).2

theorem between (left right : String) (hp : Gives call p Q) : Gives call (between left p right) Q :=
  ((hp.after _).before _).before _

theorem block (hp : Gives call p Q) : Gives call (block p) fun v => v ≠ [] ∧ ∀ a ∈ v, Q a :=
  (((hp.separated _).after _).before _).before _

end Gives

/-- What each match keeps of what has been built up to it, a chain of matches keeps. -/
theorem foldl_of_read_many {p : Phrase α} {step : β → α → β} {P : β → Cursor → Prop}
    (hstep : ∀ b c a c', P b c → p.read call c = .ok a c' → P (step b a) c') {b : β} {c c' : Cursor} {as : List α} (hb : P b c)
    (h : (Peg.many p).read call c = .ok as c') : P (as.foldl step b) c' := by
  rw [Peg.read_many] at h
  exact Peg.repeated_gives (Q := fun c a c' => p.read call c = .ok a c')
    (R := fun c as c' => ∀ b, P b c → P (as.foldl step b) c') (fun _ _ _ ha => ha) (fun _ _ hb => hb)
    (fun c a c' as c'' ha ih b hb => ih (step b a) (hstep b c a c' hb ha)) _ c as c' h b hb

/-- Elements in brackets that are not one alone are two or more. -/
theorem two_le_length {elements : List α} (hne : elements ≠ []) (hone : ∀ inner, elements ≠ [inner]) : 2 ≤ elements.length := by
  match elements with
  | [] => exact absurd rfl hne
  | [inner] => exact absurd rfl (hone inner)
  | _ :: _ :: _ => exact Nat.le_add_left 2 _

/-! ## Names that are no keywords -/

theorem gives_lowerName : Gives call lowerName (· ∉ keywords) := by
  intro c v c' h
  obtain ⟨_, c₁, hkeyword, hname⟩ := Peg.read_andThen_ok.1 h
  obtain ⟨rfl, hfail⟩ := Peg.read_without_ok.1 hkeyword
  obtain ⟨text, htext, rfl⟩ := Peg.read_node_ok.1 hname
  obtain ⟨n, hn, rfl, -⟩ := Peg.read_lexeme_ok.1 htext
  exact take_notMem_keywords (Peg.read_lexeme_fail.1 hfail) (reads_nameLength? _ _ n hn).2 (nameLength?_spec hn).2

theorem gives_upperName : Gives call upperName (· ∉ keywords) := by
  intro c v c' h
  obtain ⟨text, htext, rfl⟩ := Peg.read_node_ok.1 h
  obtain ⟨n, hn, rfl, -⟩ := Peg.read_lexeme_ok.1 htext
  obtain ⟨hfirst, -⟩ := nameLength?_spec hn
  refine notMem_keywords_of_isConstructorName ?_
  rw [isConstructorName, String.toList_ofList, List.head?_take, if_neg (Nat.ne_of_gt (reads_nameLength? _ _ n hn).1)]
  exact hfirst

/-- A dotted name is taken apart into its qualifier and its last segment. The segment begins as it must; without a qualifier it is all
that was read; and if it is capitalised, what follows is no dot with another segment. -/
theorem read_dotted {l : Lexeme} {last : Char → Bool} (hl : l.length? = dottedLength? last)
    (hlast : ∀ c, last c = true → isNameChar c = true) {c c' : Cursor} {v : ModuleName × String}
    (h : (Peg.map qualified (.lexeme l)).read call c = .ok v c') :
    v.2.toList.head?.any last = true ∧
      (v.1 = [] → ∃ n ≤ c.rest.length, v.2 = String.ofList (c.rest.take n) ∧ (c.rest.drop n).head?.any isNameChar = false) ∧
      (isConstructorName v.2 = true → ∀ d after, c'.rest = '.' :: d :: after → last d = false) := by
  obtain ⟨text, htext, rfl⟩ := Peg.read_node_ok.1 h
  obtain ⟨n, hn, rfl, rfl⟩ := Peg.read_lexeme_ok.1 htext
  rw [hl] at hn
  obtain ⟨segments, hne, hsegments, htake, hend, hstop⟩ := dottedLength?_spec hn
  have hdots : ∀ s ∈ segments, '.' ∉ s := by
    intro s hs
    obtain ⟨d, rest, rfl, hd, hrest⟩ := hsegments s hs
    exact dot_notMem (List.forall_mem_cons.2 ⟨hlast d hd, hrest⟩)
  obtain ⟨qualifier, name, rfl⟩ : ∃ qualifier name, segments = qualifier ++ [name] :=
    ⟨_, _, (List.dropLast_append_getLast hne).symm⟩
  have hparts : qualified (c.rest.take n) = (qualifier.map String.ofList, String.ofList name) := by
    rw [htake, qualified_intercalate hdots]
  simp only [hparts]
  refine ⟨?_, ?_, ?_⟩
  · obtain ⟨d, rest, rfl, hd, -⟩ := hsegments name (by simp)
    rw [String.toList_ofList]
    exact hd
  · intro hqualifier
    obtain rfl := List.map_eq_nil_iff.1 hqualifier
    rw [List.nil_append, List.intercalate_singleton] at htake
    exact ⟨n, (reads_dottedLength? last _ n hn).2, by rw [htake], hend⟩
  · intro hupper d after hafter
    rw [isConstructorName, String.toList_ofList] at hupper
    exact hstop name (by simp) hupper d after hafter

theorem gives_qualifiedUpper : Gives call qualifiedUpper fun v => v.2 ∉ keywords := by
  intro c v c' h
  obtain ⟨hfirst, -, -⟩ := read_dotted rfl (fun _ => isNameChar_of_isUpper) h
  exact notMem_keywords_of_isConstructorName hfirst

/-! ## Rules -/

/-- The shape of what a rule gives. -/
def shapeOf : (r : Rule) → r.Sem → Prop
  | .typeExpr, t | .typeAtom, t => t.WellShaped
  | .pattern, p => p.ShapedThroughout
  | .consPattern, p => p.ShapedThroughout ∧ p.isAliased = false
  | .patternAtom, p => p.ShapedThroughout ∧ p.isAtomic = true
  | .expr, e => e.ShapedThroughout
  | .operand, e => e.ShapedThroughout ∧ e.isBinary = false
  | .postfixAtom, e | .atom, e => e.ShapedThroughout ∧ e.isSimple = true
  | .setter, s => s.name ∉ keywords ∧ s.value.ShapedThroughout
  | .arm, a => a.pattern.ShapedThroughout ∧ a.body.ShapedThroughout
  | .letItem, i => i.ShapedThroughout

variable {locate : Locate} (hcall : ∀ r, Gives call (rule r) (shapeOf r))

include hcall

/-! ## Types -/

theorem gives_typeGroup : Gives call (typeGroup locate) TypeExpr.WellShaped := by
  refine ((hcall .typeExpr).commaList.between _ _).node fun i j elements h => ?_
  obtain ⟨hne, hall⟩ := h
  split
  · exact hall _ List.mem_cons_self
  · next hone => exact .tuple _ (two_le_length hne hone) hall

theorem gives_fieldType : Gives call (fieldType locate) fun f => f.name ∉ keywords ∧ f.type.WellShaped :=
  (gives_lowerName.both ((hcall .typeExpr).after _)).node fun _ _ _ h => h

theorem gives_recordType : Gives call (recordType locate) TypeExpr.WellShaped := by
  have hbase : Gives call recordBase (· ∉ keywords) := gives_lowerName.before _
  refine ((hbase.opt.both (gives_fieldType hcall).commaList.perhaps).between _ _).node fun i j v h => ?_
  exact .record _ (fun f hf => (h.2 f hf).1) (fun f hf => (h.2 f hf).2) h.1

theorem gives_typeAtom : Gives call (typeAtom locate) TypeExpr.WellShaped := by
  refine .orElse ((Gives.any _).node fun _ _ _ _ => .unit _) ?_
  refine .orElse (gives_typeGroup hcall) (.orElse (gives_recordType hcall) ?_)
  refine .orElse (gives_qualifiedUpper.node fun _ _ _ h => ?_) (gives_lowerName.node fun _ _ _ h => .var _ h)
  exact .reference _ h (List.forall_mem_nil _)

theorem gives_appliedType : Gives call (appliedType locate) TypeExpr.WellShaped :=
  (gives_qualifiedUpper.both ((hcall .typeAtom).after _).atLeastOne).node fun _ _ _ h => .reference _ h.1 h.2.2

theorem gives_typeExpr : Gives call (typeExpr locate) TypeExpr.WellShaped := by
  refine (((gives_appliedType hcall).orElse (hcall .typeAtom)).both ((hcall .typeExpr).after _).opt).node fun i j v h => ?_
  obtain ⟨argument, result⟩ := v
  cases result with
  | none => exact h.1
  | some result => exact .function _ h.1 (h.2 result rfl)

/-! ## Patterns -/

theorem gives_patternGroup : Gives call (patternGroup locate) (shapeOf .patternAtom) := by
  refine ((hcall .pattern).commaList.between _ _).node fun i j elements h => ?_
  obtain ⟨hne, hall⟩ := h
  split
  · exact ⟨Pattern.shapedThroughout_iff.2 ⟨trivial, hall⟩, rfl⟩
  · next hone => exact ⟨Pattern.shapedThroughout_iff.2 ⟨two_le_length hne hone, hall⟩, rfl⟩

theorem gives_listPattern : Gives call (listPattern locate) (shapeOf .patternAtom) :=
  ((hcall .pattern).commaList.perhaps.between _ _).node fun _ _ _ h => ⟨Pattern.shapedThroughout_iff.2 ⟨trivial, h⟩, rfl⟩

omit hcall in
theorem gives_recordPattern : Gives call (recordPattern locate) (shapeOf .patternAtom) :=
  (gives_lowerName.commaList.perhaps.between _ _).node fun _ _ _ h =>
    ⟨Pattern.shapedThroughout_iff.2 ⟨h, List.forall_mem_nil _⟩, rfl⟩

theorem gives_patternAtom : Gives call (patternAtom locate) (shapeOf .patternAtom) := by
  have hleaf : ∀ {p : Pattern}, p.children = [] → p.WellShaped → p.ShapedThroughout := fun hnone hp =>
    Pattern.shapedThroughout_iff.2 ⟨hp, by simp [hnone]⟩
  refine .orElse ((Gives.any _).node fun _ _ _ _ => ⟨hleaf rfl trivial, rfl⟩) ?_
  refine .orElse ((Gives.any _).node fun _ _ _ _ => ⟨hleaf rfl trivial, rfl⟩) ?_
  refine .orElse (gives_patternGroup hcall) (.orElse (gives_listPattern hcall) (.orElse gives_recordPattern ?_))
  refine .orElse (gives_qualifiedUpper.node fun _ _ _ h => ?_) (gives_lowerName.node fun _ _ _ h => ⟨hleaf rfl h, rfl⟩)
  exact ⟨hleaf rfl ⟨h, List.forall_mem_nil _⟩, rfl⟩

/-- A constructor with arguments, or a pattern that needs no parentheses: in either case neither `::` nor an alias. -/
theorem gives_appliedPattern : Gives call (appliedPattern locate) fun p =>
    p.ShapedThroughout ∧ p.isCons = false ∧ p.isAliased = false := by
  refine .orElse ?_ ?_
  · refine (gives_qualifiedUpper.both ((hcall .patternAtom).after _).atLeastOne).node fun i j v h => ⟨?_, rfl, rfl⟩
    exact Pattern.shapedThroughout_iff.2 ⟨⟨h.1, fun p hp => (h.2.2 p hp).2⟩, fun p hp => (h.2.2 p hp).1⟩
  · intro c p c' h
    obtain ⟨hp, hatomic⟩ := hcall .patternAtom c p c' h
    cases p with
    | cons | aliased => cases hatomic
    | _ => exact ⟨hp, rfl, rfl⟩

theorem gives_consPattern : Gives call (consPattern locate) (shapeOf .consPattern) := by
  refine ((gives_appliedPattern hcall).both ((hcall .consPattern).after _).opt).node fun i j v h => ?_
  obtain ⟨head, tail⟩ := v
  obtain ⟨⟨hhead, hcons, haliased⟩, htail⟩ := h
  cases tail with
  | none => exact ⟨hhead, haliased⟩
  | some tail =>
    obtain ⟨htail, haliased'⟩ := htail tail rfl
    refine ⟨Pattern.shapedThroughout_iff.2 ⟨⟨hcons, haliased, haliased'⟩, ?_⟩, rfl⟩
    simpa [Pattern.children] using ⟨hhead, htail⟩

theorem gives_pattern : Gives call (pattern locate) Pattern.ShapedThroughout := by
  have halias : Gives call (aliasName locate) fun v => v.1 ∉ keywords := (gives_lowerName.after _).node fun _ _ _ h => h
  intro c v c' h
  obtain ⟨⟨inner, aliases⟩, hboth, rfl⟩ := Peg.read_node_ok.1 h
  obtain ⟨c₁, hinner, haliases⟩ := Peg.read_seq_ok.1 hboth
  obtain ⟨hinner, -⟩ := hcall .consPattern _ _ _ hinner
  -- Each alias is around all that comes before it.
  refine foldl_of_read_many (P := fun (p : Pattern) _ => p.ShapedThroughout) (fun p c a c' hp hread => ?_) hinner haliases
  exact Pattern.shapedThroughout_iff.2 ⟨halias c a c' hread, List.forall_mem_singleton.2 hp⟩

/-! ## Atoms -/

theorem gives_exprGroup : Gives call (exprGroup locate) (shapeOf .atom) := by
  refine ((hcall .expr).commaList.between _ _).node fun i j elements h => ?_
  obtain ⟨hne, hall⟩ := h
  split
  · exact ⟨.intro rfl trivial hall, rfl⟩
  · next hone => exact ⟨.intro rfl (two_le_length hne hone) hall, rfl⟩

theorem gives_listExpr : Gives call (listExpr locate) (shapeOf .atom) :=
  ((hcall .expr).commaList.perhaps.between _ _).node fun _ _ _ h => ⟨.intro rfl trivial h, rfl⟩

theorem gives_setter : Gives call (setter locate) (shapeOf .setter) :=
  (gives_lowerName.both ((hcall .expr).after _)).node fun _ _ _ h => h

theorem gives_recordUpdate : Gives call (recordUpdate locate) (shapeOf .atom) := by
  refine ((gives_lowerName.both ((hcall .setter).commaList.after _)).between _ _).node fun i j v h => ⟨?_, rfl⟩
  obtain ⟨hname, hne, hsetters⟩ := h
  refine .intro rfl ⟨hname, hne, fun s hs => (hsetters s hs).1⟩ ?_
  exact List.forall_mem_map.2 fun s hs => (hsetters s hs).2

theorem gives_recordExpr : Gives call (recordExpr locate) (shapeOf .atom) := by
  refine ((hcall .setter).commaList.perhaps.between _ _).node fun i j v h => ⟨?_, rfl⟩
  refine .intro rfl (fun s hs => (h s hs).1) ?_
  exact List.forall_mem_map.2 fun s hs => (h s hs).2

omit hcall in
/-- A name without a qualifier is no keyword, and no field follows a constructor. -/
theorem read_reference {c c' : Cursor} {e : Expr} (h : (reference locate).read call c = .ok e c') :
    shapeOf .atom e ∧ (e.reference? ≠ none → Lexeme.field.length? c'.rest = none) := by
  obtain ⟨⟨qualifier, name⟩, hname, rfl⟩ := Peg.read_node_ok.1 h
  obtain ⟨_, c₁, hkeyword, hpath⟩ := Peg.read_andThen_ok.1 hname
  obtain ⟨rfl, hfail⟩ := Peg.read_without_ok.1 hkeyword
  have hletter : ∀ d, isLetter d = true → isNameChar d = true := fun _ hd => by simp [isNameChar, hd]
  obtain ⟨-, hplain, hstop⟩ := read_dotted rfl hletter hpath
  refine ⟨⟨.intro rfl (fun hqualifier => ?_) (List.forall_mem_nil _), rfl⟩, fun hconstructor => ?_⟩
  · obtain ⟨n, hle, htext, hend⟩ := hplain hqualifier
    change name = _ at htext
    rw [htext]
    exact take_notMem_keywords (Peg.read_lexeme_fail.1 hfail) hle hend
  · have hupper : isConstructorName name = true := by
      by_contra hlower
      exact hconstructor (if_neg hlower)
    exact length?_field_eq_none fun d after hrest => (Bool.or_eq_false_iff.1 (hstop hupper d after hrest)).1

theorem gives_atom : Gives call (atom locate) (shapeOf .atom) := by
  refine .orElse ((Gives.any _).node fun _ _ _ _ => ⟨.intro rfl trivial (List.forall_mem_nil _), rfl⟩) ?_
  refine .orElse ((Gives.any _).node fun _ _ _ _ => ⟨.intro rfl trivial (List.forall_mem_nil _), rfl⟩) ?_
  refine .orElse (gives_exprGroup hcall) (.orElse (gives_listExpr hcall) ?_)
  refine .orElse (gives_recordUpdate hcall) (.orElse (gives_recordExpr hcall) ?_)
  refine .orElse ((Gives.any _).node fun _ _ _ _ => ⟨.intro rfl trivial (List.forall_mem_nil _), rfl⟩) ?_
  exact fun _ _ _ h => (read_reference h).1

/-! ## Operands -/

theorem gives_negation : Gives call (negation locate) (shapeOf .operand) := by
  refine ((hcall .postfixAtom).after _).node fun i j inner h => ⟨.intro rfl trivial ?_, rfl⟩
  simpa [Expr.children] using h.1

theorem gives_application : Gives call (application locate) (shapeOf .operand) := by
  refine ((hcall .postfixAtom).both ((hcall .postfixAtom).after _).many).node fun i j v h => ?_
  obtain ⟨function, arguments⟩ := v
  have hall : ∀ e ∈ function :: arguments, shapeOf .postfixAtom e := List.forall_mem_cons.2 h
  cases arguments with
  | nil => exact ⟨h.1.1, Expr.isBinary_of_isSimple h.1.2⟩
  | cons argument arguments =>
    exact ⟨.intro rfl ⟨List.cons_ne_nil _ _, fun e he => (hall e he).2⟩ fun e he => (hall e he).1, rfl⟩

theorem gives_conditional : Gives call (conditional locate) (shapeOf .operand) := by
  refine (((hcall .expr).after _).both (((hcall .expr).after _).both ((hcall .expr).after _))).node fun i j v h => ?_
  obtain ⟨hcondition, hthen, helse⟩ := h
  refine ⟨.intro rfl trivial ?_, rfl⟩
  exact List.forall_mem_cons.2 ⟨hcondition, List.forall_mem_cons.2 ⟨hthen, List.forall_mem_singleton.2 helse⟩⟩

theorem gives_arm : Gives call arm (shapeOf .arm) := ((hcall .pattern).both ((hcall .expr).after _)).map fun _ h => h

theorem gives_caseOf : Gives call (caseOf locate) (shapeOf .operand) := by
  refine (((hcall .expr).after _).both ((hcall .arm).block.after _)).node fun i j v h => ⟨?_, rfl⟩
  obtain ⟨hsubject, hne, harms⟩ := h
  refine Expr.shapedThroughout_iff.2 ⟨⟨hne, List.forall_mem_map.2 fun a ha => (harms a ha).1⟩, ?_⟩
  exact List.forall_mem_cons.2 ⟨hsubject, List.forall_mem_map.2 fun a ha => (harms a ha).2⟩

theorem gives_signature : Gives call (signature locate) Signature.WellShaped :=
  (gives_lowerName.both ((hcall .typeExpr).after _)).node fun _ _ _ h => ⟨h.1, h.2⟩

theorem gives_functionDecl : Gives call (functionDecl locate) FunctionDecl.ShapedThroughout := by
  refine (gives_lowerName.both (((hcall .patternAtom).after _).many.both ((hcall .expr).after _))).node fun i j v h => ?_
  obtain ⟨hname, harguments, hbody⟩ := h
  exact ⟨⟨hname, fun s hs => by cases hs⟩, fun p hp => (harguments p hp).1, hbody⟩

theorem gives_destructuring : Gives call (destructuring locate) LetDecl.ShapedThroughout := by
  refine ((hcall .pattern).both ((hcall .expr).after _)).node fun i j v h => ⟨trivial, ?_, h.2⟩
  exact List.forall_mem_singleton.2 h.1

theorem gives_letItem : Gives call (letItem locate) LetItem.ShapedThroughout := by
  refine .orElse ((gives_signature hcall).map fun _ h => h) (.orElse ?_ (.after _ ?_))
  · exact (gives_functionDecl hcall).map fun _ h => LetDecl.shapedThroughout_function.2 h
  · exact (gives_destructuring hcall).map fun _ h => h

theorem gives_letIn : Gives call (letIn locate) (shapeOf .operand) := by
  refine (((hcall .letItem).block.after _).both ((hcall .expr).after _)).node fun i j v h => ⟨?_, rfl⟩
  obtain ⟨⟨-, hitems⟩, hbody⟩ := h
  have hdecls := LetItem.shapedThroughout_attach hitems
  refine Expr.shapedThroughout_iff.2 ⟨⟨fun d hd => (hdecls d hd).shape, fun p hp => ?_⟩, ?_⟩
  · obtain ⟨d, hd, hp⟩ := List.mem_flatMap.1 hp
    exact (hdecls d hd).patterns p hp
  · refine List.forall_mem_append.2 ⟨List.forall_mem_map.2 fun d hd => (hdecls d hd).body, ?_⟩
    exact List.forall_mem_singleton.2 hbody

theorem gives_lambda : Gives call (lambda locate) (shapeOf .operand) := by
  refine ((((hcall .patternAtom).separated _).after _).both ((hcall .expr).after _)).node fun i j v h => ⟨?_, rfl⟩
  obtain ⟨⟨hne, harguments⟩, hbody⟩ := h
  refine Expr.shapedThroughout_iff.2 ⟨⟨hne, fun p hp => (harguments p hp).1⟩, ?_⟩
  exact List.forall_mem_singleton.2 hbody

theorem gives_operand : Gives call (operand locate) (shapeOf .operand) := by
  refine .orElse (gives_lambda hcall) (.orElse (gives_conditional hcall) (.orElse (gives_caseOf hcall) ?_))
  exact .orElse (gives_letIn hcall) (.orElse (gives_negation hcall) (gives_application hcall))

omit hcall

/-! ## Chains -/

/-- An operator with the operand after it. -/
def link : Phrase (String × Expr) := .seq (gap *> operator) (gap *> rule .operand)

/-- No operator with an operand can be read at the place, however much fuel there is. -/
def NoLink (locate : Locate) (c : Cursor) : Prop := ∀ fuel v c', link.read (Peg.run (rules locate) fuel) c ≠ .ok v c'

/-- Where an expression has ended no operator with an operand follows. -/
theorem noLink_of_run_expr : ∀ {fuel : Nat} {c c' : Cursor} {e : Expr}, Peg.run (rules locate) fuel .expr c = .ok e c' →
    NoLink locate c'
  | 0, _, _, _, h => by cases h
  | fuel + 1, c, c', e, h => by
    obtain ⟨v, hboth, -⟩ := Peg.read_node_ok.1 (show expr.read (Peg.run (rules locate) fuel) c = .ok e c' from h)
    obtain ⟨c₁, -, hlinks⟩ := Peg.read_seq_ok.1 hboth
    exact Peg.read_ne_ok_after_many (rules_productive locate) rfl hlinks

/-- An operand that takes in operators ends with an expression. -/
theorem noLink_operand (hcall : ∀ r, Gives call (rule r) (shapeOf r)) (hexpr : GivesAt call (rule .expr) fun _ c => NoLink locate c) :
    GivesAt call (operand locate) fun e c => e.isOpen = true → NoLink locate c := by
  refine .orElse (((hexpr.after _).last _).node fun _ _ _ _ h _ => h) ?_
  refine .orElse ((((hexpr.after _).last _).last _).node fun _ _ _ _ h _ => h) ?_
  refine .orElse (.node (Gives.any _) fun _ _ _ _ _ hopen => by cases hopen) ?_
  refine .orElse (((hexpr.after _).last _).node fun _ _ _ _ h _ => h) ?_
  refine .orElse (.node (Gives.any _) fun _ _ _ _ _ hopen => by cases hopen) ?_
  -- What is applied, or stands alone, is simple.
  refine .node ((hcall .postfixAtom).both (.any _)) fun i j v c h hopen => ?_
  obtain ⟨function, arguments⟩ := v
  cases arguments with
  | nil => exact absurd hopen (by simp [Expr.isOpen_of_isSimple h.1.2])
  | cons argument arguments => cases hopen

/-- No field follows an atom that is a constructor. -/
theorem noField_atom : GivesAt call (atom locate) fun e c => e.reference? ≠ none → Lexeme.field.length? c.rest = none := by
  refine .orElse (.node (Gives.any _) fun _ _ _ _ _ h => absurd rfl h) ?_
  refine .orElse (.node (Gives.any _) fun _ _ _ _ _ h => absurd rfl h) ?_
  refine .orElse (.node (Gives.any _) fun _ _ elements _ _ h => absurd ?_ h) ?_
  · split <;> rfl
  refine .orElse (.node (Gives.any _) fun _ _ _ _ _ h => absurd rfl h) ?_
  refine .orElse (.node (Gives.any _) fun _ _ _ _ _ h => absurd rfl h) ?_
  refine .orElse (.node (Gives.any _) fun _ _ _ _ _ h => absurd rfl h) ?_
  refine .orElse (.node (Gives.any _) fun _ _ _ _ _ h => absurd rfl h) ?_
  exact fun _ _ _ h => (read_reference h).2

/-! ## Runs -/

/-- What is known of the rules: they give trees of their shapes; no operator with an operand follows an expression, nor an operand that
takes them in; and no field follows a constructor. -/
structure Shaping (locate : Locate) (call : (r : Rule) → Cursor → Outcome r.Sem) : Prop where
  gives : ∀ r, Gives call (rule r) (shapeOf r)
  expr : GivesAt call (rule .expr) fun _ c => NoLink locate c
  operand : GivesAt call (rule .operand) fun e c => e.isOpen = true → NoLink locate c
  atom : GivesAt call (rule .atom) fun e c => e.reference? ≠ none → Lexeme.field.length? c.rest = none

/-- Accesses leave a simple expression simple; none of them is on a constructor, for no field is there to be read. -/
theorem Shaping.gives_postfixAtom (hcall : Shaping locate call) : Gives call (postfixAtom locate) (shapeOf .postfixAtom) := by
  intro c v c' h
  obtain ⟨⟨inner, accesses⟩, hboth, rfl⟩ := Peg.read_node_ok.1 h
  obtain ⟨c₁, hinner, haccesses⟩ := Peg.read_seq_ok.1 hboth
  refine (foldl_of_read_many (P := fun e c => shapeOf .postfixAtom e ∧ (e.reference? ≠ none → Lexeme.field.length? c.rest = none))
    ?_ ⟨hcall.gives .atom _ _ _ hinner, hcall.atom _ _ _ hinner⟩ haccesses).1
  rintro e c access c' ⟨he, hstop⟩ haccess
  obtain ⟨field, hfield, -⟩ := Peg.read_node_ok.1 haccess
  obtain ⟨text, htext, -⟩ := Peg.read_node_ok.1 hfield
  obtain ⟨n, hn, -⟩ := Peg.read_lexeme_ok.1 htext
  have hreference : e.reference? = none := by
    by_contra hsome
    rw [hstop hsome] at hn
    cases hn
  exact ⟨⟨.intro rfl hreference (List.forall_mem_singleton.2 he.1), rfl⟩, fun h => absurd rfl h⟩

/-- Operators group to the left. None of them stands after an operand that takes it in, for there is none to be read. -/
theorem gives_expr {fuel : Nat} (hcall : Shaping locate (Peg.run (rules locate) fuel)) :
    Gives (Peg.run (rules locate) fuel) expr Expr.ShapedThroughout := by
  intro c v c' h
  obtain ⟨⟨first, links⟩, hboth, rfl⟩ := Peg.read_node_ok.1 h
  obtain ⟨c₁, hfirst, hlinks⟩ := Peg.read_seq_ok.1 hboth
  obtain ⟨hshape, hbinary⟩ := hcall.gives .operand _ _ _ hfirst
  have hstop : first.endsOpen = true → NoLink locate c₁ := by
    rw [Expr.endsOpen_of_not_isBinary hbinary]
    exact hcall.operand _ _ _ hfirst
  refine (foldl_of_read_many (P := fun (left : Expr) c => left.ShapedThroughout ∧ (left.endsOpen = true → NoLink locate c))
    ?_ ⟨hshape, hstop⟩ hlinks).1
  rintro left c ⟨op, right⟩ c' ⟨hleft, hstop⟩ hlink
  have hopen : left.endsOpen = false := by
    by_contra hopen
    exact hstop (Bool.not_eq_false _ ▸ hopen) fuel _ _ hlink
  obtain ⟨c₂, -, hright⟩ := Peg.read_seq_ok.1 hlink
  obtain ⟨_, c₃, -, hright⟩ := Peg.read_andThen_ok.1 hright
  obtain ⟨hshape, hbinary⟩ := hcall.gives .operand _ _ _ hright
  refine ⟨.intro rfl ⟨hbinary, hopen⟩ ?_, hcall.operand _ _ _ hright⟩
  exact List.forall_mem_cons.2 ⟨hleft, List.forall_mem_singleton.2 hshape⟩

/-- Runs with one more unit of fuel give trees of their shapes, when runs with less do. -/
theorem Shaping.succ {fuel : Nat} (hcall : Shaping locate (Peg.run (rules locate) fuel)) :
    Shaping locate (Peg.run (rules locate) (fuel + 1)) where
  gives r := by
    cases r with
    | typeExpr => exact gives_typeExpr hcall.gives
    | typeAtom => exact gives_typeAtom hcall.gives
    | pattern => exact gives_pattern hcall.gives
    | consPattern => exact gives_consPattern hcall.gives
    | patternAtom => exact gives_patternAtom hcall.gives
    | expr => exact gives_expr hcall
    | operand => exact gives_operand hcall.gives
    | postfixAtom => exact hcall.gives_postfixAtom
    | atom => exact gives_atom hcall.gives
    | setter => exact gives_setter hcall.gives
    | arm => exact gives_arm hcall.gives
    | letItem => exact gives_letItem hcall.gives
  expr _ _ _ h := noLink_of_run_expr h
  operand := noLink_operand hcall.gives hcall.expr
  atom := noField_atom

/-- All runs give trees of their shapes. -/
theorem shaping_run (locate : Locate) : ∀ fuel, Shaping locate (Peg.run (rules locate) fuel)
  | 0 => by
    have hnone : ∀ {r : Rule} {Q : r.Sem → Cursor → Prop}, GivesAt (Peg.run (rules locate) 0) (rule r) Q := by
      intro r Q c v c' h
      cases h
    exact ⟨fun r => hnone, hnone, hnone, hnone⟩
  | fuel + 1 => (shaping_run locate fuel).succ

/-! ## Modules -/

section Declarations

variable (hcall : ∀ r, Gives call (rule r) (shapeOf r))

include hcall

theorem gives_valueConstructor : Gives call (valueConstructor locate) fun k =>
    k.name ∉ keywords ∧ ∀ t ∈ k.arguments, t.WellShaped :=
  (gives_upperName.both ((hcall .typeAtom).after _).many).node fun _ _ _ h => h

theorem gives_customType : Gives call (customType locate) fun d => (Declaration.customType d).WellShaped := by
  have hconstructor : Gives call (valueConstructor locate) _ := gives_valueConstructor hcall
  refine ((gives_upperName.after _).both ((gives_lowerName.after _).many.both
    ((hconstructor.after _).both (hconstructor.after _).many))).node fun i j v h => ?_
  obtain ⟨hname, hparameters, hconstructors⟩ := h
  exact ⟨hname, hparameters, List.cons_ne_nil _ _, List.forall_mem_cons.2 hconstructors⟩

theorem gives_typeAlias : Gives call (typeAlias locate) fun d => (Declaration.typeAlias d).WellShaped :=
  ((gives_upperName.after _).both ((gives_lowerName.after _).many.both ((hcall .typeExpr).after _))).node fun _ _ _ h => h

theorem gives_port : Gives call (port locate) fun d => (Declaration.port d).WellShaped :=
  ((gives_lowerName.after _).both ((hcall .typeExpr).after _)).node fun _ _ _ h => h

omit hcall in
theorem gives_importDecl : Gives call (importDecl locate) fun i => ∀ name ∈ i.aliasName, name ∉ keywords :=
  ((Gives.any _).both ((gives_upperName.after _).opt.both (.any _))).node fun _ _ _ h => h.2.1

theorem gives_topItem : Gives call (topItem locate) TopItem.ShapedThroughout := by
  have hplain : ∀ {d : Declaration}, d.function? = none → d.WellShaped → d.ShapedThroughout :=
    fun hnone h => ⟨h, by simp [hnone]⟩
  refine .orElse ((Gives.any _).map fun _ _ => trivial) (.orElse (gives_importDecl.map fun _ h => h) ?_)
  refine .orElse ((gives_port hcall).map fun _ h => hplain rfl h) (.orElse ((gives_typeAlias hcall).map fun _ h => hplain rfl h) ?_)
  refine .orElse ((gives_customType hcall).map fun _ h => hplain rfl h) ?_
  refine .orElse ((gives_signature hcall).map fun _ h => hplain rfl h) ((gives_functionDecl hcall).map fun f h => ?_)
  exact ⟨h.shape, fun f' hf => Option.mem_some_iff.1 hf ▸ h⟩

theorem gives_topLevel : Gives call (topLevel locate) fun items => ∀ i ∈ items, i.ShapedThroughout :=
  ((((gives_topItem hcall).separated _).perhaps.after _).before _).map fun _ h => h

end Declarations

end Grammar

namespace Module

/-- **Parsed modules are well shaped.** -/
theorem parse_wellShaped {source file : String} {m : Module} (h : parse source file = .ok m) : m.WellShaped := by
  obtain ⟨l, items, -, hread, rfl, -⟩ := parse_ok_iff.1 h
  obtain ⟨next, hread, -⟩ := LaidOut.readPhrase_ok_iff.1 hread
  exact wellShaped_ofItems (Grammar.gives_topLevel (Grammar.shaping_run l.range _).gives _ _ _ hread) _ _

/-- A source with a chain of operators that ends with a function, an application, a field that is read, a record update, an
alias, a tuple that is destructured and a custom type. -/
theorem parse_wellShaped_of_arms :
    ∃ m, parse "type T = A T\nf (x :: y) = case g x.k of\n  A _ as z -> z + 1 * \\w -> -w\n  _ -> let (p, q) = y in \x7b p | r = q \x7d"
      "A.elm" = .ok m ∧ m.expressions.length = 16 ∧ (m.expressions.filter Expr.isBinary).length = 2 ∧ m.patterns.length = 12 ∧
      m.customTypes.length = 1 ∧ m.WellShaped := by
  obtain ⟨m, hm, htest⟩ := exists_parse_of_chars
    "type T = A T\nf (x :: y) = case g x.k of\n  A _ as z -> z + 1 * \\w -> -w\n  _ -> let (p, q) = y in \x7b p | r = q \x7d"
    rfl "A.elm" (fun m => m.expressions.length == 16 && (m.expressions.filter Expr.isBinary).length == 2 &&
      m.patterns.length == 12 && m.customTypes.length == 1) (by decide +kernel)
  simp only [Bool.and_eq_true, beq_iff_eq] at htest
  obtain ⟨⟨⟨hexpressions, hbinary⟩, hpatterns⟩, htypes⟩ := htest
  exact ⟨m, hm, hexpressions, hbinary, hpatterns, htypes, parse_wellShaped hm⟩

end Module

end ElmLint
