import ElmLint.Proofs.Bare
import ElmLint.Proofs.WrittenLiterals

/-!
# Reading the patterns of a rendering

The words of a pattern are read back as the pattern, apart from its place, when a word comes after them that ends patterns, or
nothing (`Grammar.readBack`). The proof goes by the parts of the grammar that a pattern is in: a pattern that needs no parentheses is
read whatever comes after it, a constructor with arguments up to what begins no argument, and so on (`Grammar.PatternReadBack`).
-/

namespace ElmLint

/-! ## Letters -/

theorem of_toNat_mem {p : Char → Bool} {start count : Nat}
    (h : ((List.range' start count).all fun n => p (Char.ofNat n)) = true) {c : Char} (hlow : start ≤ c.toNat)
    (hhigh : c.toNat < start + count) : p c = true := by
  have hc := List.all_eq_true.1 h c.toNat (List.mem_range'_1.2 ⟨hlow, hhigh⟩)
  rwa [Char.ofNat_toNat] at hc

/-- What holds of the capital letters. -/
theorem of_isUpper {p : Char → Bool} (h : ((List.range' 65 26).all fun n => p (Char.ofNat n)) = true) {c : Char}
    (hc : isUpper c = true) : p c = true := by
  simp only [isUpper, Bool.and_eq_true, decide_eq_true_eq, Char.le_def, UInt32.le_iff_toNat_le] at hc
  exact of_toNat_mem h hc.1 (Nat.lt_succ_of_le hc.2)

/-- What holds of the small letters. -/
theorem of_isLower {p : Char → Bool} (h : ((List.range' 97 26).all fun n => p (Char.ofNat n)) = true) {c : Char}
    (hc : isLower c = true) : p c = true := by
  simp only [isLower, Bool.and_eq_true, decide_eq_true_eq, Char.le_def, UInt32.le_iff_toNat_le] at hc
  exact of_toNat_mem h hc.1 (Nat.lt_succ_of_le hc.2)

namespace Grammar

variable {locate : Locate} {α : Type} {signs : List Sign}

/-- A class of words that begin with no character of `p` has none where such a character comes next. -/
theorem misses_of_class (l : Lexeme) {p : Char → Bool} (hl : l.isNullable = false) (h : ∀ c, l.begins c = true → p c = false)
    (hfirst : ∀ c ∈ firstChar? signs, p c = true) : Misses locate (Flush signs) (.lexeme l) := by
  refine misses_flush hl fun c hc => ?_
  cases hbegins : l.begins c with
  | false => exact hbegins
  | true =>
    have hnot := h c hbegins
    rw [hfirst c hc] at hnot
    cases hnot

/-- The words by which patterns and expressions other than names begin do not come next. -/
structure LetterStart (locate : Locate) (signs : List Sign) : Prop where
  literal : Misses locate (Flush signs) literal
  wildcard : Misses locate (Flush signs) (.lexeme .wildcard)
  field : Misses locate (Flush signs) (.lexeme .field)
  paren : Misses locate (Flush signs) (symbol "(")
  bracket : Misses locate (Flush signs) (symbol "[")
  brace : Misses locate (Flush signs) (symbol "\x7b")

theorem letterStart (hfirst : ∀ c ∈ firstChar? signs, isLetter c = true) : LetterStart locate signs := by
  have hdigit : ∀ c, isAnyDigit c = true → isLetter c = false := by
    intro c hc
    rw [← Bool.not_eq_true]
    intro hletter
    have hnot : (!isAnyDigit c) = true :=
      (Bool.or_eq_true_iff.1 hletter).elim (of_isLower (p := fun c => !isAnyDigit c) (by decide +kernel))
        (of_isUpper (p := fun c => !isAnyDigit c) (by decide +kernel))
    rw [hc] at hnot
    cases hnot
  refine ⟨?_, ?_, ?_, ?_, ?_, ?_⟩
  · refine (misses_of_class .float rfl hdigit hfirst).map.orElse_misses ((misses_of_class .int rfl hdigit hfirst).map.orElse_misses
      (Misses.orElse_misses (Misses.map ?_) (Misses.map ?_)))
    · exact misses_of_class _ rfl (fun c hc => beq_iff_eq.1 hc ▸ rfl) hfirst
    · exact misses_of_class _ rfl (fun c hc => beq_iff_eq.1 hc ▸ rfl) hfirst
  · exact misses_of_class _ rfl (fun c hc => beq_iff_eq.1 hc ▸ rfl) hfirst
  · exact misses_of_class _ rfl (fun c hc => beq_iff_eq.1 hc ▸ rfl) hfirst
  · exact misses_of_class _ rfl (fun c hc => Option.some.inj (beq_iff_eq.1 hc) ▸ rfl) hfirst
  · exact misses_of_class _ rfl (fun c hc => Option.some.inj (beq_iff_eq.1 hc) ▸ rfl) hfirst
  · exact misses_of_class _ rfl (fun c hc => Option.some.inj (beq_iff_eq.1 hc) ▸ rfl) hfirst

theorem misses_between {left right : String} {item : Phrase α} {P : List Char → Prop} (h : Misses locate P (symbol left)) :
    Misses locate P (between left item right) :=
  h.andThen.andThen.andSkip.andSkip

/-! ## Names -/

section Names

variable {qualifier : ModuleName} {name : String}

theorem takes_lowerName (h : IsLowerName name) :
    Takes locate (Flush (.inr name.toList :: signs)) lowerName (· = name) (After signs) := by
  refine (misses_lexeme_of_misses h.misses_keyword).without.andThen ?_
  exact (takes_lexeme_of_reads h.reads).map fun _ heq => heq ▸ String.ofList_toList

/-- A keyword is no name. -/
theorem misses_lowerName (word : String) (h : word ∈ keywords) : Misses locate (Flush (.inr word.toList :: signs)) lowerName :=
  (takes_lexeme_of_reads (reads_keyword word h)).without.andThen

theorem takes_qualifiedUpper (h : ∀ segment ∈ qualifier ++ [name], IsUpperName segment) :
    Takes locate (Flush (.inr (qualifiedWord qualifier name) :: signs)) qualifiedUpper (· = (qualifier, name)) (After signs) := by
  refine (takes_lexeme_of_reads (reads_upperPath_qualifiedWord h)).map fun _ heq => heq ▸ qualified_qualifiedWord fun segment hs => ?_
  exact dot_notMem (IsName.isNameChar (h segment hs) fun _ => isNameChar_of_isUpper)

/-- A small letter comes first in a name. -/
theorem firstChar?_lowerName (signs : List Sign) (h : IsLowerName name) :
    ∀ c ∈ firstChar? (.inr name.toList :: signs), isLower c = true := h.reads.begins

/-- A capital letter comes first in a capitalised name. -/
theorem firstChar?_qualifiedUpper (signs : List Sign) (h : ∀ segment ∈ qualifier ++ [name], IsUpperName segment) :
    ∀ c ∈ firstChar? (.inr (qualifiedWord qualifier name) :: signs), isUpper c = true :=
  (reads_upperPath_qualifiedWord h).begins

end Names

/-! ## Literals -/

/-- A digit or a quote: what literals other than the unit begin with. -/
def isLiteralStart (c : Char) : Bool := isAnyDigit c || c == '"' || c == '\''

/-- A literal other than the unit is one word. -/
theorem exists_words_literal {style : Style} {value : Literal} (hunit : value ≠ .unit) : ∃ w, value.words style = [w] := by
  cases value with
  | unit => exact absurd rfl hunit
  | _ => exact ⟨_, rfl⟩

theorem firstChar?_literal {style : Style} {value : Literal} (signs : List Sign) (h : value.Renderable style) (hunit : value ≠ .unit) :
    ∀ c ∈ firstChar? ((value.words style).map .inr ++ signs), isLiteralStart c = true := by
  have hdigits : ∀ n, ∀ c ∈ firstChar? (.inr (Nat.toDigits 10 n) :: signs), isLiteralStart c = true := fun n c hc => by
    simp [isLiteralStart, show isAnyDigit c = true from (reads_toDigits n).begins c hc]
  cases value with
  | int n => exact hdigits n
  | float x =>
    have hreads : Lexeme.float.ReadsWord (style.floatText x) := Lexeme.readsWord_of_solid (solid_of_floatLength? h.1) rfl h.1
    exact fun c hc => by simp [isLiteralStart, show isAnyDigit c = true from hreads.begins c hc]
  | string ps => exact fun c hc => by cases hc; rfl
  | char ps => exact fun c hc => by cases hc; rfl
  | unit => exact absurd rfl hunit
  | valueless text =>
    obtain ⟨n, -, htext⟩ := h
    rw [Literal.words, htext]
    exact hdigits n

/-- The unit is read back. -/
theorem takes_unit : Takes locate (Flush (.inr ['('] :: .inr [')'] :: signs)) unit (· = .unit) (After signs) :=
  Takes.map (((takes_symbol "(" (by decide)).andThen (takes_gap.of fun _ => After.indented)).andThen
    (takes_symbol ")" (by decide))) fun _ _ => rfl

/-! ## Words that end patterns -/

/-- The words that come after patterns. -/
def patternEnds : List (List Char) := [['-', '>'], ['='], [')'], [']'], [',']]

/-- A word that ends patterns comes next, or nothing. -/
def EndsPattern (signs : List Sign) : Prop := ∀ sign ∈ signs.head?, ∃ word ∈ patternEnds, sign = .inr word

theorem endsPattern_nil : EndsPattern [] := fun _ h => nomatch h

theorem endsPattern_cons {word : List Char} (h : word ∈ patternEnds) (signs : List Sign) : EndsPattern (.inr word :: signs) :=
  fun _ hsign => ⟨word, h, (Option.some.inj hsign).symm⟩

theorem EndsPattern.misses {p : Phrase α} (hp : p.nullable = false)
    (h : (patternEnds.all fun word => word.head?.all fun c => !p.begins c) = true) (hends : EndsPattern signs) :
    Misses locate (Flush signs) p :=
  EndsAt.misses hends hp h

theorem EndsPattern.misses_atom (hends : EndsPattern signs) : Misses locate (Flush signs) (rule .patternAtom) :=
  misses_rule (hends.misses rfl rfl)

/-- Before a letter, a pattern that needs no parentheses is a constructor or a variable. -/
theorem LetterStart.takes_pattern {R : Pattern → Prop} {Q : List Char → Prop} (h : LetterStart locate signs)
    (hname : Takes locate (Flush signs) (.node (fun i j (qualifier, name) => .named qualifier name [] (locate i j)) qualifiedUpper
      <|> .node (fun i j name => .var name (locate i j)) lowerName) R Q) :
    Takes locate (Flush signs) (patternAtom locate) R Q :=
  Misses.orElse h.wildcard.node (Misses.orElse (h.paren.andThen.andThen.map.orElse_misses h.literal).node
    (Misses.orElse (misses_between h.paren).node (Misses.orElse (misses_between h.bracket).node
      (Misses.orElse (misses_between h.brace).node hname))))

/-- No pattern begins with `as`. -/
theorem misses_atom_as : Misses locate (Flush (.inr ['a', 's'] :: signs)) (rule .patternAtom) := by
  refine misses_rule (Misses.orElse_misses (misses_at rfl rfl) (Misses.orElse_misses (misses_at rfl rfl)
    (Misses.orElse_misses (misses_at rfl rfl) (Misses.orElse_misses (misses_at rfl rfl) (Misses.orElse_misses (misses_at rfl rfl)
      (Misses.orElse_misses (misses_at rfl rfl) (Misses.node ?_)))))))
  exact misses_lowerName "as" (by decide)

/-- A pattern begins with a constructor or with a pattern that needs no parentheses. -/
theorem misses_pattern {P : List Char → Prop} (hupper : Misses locate P qualifiedUpper) (hatom : Misses locate P (rule .patternAtom)) :
    Misses locate P (rule .pattern) :=
  misses_rule (Misses.map (Misses.seq (misses_rule (Misses.node (Misses.seq (Misses.orElse_misses hupper.seq.node hatom))))))

/-! ## Patterns -/

/-- The signs of aliases. -/
def aliasSigns (names : List String) : List Sign := names.flatMap fun name => [.inr ['a', 's'], .inr name.toList]

/-- A pattern with aliases, without places. -/
def withAliases (p : Pattern) (names : List String) : Pattern := names.foldl (fun p name => .aliased p name default) p

/-- There is a first word, and it begins neither with a closing parenthesis nor with a colon. -/
def Begun (words : List (List Char)) : Prop := ∃ w ws, words = w :: ws ∧ w.head? ≠ some ')' ∧ w.head? ≠ some ':'

/-- How a pattern is read back by the rules for patterns that it is one of. -/
structure PatternReadBack (locate : Locate) (style : Style) (p : Pattern) : Prop where
  begun : Begun (p.words style)
  atom : p.isAtomic = true → ∀ signs, Takes locate (Flush ((p.words style).map .inr ++ signs)) (rule .patternAtom) (·.bare = p.bare)
    (After signs)
  applied : p.isCons = false → p.isAliased = false → ∀ signs, Misses locate (Flush signs) (rule .patternAtom) →
    Takes locate (Flush ((p.words style).map .inr ++ signs)) (appliedPattern locate) (·.bare = p.bare) (After signs)
  cons : p.isAliased = false → ∀ signs, Misses locate (Flush signs) (rule .patternAtom) → Misses locate (Flush signs) (symbol "::") →
    Takes locate (Flush ((p.words style).map .inr ++ signs)) (rule .consPattern) (·.bare = p.bare) (After signs)
  whole : ∀ names, (∀ name ∈ names, IsLowerName name) → ∀ signs, EndsPattern signs →
    Takes locate (Flush ((p.words style).map .inr ++ (aliasSigns names ++ signs))) (rule .pattern)
      (·.bare = withAliases p.bare names) (After signs)

section ReadBack

variable {style : Style} {p : Pattern}

/-- Aliases are read one by one. -/
theorem takes_aliases {names : List String} (hnames : ∀ name ∈ names, IsLowerName name) (hends : EndsPattern signs) :
    Takes locate (After (aliasSigns names ++ signs)) (.many (aliasName locate)) (fun vs => vs.map Prod.fst = names) (After signs) := by
  have hmany : Takes locate (After (aliasSigns names ++ signs)) (.many (aliasName locate)) (fun vs => vs.map Prod.fst = names.map id)
      (After signs) :=
    takes_many (P := fun names => After (aliasSigns names ++ signs)) rfl ?_ (fun _ _ _ h => not_indented_nil h.2) ?_
  · exact hmany.imp fun vs hvs => by rwa [List.map_id] at hvs
  · intro name hname later
    refine Takes.node (R := (· = name)) ?_ fun _ _ _ => id
    exact ((takes_space.andThen (takes_word "as" (by decide))).andThen takes_space).andThen (takes_lowerName (hnames name hname))
  · have has : Misses locate (Flush signs) (word "as") := hends.misses rfl rfl
    exact Misses.node (Misses.andThen (Misses.andThen ((misses_space has).of fun _ => After.indented)))

theorem bare_foldl_aliased (vs : List (String × SourceRange)) (p : Pattern) :
    (vs.foldl (fun p (name, range) => .aliased p name ⟨p.range.start, range.stop⟩) p).bare = withAliases p.bare (vs.map Prod.fst) := by
  induction vs generalizing p with
  | nil => rfl
  | cons v vs ih =>
    rw [List.foldl_cons, ih]
    rfl

/-- What holds of a pattern without aliases outside parentheses, when a rule for such patterns reads it. -/
theorem takes_pattern {words : List Sign} {names : List String}
    (hcons : ∀ signs, Misses locate (Flush signs) (rule .patternAtom) → Misses locate (Flush signs) (symbol "::") →
      Takes locate (Flush (words ++ signs)) (rule .consPattern) (·.bare = p.bare) (After signs))
    (hnames : ∀ name ∈ names, IsLowerName name) (hends : EndsPattern signs) :
    Takes locate (Flush (words ++ (aliasSigns names ++ signs))) (rule .pattern) (·.bare = withAliases p.bare names) (After signs) := by
  have hfirst : Misses locate (Flush (aliasSigns names ++ signs)) (rule .patternAtom) ∧
      Misses locate (Flush (aliasSigns names ++ signs)) (symbol "::") := by
    cases names with
    | nil => exact ⟨hends.misses_atom, hends.misses rfl rfl⟩
    | cons name names => exact ⟨misses_atom_as, misses_at rfl rfl⟩
  refine takes_rule (Takes.map ((hcons _ hfirst.1 hfirst.2).seq (takes_aliases hnames hends)) ?_)
  rintro ⟨inner, vs⟩ ⟨hinner, hvs⟩
  rw [← hinner, ← hvs]
  exact bare_foldl_aliased vs inner

/-- A pattern without `::` and aliases outside parentheses. -/
theorem PatternReadBack.of_applied (hbegun : Begun (p.words style))
    (hatom : p.isAtomic = true → ∀ signs, Takes locate (Flush ((p.words style).map .inr ++ signs)) (rule .patternAtom)
      (·.bare = p.bare) (After signs))
    (happlied : ∀ signs, Misses locate (Flush signs) (rule .patternAtom) →
      Takes locate (Flush ((p.words style).map .inr ++ signs)) (appliedPattern locate) (·.bare = p.bare) (After signs)) :
    PatternReadBack locate style p := by
  have hwhole : ∀ signs, Misses locate (Flush signs) (rule .patternAtom) → Misses locate (Flush signs) (symbol "::") →
      Takes locate (Flush ((p.words style).map .inr ++ signs)) (rule .consPattern) (·.bare = p.bare) (After signs) := by
    intro signs hend hsymbol
    have hopt : Takes locate (After signs) (.opt (spaced "::" *> rule .consPattern)) (· = none) (After signs) :=
      Misses.opt ((misses_spaced hsymbol).of fun _ => After.indented).andThen
    refine takes_rule (Takes.node ((happlied signs hend).seq hopt) ?_)
    rintro i j ⟨head, tail⟩ ⟨hhead, rfl⟩
    exact hhead
  exact ⟨hbegun, hatom, fun _ _ => happlied, fun _ => hwhole, fun names hnames signs hends => takes_pattern hwhole hnames hends⟩

/-- A pattern that needs no parentheses and is no constructor. -/
theorem PatternReadBack.of_atom (hbegun : Begun (p.words style))
    (hupper : ∀ signs, Misses locate (Flush ((p.words style).map .inr ++ signs)) qualifiedUpper)
    (hatom : ∀ signs, Takes locate (Flush ((p.words style).map .inr ++ signs)) (patternAtom locate) (·.bare = p.bare) (After signs)) :
    PatternReadBack locate style p :=
  of_applied hbegun (fun _ signs => takes_rule (hatom signs))
    fun signs _ => Misses.orElse (hupper signs).seq.node (takes_rule (hatom signs))

theorem PatternReadBack.pattern (h : PatternReadBack locate style p) (hends : EndsPattern signs) :
    Takes locate (Flush ((p.words style).map .inr ++ signs)) (rule .pattern) (·.bare = p.bare) (After signs) :=
  h.whole [] (List.forall_mem_nil _) signs hends

/-- Patterns with commas between them and a closing bracket after them. -/
theorem takes_elements {ps : List Pattern} (hps : ∀ q ∈ p :: ps, PatternReadBack locate style q) {close : List Char}
    (hclose : close ∈ [[')'], [']']]) :
    Takes locate (Flush ((Pattern.elementWords style (p :: ps)).map .inr ++ .inr close :: signs)) patternList
      (fun vs => vs.map Pattern.bare = (p :: ps).map Pattern.bare) (Indented (.inr close :: signs)) := by
  have hsigns : (Pattern.elementWords style (p :: ps)).map Sum.inr ++ .inr close :: signs =
      (p.words style).map .inr ++ (ps.flatMap (fun q => .inr [','] :: (q.words style).map .inr) ++ .inr close :: signs) := by
    simp [Pattern.elementWords, Pattern.wordsEach_eq_flatMap, List.map_flatMap]
  have hbrackets : [[')'], [']']] ⊆ patternEnds ∧ [[')'], [']']] ⊆ [[')'], [']'], ['}']] := by decide
  have hends : [[','], close] ⊆ patternEnds :=
    List.cons_subset.2 ⟨by decide, List.cons_subset.2 ⟨hbrackets.1 hclose, List.nil_subset patternEnds⟩⟩
  rw [hsigns]
  exact takes_commaList (fun q : Pattern => (q.words style).map .inr) rfl (hbrackets.2 hclose) fun q hq later hlater =>
    ((hps q hq).pattern (hlater.mono hends)).leaves fun _ => After.indented

/-- The words of fields with commas between them. -/
theorem intersperse_cons (w : List Char) (ws : List (List Char)) :
    (w :: ws).intersperse [','] = w :: ws.flatMap fun w => [[','], w] := by
  induction ws generalizing w with
  | nil => rfl
  | cons v ws ih => rw [List.intersperse_cons_cons, ih, List.flatMap_cons]; rfl

/-- The fields of a record pattern. -/
theorem takes_patternFields {field : String} {fields : List String} (h : ∀ f ∈ field :: fields, IsLowerName f) :
    Takes locate (Flush ((((field :: fields).map String.toList).intersperse [',']).map .inr ++ .inr ['}'] :: signs)) patternFields
      (· = field :: fields) (Indented (.inr ['}'] :: signs)) := by
  rw [List.map_cons, intersperse_cons, List.map_cons, List.flatMap_map, List.map_flatMap]
  have hlist : Takes locate (Flush ([.inr field.toList] ++ (fields.flatMap (fun f => .inr [','] :: [.inr f.toList]) ++
      .inr ['}'] :: signs))) patternFields (fun vs => vs.map id = (field :: fields).map id) (Indented (.inr ['}'] :: signs)) :=
    takes_commaList (fun f : String => [.inr f.toList]) rfl (by decide) fun f hf later _ =>
      (takes_lowerName (h f hf)).leaves fun _ => After.indented
  exact hlist.imp fun vs hvs => by simpa using hvs

/-- One argument. -/
theorem takes_argument {ps : List Pattern} (hatomic : p.isAtomic = true) (hp : PatternReadBack locate style p) :
    Takes locate (After ((Pattern.wordsEach style [] (p :: ps)).map .inr ++ signs)) (gap *> rule .patternAtom) (·.bare = p.bare)
      (After ((Pattern.wordsEach style [] ps).map .inr ++ signs)) := by
  have hatom := hp.atom hatomic ((Pattern.wordsEach style [] ps).map .inr ++ signs)
  simpa [Pattern.wordsEach] using (takes_gap.andThen hatom).of fun _ => After.indented

/-- Any number of arguments. -/
theorem takes_arguments {ps : List Pattern} (hatomic : ∀ q ∈ ps, q.isAtomic = true)
    (hps : ∀ q ∈ ps, PatternReadBack locate style q) (hend : Misses locate (Flush signs) (rule .patternAtom)) :
    Takes locate (After ((Pattern.wordsEach style [] ps).map .inr ++ signs)) (.many (gap *> rule .patternAtom))
      (fun vs => vs.map Pattern.bare = ps.map Pattern.bare) (After signs) := by
  refine takes_many (P := fun ps => After ((Pattern.wordsEach style [] ps).map .inr ++ signs)) rfl
    (fun q hq later => takes_argument (hatomic q hq) (hps q hq)) (fun q hq later h => ?_)
    ((takes_gap.andThen_misses hend).of fun _ => After.indented)
  obtain ⟨w, ws, hw, -⟩ := (hps q hq).begun
  simp only [Pattern.wordsEach, hw] at h
  exact not_indented_nil h.2

end ReadBack

/-! ## One kind of pattern after another -/

section Kinds

variable {style : Style}

theorem readBack_wildcard (range : SourceRange) : PatternReadBack locate style (.wildcard range) := by
  refine .of_atom ⟨_, _, rfl, by decide, by decide⟩ (fun signs => misses_at rfl rfl) fun signs => ?_
  have hreads : Lexeme.wildcard.ReadsWord ['_'] := Lexeme.readsWord_of_solid rfl rfl rfl
  exact Takes.orElse ((takes_lexeme_of_reads hreads).node fun _ _ _ _ => rfl)

theorem readBack_unit (range : SourceRange) : PatternReadBack locate style (.literal .unit range) := by
  refine .of_atom ⟨_, _, rfl, by decide, by decide⟩ (fun signs => misses_at rfl rfl) fun signs => ?_
  refine Misses.orElse (misses_at rfl rfl) (Takes.orElse ?_)
  exact (takes_unit.orElse).node fun _ _ _ hv => hv ▸ rfl

theorem readBack_literal {value : Literal} (range : SourceRange) (h : value.Renderable style) :
    PatternReadBack locate style (.literal value range) := by
  by_cases hunit : value = .unit
  · exact hunit ▸ readBack_unit range
  have hfirst := fun signs => firstChar?_literal signs h hunit
  have hbegun : Begun (value.words style) := by
    obtain ⟨w, hw⟩ : ∃ w, value.words style = [w] := exists_words_literal hunit
    have hstart : ∀ c, w.head? = some c → isLiteralStart c = true := fun c hc => hfirst [] c (by rw [hw]; exact hc)
    exact ⟨w, [], hw, fun hclose => absurd (hstart _ hclose) (by decide +kernel),
      fun hcolon => absurd (hstart _ hcolon) (by decide +kernel)⟩
  refine .of_atom hbegun (fun signs => ?_) fun signs => ?_
  · refine (misses_of_class _ rfl (fun c hc => ?_) (hfirst signs)).map
    simpa using of_isUpper (p := fun c => !isLiteralStart c) (by decide +kernel) hc
  · have hwild : Misses locate (Flush ((value.words style).map .inr ++ signs)) (.lexeme .wildcard) :=
      misses_of_class _ rfl (fun c hc => beq_iff_eq.1 hc ▸ by decide +kernel) (hfirst signs)
    have hparen : Misses locate (Flush ((value.words style).map .inr ++ signs)) (symbol "(") :=
      misses_of_class _ rfl (fun c hc => Option.some.inj (beq_iff_eq.1 hc) ▸ by decide +kernel) (hfirst signs)
    refine Misses.orElse hwild.node (Takes.orElse ?_)
    exact (Misses.orElse (Misses.map (Misses.andThen (Misses.andThen hparen))) (takes_literal h hunit)).node fun _ _ _ hv => hv ▸ rfl

theorem readBack_var {name : String} (range : SourceRange) (h : IsLowerName name) : PatternReadBack locate style (.var name range) := by
  have hfirst := fun signs => firstChar?_lowerName signs h
  have hupper : ∀ c, isUpper c = true → isLower c = false := fun c hc => by
    simpa using of_isUpper (p := fun c => !isLower c) (by decide +kernel) hc
  refine .of_atom ⟨_, _, rfl, fun hclose => absurd (hfirst [] ')' hclose) (by decide),
    fun hcolon => absurd (hfirst [] ':' hcolon) (by decide)⟩
    (fun signs => (misses_of_class .upperPath rfl hupper (hfirst signs)).map) fun signs => ?_
  have hletter : LetterStart locate (.inr name.toList :: signs) := letterStart fun c hc => by simp [isLetter, hfirst signs c hc]
  refine hletter.takes_pattern (Misses.orElse (misses_of_class .upperPath rfl hupper (hfirst signs)).map.node ?_)
  exact (takes_lowerName h).node fun _ _ _ hv => hv ▸ rfl

theorem readBack_named {qualifier : ModuleName} {name : String} {arguments : List Pattern} (range : SourceRange)
    (h : ∀ segment ∈ qualifier ++ [name], IsUpperName segment) (hatomic : ∀ p ∈ arguments, p.isAtomic = true)
    (hps : ∀ p ∈ arguments, PatternReadBack locate style p) :
    PatternReadBack locate style (.named qualifier name arguments range) := by
  have hfirst := fun signs => firstChar?_qualifiedUpper signs h
  have hbegun : Begun ((Pattern.named qualifier name arguments range).words style) :=
    ⟨_, _, rfl, fun hclose => absurd (hfirst [] ')' hclose) (by decide), fun hcolon => absurd (hfirst [] ':' hcolon) (by decide)⟩
  have hatom : ∀ signs, Takes locate (Flush (.inr (qualifiedWord qualifier name) :: signs)) (rule .patternAtom)
      (·.bare = .named qualifier name [] default) (After signs) := by
    intro signs
    have hletter : LetterStart locate (.inr (qualifiedWord qualifier name) :: signs) :=
      letterStart fun c hc => by simp [isLetter, hfirst signs c hc]
    exact takes_rule (hletter.takes_pattern (Takes.orElse ((takes_qualifiedUpper h).node fun _ _ _ hv => hv ▸ rfl)))
  cases arguments with
  | nil =>
    refine .of_applied hbegun (fun _ => hatom) fun signs hend => Misses.orElse ?_ (hatom signs)
    exact ((takes_qualifiedUpper h).seq_misses ((takes_gap.andThen_misses hend).of fun _ => After.indented).seq.map).node
  | cons p ps =>
    refine .of_applied hbegun (fun hatomic => absurd hatomic Bool.false_ne_true) fun signs hend => Takes.orElse ?_
    obtain ⟨hp, hmore⟩ := List.forall_mem_cons.1 hps
    obtain ⟨hpatomic, hatomics⟩ := List.forall_mem_cons.1 hatomic
    have harguments := (takes_argument hpatomic hp).seq (takes_arguments hatomics hmore hend)
    refine ((takes_qualifiedUpper h).seq (harguments.map (S := fun vs => vs.map Pattern.bare = (p :: ps).map Pattern.bare)
      fun v hv => ?_)).node fun i j v hv => ?_
    · rw [List.map_cons, List.map_cons, hv.1, hv.2]
    · simp only [Pattern.bare, Pattern.bareEach_eq_map, hv.1, hv.2]

/-- What stands between parentheses: one pattern, or the elements of a tuple. -/
theorem takes_patternGroup {p : Pattern} {ps : List Pattern} (hps : ∀ q ∈ p :: ps, PatternReadBack locate style q) {R : Pattern → Prop}
    (hR : ∀ i j (vs : List Pattern), vs.map Pattern.bare = (p :: ps).map Pattern.bare → R (match vs with
      | [inner] => .parenthesized inner (locate i j)
      | elements => .tuple elements (locate i j))) :
    Takes locate (Flush (.inr ['('] :: ((Pattern.elementWords style (p :: ps)).map .inr ++ .inr [')'] :: signs))) (patternAtom locate)
      R (After signs) := by
  have hunit : Misses locate (Flush (.inr ['('] :: ((Pattern.elementWords style (p :: ps)).map .inr ++ .inr [')'] :: signs))) unit := by
    obtain ⟨w, ws, hw, hclose, -⟩ := (hps p List.mem_cons_self).begun
    refine (((takes_symbol "(" (by decide)).andThen (takes_gap.of fun _ => After.indented)).andThen_misses
      (misses_flush rfl fun c hc => ?_)).map
    rw [Pattern.elementWords, hw] at hc
    refine beq_eq_false_iff_ne.2 fun (heq : some ')' = some c) => hclose ?_
    rw [heq]
    exact hc
  refine Misses.orElse (misses_at rfl rfl)
    (Misses.orElse (hunit.orElse_misses (misses_at rfl rfl)).node (Takes.orElse ?_))
  exact (takes_between "(" ")" (by decide) (by decide) (takes_elements hps (by simp))).node hR

theorem readBack_parenthesized {inner : Pattern} (range : SourceRange) (h : PatternReadBack locate style inner) :
    PatternReadBack locate style (.parenthesized inner range) := by
  refine .of_atom ⟨_, _, rfl, by decide, by decide⟩ (fun signs => misses_at rfl rfl) fun signs => ?_
  have hgroup : Takes locate (Flush (.inr ['('] :: ((Pattern.elementWords style [inner]).map .inr ++ .inr [')'] :: signs)))
      (patternAtom locate) (·.bare = .parenthesized inner.bare default) (After signs) :=
    takes_patternGroup (List.forall_mem_singleton.2 h) fun i j vs hvs => ?_
  · simpa [Pattern.words, Pattern.bare, Pattern.elementWords, Pattern.wordsEach] using hgroup
  · obtain ⟨v, rfl, hv⟩ := List.map_eq_singleton_iff.1 hvs
    rw [Pattern.bare, hv]

theorem readBack_tuple {elements : List Pattern} (range : SourceRange) (hlength : 2 ≤ elements.length)
    (h : ∀ p ∈ elements, PatternReadBack locate style p) : PatternReadBack locate style (.tuple elements range) := by
  refine .of_atom ⟨_, _, rfl, by decide, by decide⟩ (fun signs => misses_at rfl rfl) fun signs => ?_
  obtain ⟨p, q, ps, rfl⟩ : ∃ p q ps, elements = p :: q :: ps := by
    match elements, hlength with
    | p :: q :: ps, _ => exact ⟨p, q, ps, rfl⟩
  have hgroup : Takes locate (Flush (.inr ['('] :: ((Pattern.elementWords style (p :: q :: ps)).map .inr ++ .inr [')'] :: signs)))
      (patternAtom locate) (·.bare = .tuple ((p :: q :: ps).map Pattern.bare) default) (After signs) :=
    takes_patternGroup h fun i j vs hvs => ?_
  · simpa [Pattern.words, Pattern.bare, Pattern.bareEach_eq_map] using hgroup
  · obtain ⟨v, vs', rfl, -, hvs'⟩ := List.map_eq_cons_iff.1 hvs
    obtain ⟨v', vs, rfl, -, -⟩ := List.map_eq_cons_iff.1 hvs'
    rw [Pattern.bare, Pattern.bareEach_eq_map, hvs]

theorem readBack_list {elements : List Pattern} (range : SourceRange) (h : ∀ p ∈ elements, PatternReadBack locate style p) :
    PatternReadBack locate style (.list elements range) := by
  refine .of_atom ⟨_, _, rfl, by decide, by decide⟩ (fun signs => misses_at rfl rfl) fun signs => ?_
  have hitems : Takes locate (Flush ((Pattern.elementWords style elements).map .inr ++ .inr [']'] :: signs)) (.opt patternList)
      (fun vs => (vs.getD []).map Pattern.bare = elements.map Pattern.bare) (Indented (.inr [']'] :: signs)) := by
    cases elements with
    | nil =>
      have hmisses : Misses locate (Flush (.inr [']'] :: signs)) patternList :=
        (misses_pattern (misses_at rfl rfl) (misses_rule (misses_at rfl rfl))).seq.map
      exact (hmisses.opt.imp fun vs hvs => hvs ▸ rfl).leaves fun _ => Flush.indented
    | cons p ps =>
      refine (takes_elements h (by simp)).opt.imp ?_
      rintro _ ⟨vs, rfl, hvs⟩
      exact hvs
  have hlist := takes_between "[" "]" (by decide) (by decide) hitems
  have hatom : Takes locate (Flush (.inr ['['] :: ((Pattern.elementWords style elements).map .inr ++ .inr [']'] :: signs)))
      (patternAtom locate) (·.bare = .list (elements.map Pattern.bare) default) (After signs) := by
    refine Misses.orElse (misses_at rfl rfl) (Misses.orElse (misses_at rfl rfl) (Misses.orElse (misses_at rfl rfl) (Takes.orElse ?_)))
    exact hlist.node fun _ _ vs hvs => by rw [Pattern.bare, Pattern.bareEach_eq_map, hvs]
  simpa [Pattern.words, Pattern.bare, Pattern.bareEach_eq_map] using hatom

theorem readBack_record {fields : List String} (range : SourceRange) (h : ∀ field ∈ fields, IsLowerName field) :
    PatternReadBack locate style (.record fields range) := by
  refine .of_atom ⟨_, _, rfl, by decide, by decide⟩ (fun signs => misses_at rfl rfl) fun signs => ?_
  have hitems : Takes locate (Flush (((fields.map String.toList).intersperse [',']).map .inr ++ .inr ['}'] :: signs))
      (.opt patternFields) (fun vs => vs.getD [] = fields) (Indented (.inr ['}'] :: signs)) := by
    cases fields with
    | nil =>
      have hmisses : Misses locate (Flush (.inr ['}'] :: signs)) patternFields :=
        misses_at rfl rfl
      exact (hmisses.opt.imp fun vs hvs => hvs ▸ rfl).leaves fun _ => Flush.indented
    | cons field fields =>
      refine (takes_patternFields h).opt.imp ?_
      rintro _ ⟨vs, rfl, hvs⟩
      exact hvs
  have hrecord := takes_between "\x7b" "\x7d" (by decide) (by decide) hitems
  have hatom : Takes locate (Flush (.inr ['{'] :: (((fields.map String.toList).intersperse [',']).map .inr ++ .inr ['}'] :: signs)))
      (patternAtom locate) (·.bare = .record fields default) (After signs) := by
    refine Misses.orElse (misses_at rfl rfl) (Misses.orElse (misses_at rfl rfl) (Misses.orElse (misses_at rfl rfl)
      (Misses.orElse (misses_at rfl rfl) (Takes.orElse ?_))))
    exact hrecord.node fun _ _ vs hvs => by rw [Pattern.bare, hvs]
  simpa [Pattern.words, Pattern.bare] using hatom

theorem readBack_cons {head tail : Pattern} (range : SourceRange) (hcons : head.isCons = false) (halias : head.isAliased = false)
    (halias' : tail.isAliased = false) (hhead : PatternReadBack locate style head) (htail : PatternReadBack locate style tail) :
    PatternReadBack locate style (.cons head tail range) := by
  have hwhole : ∀ signs, Misses locate (Flush signs) (rule .patternAtom) → Misses locate (Flush signs) (symbol "::") →
      Takes locate (Flush (((Pattern.cons head tail range).words style).map .inr ++ signs)) (rule .consPattern)
        (·.bare = (Pattern.cons head tail range).bare) (After signs) := by
    intro signs hend hsymbol
    have hatom : Misses locate (Flush (.inr [':', ':'] :: ((tail.words style).map .inr ++ signs))) (rule .patternAtom) :=
      misses_rule (misses_at rfl rfl)
    have htails := (((takes_spaced "::" (by decide)).of fun _ => After.indented).andThen (htail.cons halias' signs hend hsymbol)).opt
    have hboth := (hhead.applied hcons halias _ hatom).seq htails
    have hrule : Takes locate (Flush ((head.words style).map .inr ++ .inr [':', ':'] :: ((tail.words style).map .inr ++ signs)))
        (rule .consPattern) (·.bare = .cons head.bare tail.bare default) (After signs) := by
      refine takes_rule (hboth.node ?_)
      rintro i j ⟨v, _⟩ ⟨hv, v', rfl, hv'⟩
      rw [Pattern.bare, hv, hv']
    simpa [Pattern.words, Pattern.bare] using hrule
  obtain ⟨w, ws, hw, hfirst⟩ := hhead.begun
  refine ⟨⟨w, ws ++ [':', ':'] :: tail.words style, by rw [Pattern.words, hw, List.cons_append], hfirst⟩,
    (fun h => nomatch h), (fun h => nomatch h),
    fun _ => hwhole, fun names hnames signs hends => takes_pattern hwhole hnames hends⟩

theorem readBack_aliased {inner : Pattern} {name : String} (range : SourceRange) (hinner : PatternReadBack locate style inner)
    (hname : IsLowerName name) : PatternReadBack locate style (.aliased inner name range) := by
  obtain ⟨w, ws, hw, hfirst⟩ := hinner.begun
  refine ⟨⟨w, ws ++ [['a', 's'], name.toList], by rw [Pattern.words, hw, List.cons_append], hfirst⟩,
    (fun h => nomatch h), (fun _ h => nomatch h),
    (fun h => nomatch h), fun names hnames signs hends => ?_⟩
  have hwhole := hinner.whole (name :: names) (List.forall_mem_cons.2 ⟨hname, hnames⟩) signs hends
  simpa [Pattern.words, Pattern.bare, aliasSigns, withAliases] using hwhole

end Kinds

/-- A pattern that is rendered is read back. -/
theorem readBack {style : Style} {p : Pattern} (h : p.Renderable style) : PatternReadBack locate style p := by
  induction h with
  | wildcard range => exact readBack_wildcard range
  | literal range h => exact readBack_literal range h
  | var range h => exact readBack_var range h
  | named range h hatomic _ ih => exact readBack_named range h hatomic ih
  | parenthesized range _ ih => exact readBack_parenthesized range ih
  | cons range hcons halias halias' _ _ ihhead ihtail => exact readBack_cons range hcons halias halias' ihhead ihtail
  | list range _ ih => exact readBack_list range ih
  | tuple range hlength _ ih => exact readBack_tuple range hlength ih
  | aliased range _ hname ih => exact readBack_aliased range ih hname
  | record range h => exact readBack_record range h

end Grammar

end ElmLint
