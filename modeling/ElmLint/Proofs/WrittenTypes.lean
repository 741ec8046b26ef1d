import ElmLint.Proofs.WrittenPatterns

/-!
# Reading the type annotations of a rendering

`TypeExpr.words` writes a type annotation down, with parentheses around the arguments that need them: functions to the left of an
arrow, functions and types with arguments among the arguments of a type. The words are read back as the annotation, apart from its
places, when a word comes after them that ends types, or nothing (`Grammar.readBackType`). The proof goes by the parts of the grammar
that an annotation is in (`Grammar.TypeReadBack`): one that needs no parentheses is read whatever comes after it, a type with arguments
up to what begins no argument, a function up to the end.
-/

namespace ElmLint

namespace TypeExpr

/-! ## Annotations without places -/

mutual

/-- A type annotation without its places. -/
def bare : TypeExpr → TypeExpr
  | var name _ => var name default
  | reference qualifier name arguments _ => reference qualifier name (bareEach arguments) default
  | unit _ => unit default
  | tuple elements _ => tuple (bareEach elements) default
  | record fields base _ => record (bareFields fields) base default
  | function argument result _ => function argument.bare result.bare default

/-- Type annotations without their places. -/
def bareEach : List TypeExpr → List TypeExpr
  | [] => []
  | t :: ts => t.bare :: bareEach ts

/-- Fields without their places. -/
def bareFields : List (FieldType TypeExpr) → List (FieldType TypeExpr)
  | [] => []
  | ⟨name, type, _⟩ :: fields => ⟨name, type.bare, default⟩ :: bareFields fields

end

/-- A field without its places. -/
def bareField (field : FieldType TypeExpr) : FieldType TypeExpr := ⟨field.name, field.type.bare, default⟩

theorem bareEach_eq_map : ∀ ts : List TypeExpr, bareEach ts = ts.map bare
  | [] => rfl
  | t :: ts => by rw [bareEach, bareEach_eq_map ts, List.map_cons]

theorem bareFields_eq_map : ∀ fields : List (FieldType TypeExpr), bareFields fields = fields.map bareField
  | [] => rfl
  | ⟨_, _, _⟩ :: fields => by rw [bareFields, bareFields_eq_map fields, List.map_cons, bareField]

/-! ## Words -/

/-- A type that needs no parentheses as an argument of another. -/
def isAtomic : TypeExpr → Bool
  | var _ _ | unit _ | tuple _ _ | record _ _ _ => true
  | reference _ _ arguments _ => arguments.isEmpty
  | function _ _ _ => false

/-- A function type. -/
def isFunction : TypeExpr → Bool
  | function _ _ _ => true
  | _ => false

/-- Words with parentheses around them, if these are needed. -/
def grouped (needed : Bool) (words : List (List Char)) : List (List Char) :=
  if needed then ['('] :: (words ++ [[')']]) else words

/-- The words of items with commas between them. -/
def listed : List (List (List Char)) → List (List Char)
  | [] => []
  | item :: items => item ++ items.flatMap ([','] :: ·)

/-- The words of the variable that a record type extends. -/
def baseWords : Option String → List (List Char)
  | some name => [name.toList, ['|']]
  | none => []

mutual

/-- The words of a type annotation. -/
def words : TypeExpr → List (List Char)
  | var name _ => [name.toList]
  | reference qualifier name arguments _ => qualifiedWord qualifier name :: argumentWords arguments
  | unit _ => [['('], [')']]
  | tuple elements _ => ['('] :: (listed (wordsEach elements) ++ [[')']])
  | record fields base _ => ['{'] :: (baseWords base ++ listed (fieldWords fields) ++ [['}']])
  | function argument result _ => grouped argument.isFunction (words argument) ++ ['-', '>'] :: words result

/-- The words of arguments, with parentheses around those that need them. -/
def argumentWords : List TypeExpr → List (List Char)
  | [] => []
  | t :: ts => grouped (!t.isAtomic) (words t) ++ argumentWords ts

/-- The words of each of some type annotations. -/
def wordsEach : List TypeExpr → List (List (List Char))
  | [] => []
  | t :: ts => words t :: wordsEach ts

/-- The words of each of some fields. -/
def fieldWords : List (FieldType TypeExpr) → List (List (List Char))
  | [] => []
  | ⟨name, type, _⟩ :: fields => (name.toList :: [':'] :: words type) :: fieldWords fields

end

theorem argumentWords_eq_flatMap : ∀ ts : List TypeExpr, argumentWords ts = ts.flatMap fun t => grouped (!t.isAtomic) t.words
  | [] => rfl
  | t :: ts => by rw [argumentWords, argumentWords_eq_flatMap ts, List.flatMap_cons]

theorem wordsEach_eq_map : ∀ ts : List TypeExpr, wordsEach ts = ts.map words
  | [] => rfl
  | t :: ts => by rw [wordsEach, wordsEach_eq_map ts, List.map_cons]

theorem fieldWords_eq_map : ∀ fields : List (FieldType TypeExpr),
    fieldWords fields = fields.map fun field => field.name.toList :: [':'] :: field.type.words
  | [] => rfl
  | ⟨_, _, _⟩ :: fields => by rw [fieldWords, fieldWords_eq_map fields, List.map_cons]

/-- A type annotation that the grammar can give: its names are names, and its tuples have two elements or more. -/
inductive Renderable : TypeExpr → Prop
  | var {name : String} (range : SourceRange) : IsLowerName name → Renderable (.var name range)
  | reference {qualifier : ModuleName} {name : String} {arguments : List TypeExpr} (range : SourceRange) :
      (∀ segment ∈ qualifier ++ [name], IsUpperName segment) → (∀ t ∈ arguments, Renderable t) →
      Renderable (.reference qualifier name arguments range)
  | unit (range : SourceRange) : Renderable (.unit range)
  | tuple {elements : List TypeExpr} (range : SourceRange) : 2 ≤ elements.length → (∀ t ∈ elements, Renderable t) →
      Renderable (.tuple elements range)
  | record {fields : List (FieldType TypeExpr)} {base : Option String} (range : SourceRange) : (∀ name ∈ base, IsLowerName name) →
      (∀ field ∈ fields, IsLowerName field.name) → (∀ field ∈ fields, Renderable field.type) → Renderable (.record fields base range)
  | function {argument result : TypeExpr} (range : SourceRange) : Renderable argument → Renderable result →
      Renderable (.function argument result range)

end TypeExpr

namespace Grammar

variable {locate : Locate} {α : Type} {signs : List Sign}

/-! ## Words that end types -/

/-- The words that come after types. -/
def typeEnds : List (List Char) := [[')'], [','], ['}']]

/-- A word that ends types comes next, or nothing. -/
def EndsType : List Sign → Prop := EndsAt typeEnds

theorem endsType_nil : EndsType [] := fun _ h => nomatch h

/-- Before a letter, a type that needs no parentheses is a type by its name or a variable. -/
theorem LetterStart.takes_typeAtom {R : TypeExpr → Prop} {Q : List Char → Prop} (h : LetterStart locate signs)
    (hname : Takes locate (Flush signs) (.node (fun i j (qualifier, name) => .reference qualifier name [] (locate i j)) qualifiedUpper
      <|> .node (fun i j name => .var name (locate i j)) lowerName) R Q) :
    Takes locate (Flush signs) (typeAtom locate) R Q :=
  Misses.orElse h.paren.andThen.andThen.map.node
    (Misses.orElse (misses_between h.paren).node (Misses.orElse (misses_between h.brace).node hname))

/-! ## Types -/

/-- How a type annotation is read back by the rules for types that it is one of. -/
structure TypeReadBack (locate : Locate) (t : TypeExpr) : Prop where
  begun : ∃ w ws, t.words = w :: ws ∧ w.head? ≠ some ')'
  atom : t.isAtomic = true → ∀ signs, Takes locate (Flush (t.words.map .inr ++ signs)) (rule .typeAtom) (·.bare = t.bare) (After signs)
  applied : t.isFunction = false → ∀ signs, Misses locate (Flush signs) (rule .typeAtom) →
    Takes locate (Flush (t.words.map .inr ++ signs)) (typeApplication locate) (·.bare = t.bare) (After signs)
  whole : ∀ signs, EndsType signs → Takes locate (Flush (t.words.map .inr ++ signs)) (rule .typeExpr) (·.bare = t.bare) (After signs)

section ReadBack

variable {t : TypeExpr}

/-- A type without an arrow outside parentheses. -/
theorem TypeReadBack.of_applied (hbegun : ∃ w ws, t.words = w :: ws ∧ w.head? ≠ some ')')
    (hatom : t.isAtomic = true → ∀ signs, Takes locate (Flush (t.words.map .inr ++ signs)) (rule .typeAtom) (·.bare = t.bare) (After signs))
    (happlied : ∀ signs, Misses locate (Flush signs) (rule .typeAtom) →
      Takes locate (Flush (t.words.map .inr ++ signs)) (typeApplication locate) (·.bare = t.bare) (After signs)) :
    TypeReadBack locate t := by
  refine ⟨hbegun, hatom, fun _ => happlied, fun signs hends => ?_⟩
  have harrow : Misses locate (Flush signs) (symbol "->") := EndsAt.misses hends rfl rfl
  have hopt : Takes locate (After signs) (.opt (spaced "->" *> rule .typeExpr)) (· = none) (After signs) :=
    Misses.opt ((misses_spaced harrow).of fun _ => After.indented).andThen
  refine takes_rule (Takes.node ((happlied signs (misses_rule (EndsAt.misses hends rfl rfl))).seq hopt) ?_)
  rintro i j ⟨argument, result⟩ ⟨hargument, rfl⟩
  exact hargument

/-- A type that needs no parentheses and is not given by its name. -/
theorem TypeReadBack.of_atom (hbegun : ∃ w ws, t.words = w :: ws ∧ w.head? ≠ some ')')
    (hupper : ∀ signs, Misses locate (Flush (t.words.map .inr ++ signs)) qualifiedUpper)
    (hatom : ∀ signs, Takes locate (Flush (t.words.map .inr ++ signs)) (typeAtom locate) (·.bare = t.bare) (After signs)) :
    TypeReadBack locate t :=
  of_applied hbegun (fun _ signs => takes_rule (hatom signs))
    fun signs _ => Misses.orElse (hupper signs).seq.node (takes_rule (hatom signs))

/-- What stands between parentheses: one type, or the elements of a tuple. -/
theorem takes_typeGroup {ts : List TypeExpr} (hts : ∀ u ∈ t :: ts, TypeReadBack locate u) {R : TypeExpr → Prop}
    (hR : ∀ i j (vs : List TypeExpr), vs.map TypeExpr.bare = (t :: ts).map TypeExpr.bare → R (match vs with
      | [inner] => inner
      | elements => .tuple elements (locate i j))) :
    Takes locate (Flush (.inr ['('] :: ((TypeExpr.listed ((t :: ts).map TypeExpr.words)).map .inr ++ .inr [')'] :: signs)))
      (typeAtom locate) R (After signs) := by
  have hitems : Takes locate
      (Flush (t.words.map .inr ++ (ts.flatMap (fun u => .inr [','] :: u.words.map .inr) ++ .inr [')'] :: signs)))
      (commaList (rule .typeExpr)) (fun vs => vs.map TypeExpr.bare = (t :: ts).map TypeExpr.bare) (Indented (.inr [')'] :: signs)) :=
    takes_commaList (fun u : TypeExpr => u.words.map .inr) rfl (by decide)
      fun u hu later hlater => ((hts u hu).whole later (hlater.mono (by decide))).leaves fun _ => After.indented
  have hsigns : (TypeExpr.listed ((t :: ts).map TypeExpr.words)).map Sum.inr ++ .inr [')'] :: signs =
      t.words.map .inr ++ (ts.flatMap (fun u => .inr [','] :: u.words.map .inr) ++ .inr [')'] :: signs) := by
    simp [TypeExpr.listed, List.flatMap_map, List.map_flatMap]
  have hunit : Misses locate (Flush (.inr ['('] :: ((TypeExpr.listed ((t :: ts).map TypeExpr.words)).map .inr ++ .inr [')'] :: signs)))
      unit := by
    obtain ⟨w, ws, hw, hclose⟩ := (hts t List.mem_cons_self).begun
    refine (((takes_symbol "(" (by decide)).andThen (takes_gap.of fun _ => After.indented)).andThen_misses
      (misses_flush rfl fun c hc => ?_)).map
    rw [hsigns, hw] at hc
    refine beq_eq_false_iff_ne.2 fun (heq : some ')' = some c) => hclose ?_
    rw [heq]
    exact hc
  refine Misses.orElse hunit.node (Takes.orElse ?_)
  rw [hsigns]
  exact (takes_between "(" ")" (by decide) (by decide) hitems).node hR

/-- Parentheses around a type leave no trace. -/
theorem takes_parenthesizedType (h : TypeReadBack locate t) (signs : List Sign) :
    Takes locate (Flush ((TypeExpr.grouped true t.words).map .inr ++ signs)) (typeAtom locate) (·.bare = t.bare) (After signs) := by
  have hgroup : Takes locate (Flush (.inr ['('] :: ((TypeExpr.listed ([t].map TypeExpr.words)).map .inr ++ .inr [')'] :: signs)))
      (typeAtom locate) (·.bare = t.bare) (After signs) := takes_typeGroup (List.forall_mem_singleton.2 h) fun i j vs hvs => ?_
  · simpa [TypeExpr.grouped, TypeExpr.listed] using hgroup
  · obtain ⟨v, rfl, hv⟩ := List.map_eq_singleton_iff.1 hvs
    exact hv

/-- One argument. -/
theorem takes_typeArgument (h : TypeReadBack locate t) (signs : List Sign) :
    Takes locate (Flush ((TypeExpr.grouped (!t.isAtomic) t.words).map .inr ++ signs)) (rule .typeAtom) (·.bare = t.bare)
      (After signs) := by
  cases hatomic : t.isAtomic with
  | true => exact h.atom hatomic signs
  | false => exact takes_rule (takes_parenthesizedType h signs)

/-- Any number of arguments. -/
theorem takes_typeArguments {ts : List TypeExpr} (hts : ∀ u ∈ ts, TypeReadBack locate u)
    (hend : Misses locate (Flush signs) (rule .typeAtom)) :
    Takes locate (After ((TypeExpr.argumentWords ts).map .inr ++ signs)) (.many (gap *> rule .typeAtom))
      (fun vs => vs.map TypeExpr.bare = ts.map TypeExpr.bare) (After signs) := by
  refine takes_many (P := fun ts => After ((TypeExpr.argumentWords ts).map .inr ++ signs)) rfl (fun u hu later => ?_)
    (fun u hu later h => ?_) ((takes_gap.andThen_misses hend).of fun _ => After.indented)
  · have hargument := takes_typeArgument (hts u hu) ((TypeExpr.argumentWords later).map .inr ++ signs)
    simpa [TypeExpr.argumentWords] using (takes_gap.andThen hargument).of fun _ => After.indented
  · obtain ⟨w, ws, hw, -⟩ := (hts u hu).begun
    rw [TypeExpr.argumentWords, TypeExpr.grouped, hw] at h
    split at h <;> exact not_indented_nil h.2

/-- What stands to the left of an arrow. -/
theorem takes_arrowArgument (h : TypeReadBack locate t) (hend : Misses locate (Flush signs) (rule .typeAtom)) :
    Takes locate (Flush ((TypeExpr.grouped t.isFunction t.words).map .inr ++ signs)) (typeApplication locate) (·.bare = t.bare)
      (After signs) := by
  cases hfunction : t.isFunction with
  | true =>
    have hupper : Misses locate (Flush ((TypeExpr.grouped true t.words).map .inr ++ signs)) qualifiedUpper := misses_at rfl rfl
    exact Misses.orElse hupper.seq.node (takes_rule (takes_parenthesizedType h signs))
  | false => exact h.applied hfunction signs hend

end ReadBack

/-! ## One kind of type after another -/

section Kinds

theorem readBackType_var {name : String} (range : SourceRange) (h : IsLowerName name) : TypeReadBack locate (.var name range) := by
  have hfirst := fun signs => firstChar?_lowerName signs h
  have hupper : ∀ c, isUpper c = true → isLower c = false := fun c hc => by
    simpa using of_isUpper (p := fun c => !isLower c) (by decide +kernel) hc
  refine .of_atom ⟨_, _, rfl, fun hclose => absurd (hfirst [] ')' hclose) (by decide)⟩
    (fun signs => (misses_of_class .upperPath rfl hupper (hfirst signs)).map) fun signs => ?_
  have hletter : LetterStart locate (.inr name.toList :: signs) := letterStart fun c hc => by simp [isLetter, hfirst signs c hc]
  refine hletter.takes_typeAtom (Misses.orElse (misses_of_class .upperPath rfl hupper (hfirst signs)).map.node ?_)
  exact (takes_lowerName h).node fun _ _ _ hv => hv ▸ rfl

theorem readBackType_reference {qualifier : ModuleName} {name : String} {arguments : List TypeExpr} (range : SourceRange)
    (h : ∀ segment ∈ qualifier ++ [name], IsUpperName segment) (harguments : ∀ t ∈ arguments, TypeReadBack locate t) :
    TypeReadBack locate (.reference qualifier name arguments range) := by
  have hfirst := fun signs => firstChar?_qualifiedUpper signs h
  have hbegun : ∃ w ws, (TypeExpr.reference qualifier name arguments range).words = w :: ws ∧ w.head? ≠ some ')' :=
    ⟨_, _, rfl, fun hclose => absurd (hfirst [] ')' hclose) (by decide)⟩
  have hatom : ∀ signs, Takes locate (Flush (.inr (qualifiedWord qualifier name) :: signs)) (rule .typeAtom)
      (·.bare = .reference qualifier name [] default) (After signs) := by
    intro signs
    have hletter : LetterStart locate (.inr (qualifiedWord qualifier name) :: signs) :=
      letterStart fun c hc => by simp [isLetter, hfirst signs c hc]
    exact takes_rule (hletter.takes_typeAtom (Takes.orElse ((takes_qualifiedUpper h).node fun _ _ _ hv => hv ▸ rfl)))
  cases arguments with
  | nil =>
    refine .of_applied hbegun (fun _ => hatom) fun signs hend => Misses.orElse ?_ (hatom signs)
    exact ((takes_qualifiedUpper h).seq_misses ((takes_gap.andThen_misses hend).of fun _ => After.indented).seq.map).node
  | cons t ts =>
    refine .of_applied hbegun (fun hatomic => absurd hatomic Bool.false_ne_true) fun signs hend => Takes.orElse ?_
    obtain ⟨ht, hts⟩ := List.forall_mem_cons.1 harguments
    have hargument : Takes locate (After ((TypeExpr.argumentWords (t :: ts)).map .inr ++ signs)) (gap *> rule .typeAtom)
        (·.bare = t.bare) (After ((TypeExpr.argumentWords ts).map .inr ++ signs)) := by
      have hone := takes_typeArgument ht ((TypeExpr.argumentWords ts).map .inr ++ signs)
      simpa [TypeExpr.argumentWords] using (takes_gap.andThen hone).of fun _ => After.indented
    have hall := hargument.seq (takes_typeArguments hts hend)
    refine ((takes_qualifiedUpper h).seq (hall.map (S := fun vs => vs.map TypeExpr.bare = (t :: ts).map TypeExpr.bare)
      fun v hv => ?_)).node fun i j v hv => ?_
    · rw [List.map_cons, List.map_cons, hv.1, hv.2]
    · simp only [TypeExpr.bare, TypeExpr.bareEach_eq_map, hv.1, hv.2]

theorem readBackType_unit (range : SourceRange) : TypeReadBack locate (.unit range) :=
  .of_atom ⟨_, _, rfl, by decide⟩ (fun signs => misses_at rfl rfl) fun _ => Takes.orElse (takes_unit.node fun _ _ _ _ => rfl)

theorem readBackType_tuple {elements : List TypeExpr} (range : SourceRange) (hlength : 2 ≤ elements.length)
    (h : ∀ t ∈ elements, TypeReadBack locate t) : TypeReadBack locate (.tuple elements range) := by
  refine .of_atom ⟨_, _, rfl, by decide⟩ (fun signs => misses_at rfl rfl) fun signs => ?_
  obtain ⟨t, u, ts, rfl⟩ : ∃ t u ts, elements = t :: u :: ts := by
    match elements, hlength with
    | t :: u :: ts, _ => exact ⟨t, u, ts, rfl⟩
  have hgroup : Takes locate
      (Flush (.inr ['('] :: ((TypeExpr.listed ((t :: u :: ts).map TypeExpr.words)).map .inr ++ .inr [')'] :: signs)))
      (typeAtom locate) (·.bare = .tuple ((t :: u :: ts).map TypeExpr.bare) default) (After signs) :=
    takes_typeGroup h fun i j vs hvs => ?_
  · simpa [TypeExpr.words, TypeExpr.bare, TypeExpr.bareEach_eq_map, TypeExpr.wordsEach_eq_map] using hgroup
  · obtain ⟨v, vs', rfl, -, hvs'⟩ := List.map_eq_cons_iff.1 hvs
    obtain ⟨v', vs, rfl, -, -⟩ := List.map_eq_cons_iff.1 hvs'
    rw [TypeExpr.bare, TypeExpr.bareEach_eq_map, hvs]

/-- A field of a record type. -/
theorem takes_fieldType {field : FieldType TypeExpr} (hname : IsLowerName field.name) (h : TypeReadBack locate field.type)
    (hends : EndsType signs) :
    Takes locate (Flush (.inr field.name.toList :: .inr [':'] :: (field.type.words.map .inr ++ signs))) (fieldType locate)
      (TypeExpr.bareField · = TypeExpr.bareField field) (After signs) := by
  have htype := ((takes_spaced ":" (by decide)).of fun _ => After.indented).andThen (h.whole signs hends)
  refine ((takes_lowerName hname).seq htype).node ?_
  rintro i j ⟨name, type⟩ ⟨rfl, heq⟩
  rw [TypeExpr.bareField, heq, TypeExpr.bareField]

/-- The fields of a record type. -/
theorem takes_fieldTypes (signs : List Sign) {fields : List (FieldType TypeExpr)} (hnames : ∀ field ∈ fields, IsLowerName field.name)
    (h : ∀ field ∈ fields, TypeReadBack locate field.type) :
    Takes locate (Flush ((TypeExpr.listed (TypeExpr.fieldWords fields)).map .inr ++ .inr ['}'] :: signs)) (.opt (fieldTypes locate))
      (fun vs => (vs.getD []).map TypeExpr.bareField = fields.map TypeExpr.bareField) (Indented (.inr ['}'] :: signs)) := by
  cases fields with
  | nil =>
    have hmisses : Misses locate (Flush (.inr ['}'] :: signs)) (fieldTypes locate) := misses_at rfl rfl
    exact (hmisses.opt.imp fun vs hvs => hvs ▸ rfl).leaves fun _ => Flush.indented
  | cons field fields =>
    let written (f : FieldType TypeExpr) : List Sign := .inr f.name.toList :: .inr [':'] :: f.type.words.map .inr
    have hitems : Takes locate (Flush (written field ++ (fields.flatMap (fun f => .inr [','] :: written f) ++ .inr ['}'] :: signs)))
        (fieldTypes locate) (fun vs => vs.map TypeExpr.bareField = (field :: fields).map TypeExpr.bareField)
        (Indented (.inr ['}'] :: signs)) :=
      takes_commaList written rfl (by decide)
        fun f hf later hlater => (takes_fieldType (hnames f hf) (h f hf) (hlater.mono (by decide))).leaves fun _ => After.indented
    have hsigns : (TypeExpr.listed (TypeExpr.fieldWords (field :: fields))).map Sum.inr ++ .inr ['}'] :: signs =
        written field ++ (fields.flatMap (fun f => .inr [','] :: written f) ++ .inr ['}'] :: signs) := by
      simp [written, TypeExpr.fieldWords_eq_map, TypeExpr.listed, List.flatMap_map, List.map_flatMap]
    rw [hsigns]
    refine hitems.opt.imp ?_
    rintro _ ⟨vs, rfl, hvs⟩
    exact hvs

/-- The variable that a record type extends, if there is one. -/
theorem takes_recordBase (signs : List Sign) {fields : List (FieldType TypeExpr)} {base : Option String}
    (hbase : ∀ name ∈ base, IsLowerName name) (hnames : ∀ field ∈ fields, IsLowerName field.name) :
    Takes locate (Flush ((TypeExpr.baseWords base).map .inr ++
        ((TypeExpr.listed (TypeExpr.fieldWords fields)).map .inr ++ .inr ['}'] :: signs))) (.opt recordBase) (· = base)
      (Flush ((TypeExpr.listed (TypeExpr.fieldWords fields)).map .inr ++ .inr ['}'] :: signs)) := by
  cases base with
  | some name =>
    have hbar : Takes locate (After (.inr ['|'] :: ((TypeExpr.listed (TypeExpr.fieldWords fields)).map .inr ++ .inr ['}'] :: signs)))
        (spaced "|") _ _ := (takes_spaced "|" (by decide)).of fun _ => After.indented
    exact ((takes_lowerName (hbase name rfl)).andSkip hbar).opt.imp fun v ⟨a, hv, ha⟩ => hv.trans (congrArg some ha)
  | none =>
    refine Misses.opt ?_
    cases fields with
    | nil => exact misses_at rfl rfl
    | cons field fields =>
      -- The name that comes first is that of a field, and no bar comes after it.
      rw [TypeExpr.fieldWords_eq_map]
      exact ((takes_lowerName (hnames field List.mem_cons_self)).seq_misses
        ((misses_spaced (misses_at rfl rfl)).of fun _ => After.indented)).map

theorem readBackType_record {fields : List (FieldType TypeExpr)} {base : Option String} (range : SourceRange)
    (hbase : ∀ name ∈ base, IsLowerName name) (hnames : ∀ field ∈ fields, IsLowerName field.name)
    (h : ∀ field ∈ fields, TypeReadBack locate field.type) : TypeReadBack locate (.record fields base range) := by
  refine .of_atom ⟨_, _, rfl, by decide⟩ (fun signs => misses_at rfl rfl) fun signs => ?_
  have hinner := (takes_recordBase signs hbase hnames).seq (takes_fieldTypes signs hnames h)
  have hrecord := takes_between "\x7b" "\x7d" (by decide) (by decide) hinner
  have hatom : Takes locate (Flush (.inr ['{'] :: ((TypeExpr.baseWords base).map .inr ++
      ((TypeExpr.listed (TypeExpr.fieldWords fields)).map .inr ++ .inr ['}'] :: signs)))) (typeAtom locate)
      (·.bare = .record (fields.map TypeExpr.bareField) base default) (After signs) := by
    refine Misses.orElse (misses_at rfl rfl) (Misses.orElse (misses_at rfl rfl) (Takes.orElse (hrecord.node fun i j v hv => ?_)))
    rw [TypeExpr.bare, TypeExpr.bareFields_eq_map, hv.1, hv.2]
  simpa [TypeExpr.words, TypeExpr.bare, TypeExpr.bareFields_eq_map] using hatom

theorem readBackType_function {argument result : TypeExpr} (range : SourceRange) (hargument : TypeReadBack locate argument)
    (hresult : TypeReadBack locate result) : TypeReadBack locate (.function argument result range) := by
  have hbegun : ∃ w ws, (TypeExpr.function argument result range).words = w :: ws ∧ w.head? ≠ some ')' := by
    rw [TypeExpr.words, TypeExpr.grouped]
    split
    · exact ⟨_, _, rfl, by decide⟩
    · obtain ⟨w, ws, hw, hclose⟩ := hargument.begun
      exact ⟨w, _, by rw [hw, List.cons_append], hclose⟩
  refine ⟨hbegun, (fun h => nomatch h), (fun h => nomatch h), fun signs hends => ?_⟩
  have hatom : Misses locate (Flush (.inr ['-', '>'] :: (result.words.map .inr ++ signs))) (rule .typeAtom) :=
    misses_rule (misses_at rfl rfl)
  have harrow := (((takes_spaced "->" (by decide)).of fun _ => After.indented).andThen (hresult.whole signs hends)).opt
  have hrule : Takes locate (Flush ((TypeExpr.grouped argument.isFunction argument.words).map .inr ++
      .inr ['-', '>'] :: (result.words.map .inr ++ signs))) (rule .typeExpr) (·.bare = .function argument.bare result.bare default)
      (After signs) := by
    refine takes_rule (((takes_arrowArgument hargument hatom).seq harrow).node ?_)
    rintro i j ⟨v, _⟩ ⟨hv, v', rfl, hv'⟩
    rw [TypeExpr.bare, hv, hv']
  simpa [TypeExpr.words, TypeExpr.bare] using hrule

end Kinds

/-- A type annotation that is rendered is read back. -/
theorem readBackType {t : TypeExpr} (h : t.Renderable) : TypeReadBack locate t := by
  induction h with
  | var range h => exact readBackType_var range h
  | reference range h _ ih => exact readBackType_reference range h ih
  | unit range => exact readBackType_unit range
  | tuple range hlength _ ih => exact readBackType_tuple range hlength ih
  | record range hbase hnames _ ih => exact readBackType_record range hbase hnames ih
  | function range _ _ ihargument ihresult => exact readBackType_function range ihargument ihresult

end Grammar

end ElmLint
