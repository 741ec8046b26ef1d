import ElmLint.Parse
import ElmLint.Proofs.GrammarFuel
import ElmLint.Proofs.LaidOut

/-!
# What parsing gives

* `Module.parse` gives a module when the source can be laid out, the grammar reads the laid-out text to its end, and all
  literals have a value (`Module.parse_ok_iff`).
* Any other source has a comment that is never closed, or stops the grammar somewhere, or holds a literal without a value
  (`Module.parse_cases`); only in the last case there is no failure to report it (`Module.reportable_iff`).
-/

namespace ElmLint

/-- A result that passes a test is there. -/
theorem exists_ok_of_any {ε α : Type} (result : Except ε α) (test : α → Bool) (h : result.toOption.any test = true) :
    ∃ a, result = .ok a ∧ test a = true := by
  cases result with
  | error e => cases h
  | ok a => exact ⟨a, rfl, h⟩

/-- A text is read as a phrase when the phrase ends with it. -/
theorem LaidOut.readPhrase_ok_iff {α : Type} {l : LaidOut} {phrase : Grammar.Locate → Grammar.Phrase α} {v : α} :
    l.readPhrase phrase = .ok v ↔
      ∃ next, Grammar.readText l.range (phrase l.range) l.text = .ok v next ∧ next.rest = [] := by
  unfold readPhrase
  cases Grammar.readText l.range (phrase l.range) l.text with
  | fail => simp
  | exhausted => simp
  | ok value next =>
    cases hrest : next.rest with
    | nil =>
      simp only [hrest, List.isEmpty_nil, if_true, Except.ok.injEq, Outcome.ok.injEq]
      constructor
      · rintro rfl
        exact ⟨next, ⟨rfl, rfl⟩, hrest⟩
      · rintro ⟨_, ⟨rfl, -⟩, -⟩
        rfl
    | cons c cs =>
      simp only [hrest, List.isEmpty_cons, Bool.false_eq_true, if_false, reduceCtorEq, Outcome.ok.injEq, false_iff]
      rintro ⟨_, ⟨-, rfl⟩, hnil⟩
      rw [hrest] at hnil
      cases hnil

theorem LaidOut.parse_ok_iff {source : String} {l : LaidOut} :
    LaidOut.parse source = .ok l ↔ LaidOut.ofSource source.toList = .ok l := by
  unfold LaidOut.parse
  cases LaidOut.ofSource source.toList with
  | error offset => exact iff_of_false nofun nofun
  | ok laidOut => exact ⟨fun h => congrArg Except.ok (Except.ok.inj h), fun h => congrArg Except.ok (Except.ok.inj h)⟩

namespace Module

theorem ofLaidOut_ok_iff {l : LaidOut} {file : String} {m : Module} :
    ofLaidOut l file = .ok m ↔
      ∃ items, l.readPhrase Grammar.topLevel = .ok items ∧ m = ofItems items l.comments file ∧
        literalError? m.literals = none := by
  unfold ofLaidOut
  cases hread : l.readPhrase Grammar.topLevel with
  | error e => cases e <;> simp
  | ok items =>
    cases herror : literalError? (ofItems items l.comments file).literals with
    | some e =>
      simp only [herror, Except.ok.injEq, reduceCtorEq, false_iff]
      rintro ⟨_, rfl, rfl, hnone⟩
      rw [herror] at hnone
      cases hnone
    | none =>
      simp only [herror, Except.ok.injEq]
      constructor
      · rintro rfl
        exact ⟨items, rfl, rfl, herror⟩
      · rintro ⟨_, rfl, rfl, -⟩
        rfl

theorem parse_ok_iff {source file : String} {m : Module} :
    parse source file = .ok m ↔
      ∃ l items, LaidOut.ofSource source.toList = .ok l ∧ l.readPhrase Grammar.topLevel = .ok items ∧
        m = ofItems items l.comments file ∧ literalError? m.literals = none := by
  have hbind : parse source file = .ok m ↔ ∃ l, LaidOut.parse source = .ok l ∧ ofLaidOut l file = .ok m := by
    unfold parse
    cases LaidOut.parse source <;> simp [Except.bind]
  rw [hbind]
  exact exists_congr fun l => by rw [LaidOut.parse_ok_iff, ofLaidOut_ok_iff, exists_and_left]

/-- A scanned source is read as the module of the items of its laid-out text. -/
theorem parse_ok_iff_of_scanned {source file : String} {s : Scanned} {m : Module} (hs : Scanned.ofSource source.toList = .ok s) :
    parse source file = .ok m ↔ ∃ items, (LaidOut.ofScanned source.toList s).readPhrase Grammar.topLevel = .ok items ∧
      m = ofItems items s.comments file ∧ literalError? m.literals = none := by
  have hlaid : ∀ l, LaidOut.ofSource source.toList = .ok l ↔ l = LaidOut.ofScanned source.toList s := by
    intro l
    rw [LaidOut.ofSource_ok_iff]
    constructor
    · rintro ⟨s', hs', rfl⟩
      rw [Except.ok.inj (hs.symm.trans hs')]
    · rintro rfl
      exact ⟨s, hs, rfl⟩
  rw [parse_ok_iff]
  constructor
  · rintro ⟨l, items, hl, hread, hm, hvalues⟩
    obtain rfl := (hlaid l).1 hl
    exact ⟨items, hread, hm, hvalues⟩
  · rintro ⟨items, hread, hm, hvalues⟩
    exact ⟨_, items, (hlaid _).2 rfl, hread, hm, hvalues⟩

/-- A source that passes a test on the module it gives is one that gives a module. -/
theorem exists_parse_of_any (source file : String) (test : Module → Bool)
    (h : (parse source file).toOption.any test = true) : ∃ m, parse source file = .ok m ∧ test m = true :=
  exists_ok_of_any _ test h

-- Evaluating the characters of a string is slow in the kernel; they are found by unification here, with `rfl` for `hsource`.
theorem exists_parse_of_chars (source : String) {cs : List Char} (hsource : String.ofList cs = source) (file : String)
    (test : Module → Bool) (h : ((LaidOut.ofSource cs).toOption.bind fun l => (ofLaidOut l file).toOption).any test = true) :
    ∃ m, parse source file = .ok m ∧ test m = true := by
  subst hsource
  have hlaid : LaidOut.parse (String.ofList cs) = (LaidOut.ofSource cs).mapError fun offset =>
      .unclosedComment (Position.ofOffset (lineStarts cs) offset) := by
    rw [LaidOut.parse, String.toList_ofList]
  rw [parse, hlaid]
  cases hl : LaidOut.ofSource cs with
  | error e =>
    rw [hl] at h
    cases h
  | ok l =>
    rw [hl] at h
    exact exists_ok_of_any _ test h

end Module

/-! ## Literals without a value -/

/-- Literals have an error exactly when one of them has. -/
theorem literalError?_eq_none_iff {literals : List PlacedLiteral} :
    literalError? literals = none ↔ ∀ l ∈ literals, l.value.error? = none := by
  -- Once the search has found a literal, it holds on to one.
  have hstays : ∀ {search : Option (Position × LiteralError) → Position × LiteralError → Option (Position × LiteralError)},
      (∀ b l, ∃ b', search (some b) l = some b') → ∀ (bad : List _) b, bad.foldl search (some b) ≠ none := by
    intro search hsearch bad
    induction bad with
    | nil => exact fun b => nofun
    | cons l bad ih =>
      intro b
      obtain ⟨b', hb'⟩ := hsearch b l
      rw [List.foldl_cons, hb']
      exact ih b'
  have hbad : literalError? literals = none ↔
      (literals.filterMap fun l => l.value.error?.map (l.range.start, ·)) = [] := by
    unfold literalError?
    simp only [Option.map_eq_none_iff]
    cases literals.filterMap fun l => l.value.error?.map (l.range.start, ·) with
    | nil => exact iff_of_true rfl rfl
    | cons b bad =>
      refine iff_of_false (hstays (fun b l => ?_) bad b) (List.cons_ne_nil _ _)
      by_cases hbefore : l.1.before b.1
      · exact ⟨l, if_pos hbefore⟩
      · exact ⟨b, if_neg hbefore⟩
  rw [hbad, List.filterMap_eq_nil_iff]
  simp only [Option.map_eq_none_iff]

/-- The grammar reads the source to its end, but one of its literals has no value. -/
def HoldsValuelessLiteral (source : String) : Prop :=
  ∃ l items, LaidOut.ofSource source.toList = .ok l ∧ l.readPhrase Grammar.topLevel = .ok items ∧
    ∃ literal ∈ (Module.ofItems items l.comments "").literals, literal.value.error? ≠ none

theorem holdsValuelessLiteral_iff {source : String} {l : LaidOut} (hlaid : LaidOut.ofSource source.toList = .ok l)
    (file : String) : HoldsValuelessLiteral source ↔
      ∃ items, l.readPhrase Grammar.topLevel = .ok items ∧
        literalError? (Module.ofItems items l.comments file).literals ≠ none := by
  have hliterals : ∀ items, (literalError? (Module.ofItems items l.comments file).literals ≠ none ↔
      ∃ literal ∈ (Module.ofItems items l.comments "").literals, literal.value.error? ≠ none) := by
    intro items
    rw [Ne, literalError?_eq_none_iff]
    simp only [Classical.not_forall, exists_prop]
    exact Iff.rfl
  constructor
  · rintro ⟨l', items, hlaid', hread, hvalue⟩
    rw [hlaid] at hlaid'
    cases hlaid'
    exact ⟨items, hread, (hliterals items).2 hvalue⟩
  · rintro ⟨items, hread, herror⟩
    exact ⟨l, items, hlaid, hread, (hliterals items).1 herror⟩

namespace Module

/-- What a source gives: a module, an open comment, the place where the grammar stopped, or a literal without a value. -/
theorem parse_cases (source file : String) :
    (∃ m, parse source file = .ok m ∧ ¬ HoldsValuelessLiteral source) ∨
    (∃ position, parse source file = .error (.unclosedComment position) ∧ ¬ HoldsValuelessLiteral source) ∨
    (∃ l items next, LaidOut.ofSource source.toList = .ok l ∧
      Grammar.readText l.range (Grammar.topLevel l.range) l.text = .ok items next ∧ next.rest ≠ [] ∧
      parse source file = .error (.unparsed (l.position next.offset)) ∧ ¬ HoldsValuelessLiteral source) ∨
    ∃ error, parse source file = .error (.literal error) ∧ HoldsValuelessLiteral source := by
  cases hlaid : LaidOut.ofSource source.toList with
  | error offset =>
    refine .inr (.inl ⟨Position.ofOffset (lineStarts source.toList) offset, ?_, ?_⟩)
    · rw [parse, LaidOut.parse, hlaid]
      rfl
    · rintro ⟨l, items, hl, -⟩
      rw [hlaid] at hl
      cases hl
  | ok l =>
    have hparse : parse source file = ofLaidOut l file := by
      rw [parse, LaidOut.parse_ok_iff.2 hlaid]
      rfl
    rw [hparse, holdsValuelessLiteral_iff hlaid file]
    unfold ofLaidOut
    obtain ⟨items, next, hread⟩ := Grammar.exists_readText_topLevel l.range l.text
    cases hrest : next.rest with
    | nil =>
      have hphrase := LaidOut.readPhrase_ok_iff.2 ⟨next, hread, hrest⟩
      rw [hphrase]
      simp only [Except.ok.injEq, exists_eq_left']
      cases herror : literalError? (ofItems items l.comments file).literals with
      | none => exact .inl ⟨_, rfl, fun h => h rfl⟩
      | some e => exact .inr (.inr (.inr ⟨e, rfl, nofun⟩))
    | cons c cs =>
      have hphrase : l.readPhrase Grammar.topLevel = .error (.trailing next.offset) := by
        rw [LaidOut.readPhrase, hread]
        simp only [hrest, List.isEmpty_cons, Bool.false_eq_true, if_false]
      rw [hphrase]
      refine .inr (.inr (.inl ⟨l, items, next, rfl, hread, ?_, rfl, ?_⟩))
      · rw [hrest]
        exact List.cons_ne_nil c cs
      · rintro ⟨_, hitems, -⟩
        cases hitems

/-- A source that holds a literal without a value is no module, and all that is told is why the literal has none. -/
theorem parse_of_holdsValuelessLiteral {source : String} (h : HoldsValuelessLiteral source) (file : String) :
    ∃ error, parse source file = .error (.literal error) := by
  rcases parse_cases source file with ⟨_, -, hnot⟩ | ⟨_, -, hnot⟩ | ⟨_, _, _, -, -, -, -, hnot⟩ | ⟨error, hparse, -⟩
  · exact absurd h hnot
  · exact absurd h hnot
  · exact absurd h hnot
  · exact ⟨error, hparse⟩

/-- A source gives a module or a failure that reports what is wrong with it, unless it holds a literal without a value. -/
theorem reportable_iff (source file : String) :
    ((∃ m, parse source file = .ok m) ∨ ∃ error failure, parse source file = .error error ∧
      error.report file = .ok failure ∧ failure.kind = .source ∧ failure.span.file = file) ↔
      ¬ HoldsValuelessLiteral source := by
  rcases parse_cases source file with ⟨m, hparse, h⟩ | ⟨position, hparse, h⟩ | ⟨l, _, next, -, -, -, hparse, h⟩ |
    ⟨error, hparse, h⟩
  · exact iff_of_true (.inl ⟨m, hparse⟩) h
  · exact iff_of_true (.inr ⟨_, _, hparse, rfl, rfl, rfl⟩) h
  · exact iff_of_true (.inr ⟨_, _, hparse, rfl, rfl, rfl⟩) h
  · refine iff_of_false ?_ fun hnot => hnot h
    rintro (⟨m, hm⟩ | ⟨e, failure, he, hreport, -⟩)
    · rw [hparse] at hm
      cases hm
    · rw [hparse] at he
      cases he
      cases hreport

end Module

end ElmLint
