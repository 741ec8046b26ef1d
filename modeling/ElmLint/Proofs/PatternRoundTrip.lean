import ElmLint.Proofs.RoundTrip

/-!
# Written patterns are read back

`Pattern.render` writes a pattern down on one line, with a blank between each two words. Layout finds no block in it, so its laid-out
text has the words of the pattern and nothing else (`exists_flush_pattern`); and these are read as the pattern again, up to the end of
the text (`Pattern.exists_readPhrase_render`).

* `Pattern.readPhrase_render`: every pattern that the grammar can give and whose literals have values is read back, apart from the
  places in it.
-/

namespace ElmLint

/-- A pattern on one line, with single blanks between its words. -/
def Pattern.render (style : Style) (p : Pattern) : String := String.ofList ([' '].intercalate (p.words style))

/-- Words with single blanks between them: the first one, and the others after gaps. -/
theorem intercalate_blank (w : List Char) (words : List (List Char)) :
    [' '].intercalate (w :: words) = w ++ (spotsOf (words.map fun w => .inr ⟨.blank, w⟩)).flatMap Spot.text := by
  induction words generalizing w with
  | nil => simp [spotsOf]
  | cons v words ih =>
    rw [List.intercalate_cons_cons, ih v, List.map_cons, spotsOf_spot, List.flatMap_cons]
    simp [Spot.text, Gap.text]

/-- Words between which there are blanks have no signs but themselves. -/
theorem signsOf_blanks (words : List (List Char)) : signsOf (words.map fun w => .inr ⟨.blank, w⟩) = words.map .inr := by
  simp [signsOf, Function.comp_def]

/-- Words on one line that close the brackets they open are all that is in the laid-out text, which ends with the last of them. -/
theorem exists_flush_line {words : List (List Char)} (hne : words ≠ []) (h : Layout.WordSteps [] 0 words 0) : ∃ scanned,
    Scanned.ofSource ([' '].intercalate words) = .ok scanned ∧
      Flush (words.map .inr) (LaidOut.ofScanned ([' '].intercalate words) scanned).text ∧
      Layout.EndsTight (LaidOut.ofScanned ([' '].intercalate words) scanned).text := by
  obtain ⟨w, words, rfl⟩ := List.exists_cons_of_ne_nil hne
  obtain ⟨depth, hfirst, hrest⟩ := h
  have hlays := (Layout.lays_nil 0).blanks hrest
  rw [List.append_nil] at hlays
  have hflush := exists_flush_words hfirst hlays (intercalate_blank w words)
  rw [signsOf_blanks] at hflush
  exact hflush

/-- The laid-out text of a pattern has its words and ends with the last of them. -/
theorem exists_flush_pattern {style : Style} {p : Pattern} (h : p.Renderable style) : ∃ scanned,
    Scanned.ofSource (p.render style).toList = .ok scanned ∧
      Flush ((p.words style).map .inr) (LaidOut.ofScanned (p.render style).toList scanned).text ∧
      Layout.EndsTight (LaidOut.ofScanned (p.render style).toList scanned).text := by
  have hback : Grammar.PatternReadBack (fun _ _ => default) style p := Grammar.readBack h
  obtain ⟨w, words, hwords, -⟩ := hback.begun
  have hne : p.words style ≠ [] := hwords ▸ List.cons_ne_nil w words
  rw [Pattern.render, String.toList_ofList]
  exact exists_flush_line hne (Layout.wordSteps_pattern h (Nat.le_refl 0))

/-- A phrase that takes all that is in a text is read up to the end of it. -/
theorem LaidOut.readPhrase_of_takes {α : Type} {l : LaidOut} {signs : List Sign} {phrase : Grammar.Locate → Grammar.Phrase α}
    {R : α → Prop} (htakes : Grammar.Takes l.range (Flush signs) (phrase l.range) R (After [])) (hflush : Flush signs l.text)
    (htight : Layout.EndsTight l.text) : ∃ v, l.readPhrase phrase = .ok v ∧ R v := by
  rcases htakes (Grammar.fuelFor l.text) (.start l.text) hflush with hfuel | ⟨v, next, hread, hv, hrest⟩
  · exact absurd hfuel (Grammar.readText_ne_exhausted _ _ _)
  · -- What is left is blank, and the text does not end with a blank.
    obtain ⟨n, hn⟩ : (Cursor.start l.text).Ahead next := Peg.read_ahead (Peg.run_ahead _) _ hread
    have hdrop : next.rest = l.text.drop n := by rw [hn]; rfl
    have hblank : ∀ c ∈ next.rest, isBlank c = true := List.dropWhile_eq_nil_iff.1 hrest.2.eq_nil
    have hnil : next.rest = [] := by
      by_contra hne
      have hlast : l.text.getLast? = some (next.rest.getLast hne) := by
        rw [← List.take_append_drop n l.text, ← hdrop, List.getLast?_append_of_ne_nil _ hne, List.getLast?_eq_getLast_of_ne_nil hne]
      exact Bool.false_ne_true ((htight _ hlast).symm.trans (hblank _ (List.getLast_mem hne)))
    exact ⟨v, LaidOut.readPhrase_ok_iff.2 ⟨next, hread, hnil⟩, hv⟩

namespace Pattern

/-- The literals of what was read have no error when those of what was written have values. -/
theorem literalError?_eq_none_iff {p p' : Pattern} (h : p'.bare = p.bare) : literalError? p'.literals = none ↔ p.HasValues := by
  rw [ElmLint.literalError?_eq_none_iff, ← hasValues_congr h, HasValues, literalValues, List.forall_mem_map]

/-- A pattern on one line is laid out and read to the end of the text. -/
theorem exists_readPhrase_render {style : Style} {p : Pattern} (h : p.Renderable style) :
    ∃ l p', LaidOut.parse (p.render style) = .ok l ∧ l.readPhrase Grammar.pattern = .ok p' ∧ p'.bare = p.bare := by
  obtain ⟨scanned, hscanned, hflush, htight⟩ := exists_flush_pattern h
  let l := LaidOut.ofScanned (p.render style).toList scanned
  have hlaid : LaidOut.parse (p.render style) = .ok l := LaidOut.parse_ok_iff.2 (LaidOut.ofSource_ok_iff.2 ⟨scanned, hscanned, rfl⟩)
  have hback : Grammar.PatternReadBack l.range style p := Grammar.readBack h
  have htakes := Grammar.takes_of_rule (hback.pattern Grammar.endsPattern_nil)
  rw [List.append_nil] at htakes
  have hread : ∃ p', l.readPhrase Grammar.pattern = .ok p' ∧ p'.bare = p.bare := LaidOut.readPhrase_of_takes htakes hflush htight
  exact ⟨l, hread.imp fun _ => .intro hlaid⟩

/-- **Reading undoes writing, for all patterns.** Every pattern that the grammar can give and whose literals have values, written down
on one line with single blanks between its words, is laid out and read by the rule for patterns to the end of the text; each literal
that is read has a value, and what is read is the pattern, apart from the places in it. -/
theorem readPhrase_render (style : Style) (p : Pattern) (h : p.Renderable style) (hvalues : p.HasValues) :
    ∃ l p', LaidOut.parse (p.render style) = .ok l ∧ l.readPhrase Grammar.pattern = .ok p' ∧ literalError? p'.literals = none ∧
      p'.bare = p.bare := by
  obtain ⟨l, p', hlaid, hread, hbare⟩ := exists_readPhrase_render h
  exact ⟨l, p', hlaid, hread, (literalError?_eq_none_iff hbare).2 hvalues, hbare⟩

end Pattern

/-- A pattern of all kinds: a tuple and a constructor with an alias before `rest`, all of it named. -/
def allKinds : Pattern :=
  let found : Pattern := .named ["Maybe"] "Just" [.record ["x", "y"] default] default
  let quoted : Pattern := .list [.literal (.string [97, 34]) default, .literal (.char [98]) default] default
  let node : Pattern := .named [] "Node" [.literal (.int 1) default, .literal .unit default] default
  .aliased (.cons (.tuple [found, quoted, .wildcard default] default)
    (.cons (.parenthesized (.aliased node "n" default) default) (.var "rest" default) default) default) "all" default

theorem renderable_allKinds : allKinds.Renderable fourBlanks := by
  have hfound : (Pattern.named ["Maybe"] "Just" [.record ["x", "y"] default] default).Renderable fourBlanks :=
    .named _ (by decide) (by simp [Pattern.isAtomic]) (List.forall_mem_singleton.2 (.record _ (by decide)))
  have hstring : (Pattern.literal (.string [97, 34]) default).Renderable fourBlanks := .literal _ trivial
  have hchar : (Pattern.literal (.char [98]) default).Renderable fourBlanks := .literal _ (List.cons_ne_nil 98 [])
  have hquoted : (Pattern.list [.literal (.string [97, 34]) default, .literal (.char [98]) default] default).Renderable fourBlanks :=
    .list _ (List.forall_mem_cons.2 ⟨hstring, List.forall_mem_singleton.2 hchar⟩)
  have hnode : (Pattern.named [] "Node" [.literal (.int 1) default, .literal .unit default] default).Renderable fourBlanks :=
    .named _ (by decide) (by simp [Pattern.isAtomic])
      (List.forall_mem_cons.2 ⟨.literal _ (renderable_digit (by decide)), List.forall_mem_singleton.2 (.literal _ trivial)⟩)
  refine .aliased _ (.cons _ rfl rfl rfl (.tuple _ (by decide) ?_) (.cons _ rfl rfl rfl ?_ (.var _ (by decide)))) (by decide)
  · exact List.forall_mem_cons.2 ⟨hfound, List.forall_mem_cons.2 ⟨hquoted, List.forall_mem_singleton.2 (.wildcard _)⟩⟩
  · exact .parenthesized _ (.aliased _ hnode (by decide))

namespace Pattern

theorem readPhrase_render_allKinds :
    allKinds.render fourBlanks =
      "( Maybe.Just \x7b x , y \x7d , [ \"a\\u\x7b22\x7d\" , 'b' ] , _ ) :: ( Node 1 ( ) as n ) :: rest as all" ∧
    ∃ l p', LaidOut.parse (allKinds.render fourBlanks) = .ok l ∧ l.readPhrase Grammar.pattern = .ok p' ∧
      literalError? p'.literals = none ∧ p'.bare = allKinds.bare :=
  ⟨by decide +kernel, readPhrase_render fourBlanks allKinds renderable_allKinds (by decide +kernel)⟩

/-- A one with 4300 zeros is written as the digits that it has, and what is read of them has no value. -/
theorem readPhrase_render_longInteger :
    (literal (.int (10 ^ 4300)) default).render fourBlanks = String.ofList ('1' :: List.replicate 4300 '0') ∧
      ¬ ∃ l p', LaidOut.parse ((literal (.int (10 ^ 4300)) default).render fourBlanks) = .ok l ∧
        l.readPhrase Grammar.pattern = .ok p' ∧ literalError? p'.literals = none ∧
        p'.bare = (literal (.int (10 ^ 4300)) default).bare := by
  have hsame : ∀ n, (literal (.int n) default).render fourBlanks =
      (literal (.valueless (String.ofList (Nat.toDigits 10 n))) default).render fourBlanks := by
    intro n
    simp only [render, words, Literal.words_valueless]
  have hdigits : ∀ k, (literal (.int (10 ^ k)) default).render fourBlanks = String.ofList ('1' :: List.replicate k '0') := by
    intro k
    simp [render, words, Literal.words, toDigits_pow (by decide : 1 < 10)]
  refine ⟨hdigits 4300, ?_⟩
  have hvalueless : ∀ text, ¬ (literal (.valueless text) default).HasValues := fun _ =>
    mt hasValues_literal.1 (Option.some_ne_none _)
  rw [hsame]
  obtain ⟨l, p, hlaid, hread, hbare⟩ := exists_readPhrase_render (.literal default (renderable_longInteger (k := 4300) (by decide)))
  rintro ⟨l', p', hlaid', hread', hnone, -⟩
  cases hlaid.symm.trans hlaid'
  cases hread.symm.trans hread'
  exact hvalueless _ ((literalError?_eq_none_iff hbare).1 hnone)

end Pattern

end ElmLint
