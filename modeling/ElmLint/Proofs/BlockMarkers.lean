import ElmLint.Proofs.Alike
import ElmLint.Proofs.GrammarAccounts
import ElmLint.Proofs.Parse
import ElmLint.Syntax.Kind

/-!
# Every block is read once

For each block layout writes one marker where it opens and one where it closes, and the grammar reads one of each for a `case` and
for a `let`. If no character of the source looks like a marker, then all markers of the laid-out text were written by layout
(`Scanned.count_char`). Words, blanks and literals hold none of them, so a marker is read by the rule that asks for it and by nothing
else (`Grammar.ledger_kept`). Only the settings of an effect module are skipped whatever they hold, and they begin with the name
`where`. Without it a module has as many `case` and `let` expressions as its source has blocks (`Module.count_insertions`).
-/

namespace ElmLint

/-! ## The markers of a laid-out text -/

theorem count_char_eq_zero {cs : List Char} (h : ∀ c ∈ cs, isMarker c = false) (m : Marker) : cs.count m.char = 0 := by
  refine List.count_eq_zero.2 fun hmem => ?_
  have hnot := h _ hmem
  rw [LaidOut.isMarker_char] at hnot
  cases hnot

namespace Scanned

/-- A name that no token has is none of the words. -/
theorem name_notMem {s : Scanned} {name : String} (h : ∀ t ∈ s.tokens, t.kind = .name → t.text ≠ name) :
    (.name, name.toList) ∉ s.tokens.map Token.word := by
  intro hmem
  obtain ⟨t, ht, hword⟩ := List.mem_map.1 hmem
  exact h t ht (congrArg Prod.fst hword) (String.toList_inj.1 (congrArg Prod.snd hword))

variable {source : List Char} {s : Scanned} (hs : ofSource source = .ok s) (hsource : ∀ c ∈ source, isMarker c = false)

include hs hsource

/-- Blanking out comments writes no markers. -/
theorem isMarker_text : ∀ c ∈ s.text, isMarker c = false := by
  obtain ⟨ps, htiles, htext, -⟩ := exists_tiles hs
  intro c hc
  rw [htext] at hc
  obtain ⟨p, hp, hc⟩ := List.mem_flatMap.1 hc
  rw [Piece.visible] at hc
  split at hc
  · obtain ⟨d, hd, rfl⟩ := List.mem_map.1 hc
    split
    · exact hsource d (htiles.mem_of_mem_text p hp d hd)
    · rfl
  · exact hsource c (htiles.mem_of_mem_text p hp c hc)

/-- No token holds a marker. -/
theorem isMarker_words : ∀ v ∈ s.tokens.map Token.word, ∀ c ∈ v.2, isMarker c = false := by
  obtain ⟨ps, htiles, -, htokens⟩ := exists_tiles hs
  intro v hv c hc
  obtain ⟨t, ht, rfl⟩ := List.mem_map.1 hv
  rw [htokens] at ht
  obtain ⟨p, hp, hpt⟩ := List.mem_filterMap.1 ht
  unfold Piece.token? at hpt
  split at hpt
  · cases hpt
    rw [Token.word, String.toList_ofList] at hc
    exact hsource c (htiles.mem_of_mem_text p hp c hc)
  · cases hpt

/-- All markers of a laid-out text were written by layout. -/
theorem count_char (m : Marker) :
    (LaidOut.ofScanned source s).text.count m.char = (Layout.insertions s.tokens).countP (·.2 = m) := by
  have hperm := Layout.perm_insertFrom s.text 0 (Layout.insertions s.tokens)
  rw [LaidOut.ofScanned, hperm.count_eq, List.count_append, count_char_eq_zero (isMarker_text hs hsource), Nat.add_zero, List.count,
    List.countP_map]
  refine List.countP_congr fun i _ => ?_
  simp [Marker.char_injective.eq_iff]

end Scanned

/-- What looks like a marker is one that layout has written. -/
theorem LaidOut.mem_markers_iff {source : List Char} {s : Scanned} (hs : Scanned.ofSource source = .ok s)
    (hsource : ∀ c ∈ source, isMarker c = false) {o : Nat} {c : Char} (hc : (ofScanned source s).text[o]? = some c) :
    o ∈ (ofScanned source s).markers ↔ isMarker c = true := by
  rcases getElem?_sourceOffset hs hc with ⟨hmem, hmarker⟩ | ⟨hmem, hscanned⟩
  · exact iff_of_true hmem hmarker
  · exact iff_of_false hmem (by simp [Scanned.isMarker_text hs hsource c (List.mem_of_getElem? hscanned)])

/-! ## Weights -/

/-- Weights that count blocks, and the markers of one kind. -/
def Weights.blocks (m : Marker) : Weights Nat where
  pattern _ := 0
  expr e := if e.opensBlock then 1 else 0
  marker m' := if m' = m then 1 else 0

namespace Weights

/-- A block has one marker of each kind at its ends. -/
theorem lawful_blocks {m : Marker} (hm : m ≠ .separating) : (blocks m).Lawful where
  pattern_eq_zero _ _ := rfl
  expr_eq_zero e he _ := if_neg (by simp [he])
  expr_literal _ _ := rfl
  expr_of_opensBlock e he := by
    have hexpr : (blocks m).expr e = 1 := if_pos he
    rw [hexpr]
    cases m with
    | separating => exact absurd rfl hm
    | opening | closing => rfl
  marker_separating := if_neg hm.symm

/-- The weight of a module is the number of its `case` and `let` expressions. -/
theorem ofModule_blocks (m : Marker) (mod : Module) : (blocks m).ofModule mod =
    (mod.expressions.map Expr.kindName).count "CaseExpression" + (mod.expressions.map Expr.kindName).count "LetExpression" := by
  have hpatterns : (mod.patterns.map (blocks m).pattern).sum = 0 := by simp [blocks]
  rw [ofModule_eq, hpatterns, Nat.zero_add]
  induction mod.expressions with
  | nil => rfl
  | cons e es ih =>
    rw [List.map_cons, List.sum_cons, ih]
    cases e <;> simp [blocks, Expr.opensBlock, Expr.kindName] <;> omega

end Weights

/-! ## Texts read marker by marker -/

theorem isMarker_of_isSolid {c : Char} (h : isSolid c = true) : isMarker c = false := (isSolid_iff.1 h).2.1

/-- A plain word is a run of blanks, a literal, or a part of the solid characters at the beginning. -/
theorem Lexeme.plain_cases {l : Lexeme} (hl : l.isPlain = true) {cs : List Char} {n : Nat} (hn : l.length? cs = some n) :
    n = runLength isBlank cs ∨ (l = .string ∨ l = .char) ∨ n ≤ (cs.takeWhile isSolid).length := by
  have hword : l.isWord = true → n ≤ (cs.takeWhile isSolid).length := by
    intro hl
    rw [isWord, Bool.and_eq_true, Bool.not_eq_true'] at hl
    exact (length?_pos hl.2 _ n ((contained hl.1 cs).trans hn)).2
  cases l with
  | blanks => exact .inl (Option.some.inj hn).symm
  | someBlanks => exact .inl (someRun?_eq_some_iff.1 hn).1
  | string => exact .inr (.inl (.inl rfl))
  | char => exact .inr (.inl (.inr rfl))
  | _ => exact .inr (.inr (hword hl))

theorem isBlank_take_runLength (cs : List Char) : ∀ c ∈ cs.take (runLength isBlank cs), isBlank c = true := by
  rw [runLength, ← take_takeWhile (Nat.le_refl _), List.take_length]
  exact List.all_eq_true.1 List.all_takeWhile

theorem isSolid_take {cs : List Char} {n : Nat} (h : n ≤ (cs.takeWhile isSolid).length) : ∀ c ∈ cs.take n, isSolid c = true := by
  rw [← take_takeWhile h]
  exact fun c hc => List.all_eq_true.1 List.all_takeWhile c (List.mem_of_mem_take hc)

namespace Renders

variable {words : List (Token.Kind × List Char)} {sk : List Chunk} {cs : List Char}

/-- After a plain word there is a skeleton again, and the word has no marker unless it is a literal with one. -/
theorem read_plain (h : Renders words sk cs) (hwords : ∀ v ∈ words, ∀ c ∈ v.2, isMarker c = false) {l : Lexeme}
    (hl : l.isPlain = true) {n : Nat} (hn : l.length? cs = some n) :
    (∀ c ∈ cs.take n, isMarker c = false) ∧ ∃ sk', Renders words sk' (cs.drop n) := by
  rcases Lexeme.plain_cases hl hn with rfl | hliteral | hsolid
  · rw [drop_runLength]
    exact ⟨fun c hc => isMarker_of_isBlank (isBlank_take_runLength cs c hc), _, h.dropWhile_isBlank⟩
  · obtain ⟨kind, text, rest, sk', rfl, -, hmem, rfl, -, hrest⟩ := h.exists_literal hliteral hn
    rw [List.take_left, List.drop_left]
    exact ⟨hwords _ hmem, sk', hrest⟩
  · exact ⟨fun c hc => isMarker_of_isSolid (isSolid_take hsolid c hc), _, h.drop_isSolid hsolid⟩

/-- After a marker there is a skeleton again. -/
theorem read_marker (h : Renders words sk cs) {m : Marker} {n : Nat} (hn : (Lexeme.marker m).length? cs = some n) :
    ∃ rest sk', cs = m.char :: rest ∧ n = 1 ∧ Renders words sk' rest := by
  rw [Lexeme.length?_marker] at hn
  split at hn
  · next hhead =>
    obtain ⟨rest, rfl⟩ := List.head?_eq_some_iff.1 hhead
    obtain ⟨sk', -, hrest⟩ := h.exists_char (by cases m <;> rfl) (by cases m <;> rfl)
    exact ⟨rest, sk', rfl, (Option.some.inj hn).symm, hrest⟩
  · cases hn

end Renders

namespace Grammar

variable {l : LaidOut} {words : List (Token.Kind × List Char)} {m : Marker}

/-- The text from one cursor to the next holds a number of markers, if the text at the first one has a skeleton; and then so has the text at
the next one. -/
def Kept (words : List (Token.Kind × List Char)) (m : Marker) (c : Cursor) (count : Nat) (c' : Cursor) : Prop :=
  (∃ sk, Renders words sk c.rest) → (∃ sk, Renders words sk c'.rest) ∧ c.rest.count m.char = count + c'.rest.count m.char

theorem additive_kept : Additive (Kept words m) where
  refl _ h := ⟨h, (Nat.zero_add _).symm⟩
  trans {c n c' n' c''} h h' hc := by
    obtain ⟨hc', hcount⟩ := h hc
    obtain ⟨hc'', hcount'⟩ := h' hc'
    exact ⟨hc'', by omega⟩

theorem kept_lexeme (hwords : ∀ v ∈ words, ∀ c ∈ v.2, isMarker c = false) {lex : Lexeme} {c : Cursor} {n : Nat}
    (hn : lex.length? c.rest = some n) (hlex : lex.isPlain = true) : Kept words m c 0 (c.advance n) := by
  rintro ⟨sk, h⟩
  obtain ⟨hmarkers, hrest⟩ := h.read_plain hwords hlex hn
  refine ⟨hrest, ?_⟩
  calc c.rest.count m.char = (c.rest.take n ++ c.rest.drop n).count m.char := by rw [List.take_append_drop]
    _ = 0 + (c.rest.drop n).count m.char := by rw [List.count_append, count_char_eq_zero hmarkers]

theorem kept_map (hwords : ∀ v ∈ words, ∀ c ∈ v.2, isMarker c = false) {lex : Lexeme} (hlex : lex.isPlain = true) {α : Type}
    {f : List Char → α} {call : (r : Rule) → Cursor → Outcome r.Sem} {c c' : Cursor} {v : α}
    (h : (Peg.map f (.lexeme lex) : Phrase α).read call c = .ok v c') : Kept words m c 0 c' := by
  obtain ⟨_, htext, -⟩ := Peg.read_node_ok.1 h
  obtain ⟨n, hn, -, rfl⟩ := Peg.read_lexeme_ok.1 htext
  exact kept_lexeme hwords hn hlex

theorem kept_marker (m' : Marker) {c : Cursor} {n : Nat} (hn : (Lexeme.marker m').length? c.rest = some n) :
    Kept words m c (if m' = m then 1 else 0) (c.advance n) := by
  rintro ⟨sk, h⟩
  obtain ⟨rest, sk', hcut, rfl, hrest⟩ := h.read_marker hn
  have hnext : (c.advance 1).rest = rest := by rw [Cursor.advance, hcut]; rfl
  rw [hnext, hcut, List.count_cons, Nat.add_comm]
  refine ⟨⟨sk', hrest⟩, ?_⟩
  simp [Marker.char_injective.eq_iff]

/-- Settings begin with the name `where`. -/
theorem not_read_effectSettings (hwhere : (.name, "where".toList) ∉ words) {call : (r : Rule) → Cursor → Outcome r.Sem} {c c' : Cursor}
    {v : List Char} {sk : List Chunk} (h : Renders words sk c.rest) : effectSettings.read call c ≠ .ok v c' := by
  intro hread
  obtain ⟨_, _, hread, -⟩ := Peg.read_andSkip_ok.1 hread
  obtain ⟨_, _, hread, -⟩ := Peg.read_andThen_ok.1 hread
  obtain ⟨_, _, hread, -⟩ := Peg.read_andThen_ok.1 hread
  obtain ⟨_, _, hread, -⟩ := Peg.read_andThen_ok.1 hread
  obtain ⟨_, _, hspace, hword⟩ := Peg.read_andThen_ok.1 hread
  obtain ⟨n, hn, -, rfl⟩ := Peg.read_lexeme_ok.1 hspace
  obtain ⟨k, hk, -⟩ := Peg.read_lexeme_ok.1 hword
  exact hwhere (h.mem_of_word "where" rfl rfl hn hk)

/-- Blocks account for the markers that the grammar reads. -/
theorem ledger_kept (hm : m ≠ .separating) (hwords : ∀ v ∈ words, ∀ c ∈ v.2, isMarker c = false)
    (hwhere : (.name, "where".toList) ∉ words) : Ledger l (.blocks m) (Kept words m) where
  toAdditive := additive_kept
  toLawful := Weights.lawful_blocks hm
  lexeme _ hlex _ _ hn := kept_lexeme hwords hn hlex
  marker m' _ _ hn := kept_marker m' hn
  settings _ _ _ _ _ h hc := by
    obtain ⟨sk, hsk⟩ := hc
    exact absurd h (not_read_effectSettings hwhere hsk)
  quoted _ _ c v c' h := by
    rcases Peg.read_alt_ok.1 h with h | ⟨-, h⟩
    · exact kept_map hwords rfl h
    · exact kept_map hwords rfl h
  bare _ _ c v c' h := kept_map hwords rfl h
  applied _ _ c v c₁ arguments c' h _ harguments := additive_kept.trans (kept_map hwords rfl h) harguments
  reference _ _ c v c' h := by
    obtain ⟨name, hname, rfl⟩ := Peg.read_node_ok.1 h
    obtain ⟨_, c₁, hkeyword, hpath⟩ := Peg.read_andThen_ok.1 hname
    obtain ⟨rfl, -⟩ := Peg.read_without_ok.1 hkeyword
    exact kept_map hwords rfl hpath

end Grammar

/-! ## Modules -/

namespace Module

/-- **Every block is read once.** In a source without marker characters and without the name `where` that is read as a module, layout
writes as many opening markers, and as many closing markers, as the module has `case` and `let` expressions. -/
theorem count_insertions {source file : String} {s : Scanned} {mod : Module} (hs : Scanned.ofSource source.toList = .ok s)
    (hparse : parse source file = .ok mod) (hmarkers : ∀ c ∈ source.toList, isMarker c = false)
    (hwhere : ∀ t ∈ s.tokens, t.kind = .name → t.text ≠ "where") :
    (Layout.insertions s.tokens).countP (·.2 = .opening) = (mod.expressions.map Expr.kindName).count "CaseExpression" +
        (mod.expressions.map Expr.kindName).count "LetExpression" ∧
      (Layout.insertions s.tokens).countP (·.2 = .closing) = (mod.expressions.map Expr.kindName).count "CaseExpression" +
        (mod.expressions.map Expr.kindName).count "LetExpression" := by
  obtain ⟨items, hread, rfl, -⟩ := (parse_ok_iff_of_scanned hs).1 hparse
  obtain ⟨next, hread, hend⟩ := LaidOut.readPhrase_ok_iff.1 hread
  have hname := Scanned.name_notMem hwhere
  have hblocks : ∀ m : Marker, m ≠ .separating → (Layout.insertions s.tokens).countP (·.2 = m) =
      (Weights.blocks m).ofModule (.ofItems items s.comments file) := by
    intro m hm
    have hledger := Grammar.ledger_kept (l := LaidOut.ofScanned source.toList s) hm (Scanned.isMarker_words hs hmarkers) hname
    obtain ⟨-, hcount⟩ := Grammar.accounts_readText hledger hread ⟨_, LaidOut.renders hs⟩
    rw [hend] at hcount
    rw [← Scanned.count_char hs hmarkers, Weights.ofModule_ofItems]
    exact hcount
  rw [hblocks .opening (by decide), hblocks .closing (by decide), Weights.ofModule_blocks, Weights.ofModule_blocks]
  exact ⟨rfl, rfl⟩

set_option maxRecDepth 100000 in
/-- A `let` in an arm of a `case`: two blocks, the inner one closed by `in` and the outer one at the end. -/
theorem count_insertions_of_nested :
    ∃ s mod, Scanned.ofSource "x =\n case y of\n  z -> let w = z in w\n".toList = .ok s ∧
      parse "x =\n case y of\n  z -> let w = z in w\n" "A.elm" = .ok mod ∧
      (Layout.insertions s.tokens).countP (·.2 = .opening) = 2 ∧ (Layout.insertions s.tokens).countP (·.2 = .closing) = 2 ∧
      (mod.expressions.map Expr.kindName).count "CaseExpression" + (mod.expressions.map Expr.kindName).count "LetExpression" = 2 := by
  obtain ⟨s, hs, htest⟩ := exists_ok_of_any (Scanned.ofSource "x =\n case y of\n  z -> let w = z in w\n".toList)
    (fun s => decide ((∀ t ∈ s.tokens, t.kind = .name → t.text ≠ "where") ∧
      (Layout.insertions s.tokens).countP (·.2 = .opening) = 2)) (by decide +kernel)
  obtain ⟨hwhere, htwo⟩ := of_decide_eq_true htest
  obtain ⟨mod, hmod, -⟩ := exists_parse_of_any "x =\n case y of\n  z -> let w = z in w\n" "A.elm" (fun _ => true) (by decide +kernel)
  have hplain : ("x =\n case y of\n  z -> let w = z in w\n".toList.all fun c => !isMarker c) = true := by decide +kernel
  obtain ⟨hopening, hclosing⟩ := count_insertions hs hmod (by simpa using hplain) hwhere
  exact ⟨s, mod, hs, hmod, htwo, hclosing.trans (hopening.symm.trans htwo), hopening.symm.trans htwo⟩

end Module

end ElmLint
