import ElmLint.Proofs.FindingText
import ElmLint.Proofs.QuotedTokens
import Mathlib.Data.Multiset.Bind

/-!
# Every literal is a token

The grammar reads literals in the laid-out text, the scanner cuts tokens from the source. They agree on strings and characters as long as the
grammar never stops inside a token that begins with a quote (`Grammar.Unquoted`). Words and blanks hold no quotes, a marker stands inside no
token, and at a quote a literal is a whole token or it is not read (`Grammar.read_quoted`); so each rule that begins outside such tokens ends
outside of them, and the literals that it gives are tokens (`Grammar.ledger_located`). The settings of an effect module are skipped up to the
next brace, which may be part of a string. But they stand in a header, which has no literals, and the next item comes after a marker.

* `Module.literals_are_tokens`: a string or a character of a parsed module is one token of its source, from its first to its last quote.
-/

namespace ElmLint

/-! ## Literals and tokens -/

/-- The range of a token in a source whose lines start at `starts`. -/
def Token.range (starts : List Nat) (t : Token) : SourceRange :=
  ⟨Position.ofOffset starts t.start, (Position.ofOffset starts (t.stop - 1)).next⟩

/-- A literal is what a token says: the token has the range of the literal, its text is a body between quotes of the literal's kind, and the
value is what the body denotes. -/
def Token.IsLiteral (starts : List Nat) (t : Token) (l : PlacedLiteral) : Prop :=
  t.range starts = l.range ∧ ∃ (e : Enclosure) (body : List Char), t.kind = e.kind ∧ t.text.toList = e.enclose body ∧
    (e = .line → ¬ ['"', '"', '"'] <+: t.text.toList) ∧ l.value = e.literal (Literal.unescape body)

/-- Different tokens have different ranges. -/
theorem Scanned.eq_of_range_eq {source : List Char} {s : Scanned} (hs : ofSource source = .ok s) {t u : Token} (ht : t ∈ s.tokens)
    (hu : u ∈ s.tokens) (h : t.range (lineStarts source) = u.range (lineStarts source)) : t = u := by
  have hstart : t.start = u.start := Position.ofOffset_injective (congrArg SourceRange.start h)
  have := token_bounds hs t ht
  have := token_bounds hs u hu
  by_contra hne
  rcases disjoint_tokens hs ht hu hne with hbefore | hafter <;> omega

/-- One token only has its range. -/
theorem Scanned.filter_range {source : List Char} {s : Scanned} (hs : ofSource source = .ok s) {t : Token} (ht : t ∈ s.tokens) :
    s.tokens.filter (fun u => u.range (lineStarts source) = t.range (lineStarts source)) = [t] := by
  have hnodup : s.tokens.Nodup := by
    refine (pairwise_tokens hs).imp_of_mem fun {u v} hu hv hle => ?_
    rintro rfl
    have := token_bounds hs u hu
    omega
  have hsame : s.tokens.filter (fun u => u.range (lineStarts source) = t.range (lineStarts source)) = s.tokens.filter (· = t) := by
    refine List.filter_congr fun u hu => decide_eq_decide.2 ⟨eq_of_range_eq hs hu ht, ?_⟩
    rintro rfl
    rfl
  rw [hsame, List.filter_eq, List.count_eq_one_of_mem hnodup ht]
  rfl

/-! ## Weights -/

/-- Weights that count strings and characters by what they are and where. -/
def Weights.literals : Weights (Multiset PlacedLiteral) where
  pattern p := ↑(p.placedLiteral?.toList.filter (·.value.isQuoted))
  expr e := ↑(e.placedLiteral?.toList.filter (·.value.isQuoted))
  marker _ := 0

namespace Weights

theorem lawful_literals : literals.Lawful where
  pattern_eq_zero p hp := by
    cases p with
    | named => cases hp
    | literal value r =>
      rw [Pattern.counts] at hp
      simp [literals, Pattern.placedLiteral?, hp]
    | _ => rfl
  expr_eq_zero e _ he := by
    cases e with
    | reference => cases he
    | literal value r =>
      rw [Expr.counts] at he
      simp [literals, Expr.placedLiteral?, he]
    | _ => rfl
  expr_literal _ _ := rfl
  expr_of_opensBlock e he := by
    cases e with
    | caseOf | letIn => rfl
    | _ => cases he
  marker_separating := rfl

/-- The strings and characters of a module are part of its weight. -/
theorem mem_ofModule_literals {m : Module} {value : Literal} {r : SourceRange} (hvalue : value.isQuoted = true)
    (h : .literal value r ∈ m.expressions ∨ .literal value r ∈ m.patterns) : ⟨value, r⟩ ∈ literals.ofModule m := by
  have hsum : ∀ {α : Type} (weight : α → Multiset PlacedLiteral) {a : α} {parts : List α}, a ∈ parts →
      (⟨value, r⟩ : PlacedLiteral) ∈ weight a → ⟨value, r⟩ ∈ (parts.map weight).sum := by
    intro α weight a parts ha hmem
    have hbind : (⟨value, r⟩ : PlacedLiteral) ∈ (parts : Multiset α).bind weight := Multiset.mem_bind.2 ⟨a, ha, hmem⟩
    rwa [Multiset.bind, Multiset.join, Multiset.map_coe, Multiset.sum_coe] at hbind
  rw [ofModule_eq, Multiset.mem_add]
  rcases h with h | h
  · exact .inr (hsum _ h (by simp [literals, Expr.placedLiteral?, hvalue]))
  · exact .inl (hsum _ h (by simp [literals, Pattern.placedLiteral?, hvalue]))

end Weights

/-! ## Outside the tokens with quotes -/

namespace Grammar

/-- A cursor on a laid-out text whose place in the source lies inside no token that begins with a quote. -/
def Unquoted (l : LaidOut) (tokens : List Token) (c : Cursor) : Prop :=
  c.On l.text ∧ ∀ t ∈ tokens, t.isQuoted = true → l.sourceOffset c.offset ≤ t.start ∨ t.stop ≤ l.sourceOffset c.offset

/-- All of these literals are tokens. -/
def Tokenized (starts : List Nat) (tokens : List Token) (literals : Multiset PlacedLiteral) : Prop :=
  ∀ v ∈ literals, ∃ t ∈ tokens, t.IsLiteral starts v

namespace Tokenized

variable {starts : List Nat} {tokens : List Token} {literals literals' : Multiset PlacedLiteral}

theorem zero : Tokenized starts tokens 0 := fun v hv => absurd hv (Multiset.notMem_zero v)

theorem add (h : Tokenized starts tokens literals) (h' : Tokenized starts tokens literals') :
    Tokenized starts tokens (literals + literals') :=
  fun v hv => (Multiset.mem_add.1 hv).elim (h v) (h' v)

theorem literal {t : Token} {value : Literal} {r : SourceRange} (ht : t ∈ tokens) (h : t.IsLiteral starts ⟨value, r⟩) :
    Tokenized starts tokens (Weights.literals.pattern (.literal value r)) := by
  intro v hv
  obtain ⟨hv, -⟩ := List.mem_filter.1 (Multiset.mem_coe.1 hv)
  obtain rfl : v = ⟨value, r⟩ := by simpa [Pattern.placedLiteral?] using hv
  exact ⟨t, ht, h⟩

end Tokenized

/-- Outside of tokens with quotes one reads on to a place outside of them, and the literals that are counted are tokens. -/
def Located (source : List Char) (s : Scanned) (c : Cursor) (literals : Multiset PlacedLiteral) (c' : Cursor) : Prop :=
  Unquoted (.ofScanned source s) s.tokens c →
    Unquoted (.ofScanned source s) s.tokens c' ∧ Tokenized (lineStarts source) s.tokens literals

theorem additive_located (source : List Char) (s : Scanned) : Additive (Located source s) where
  refl _ h := ⟨h, .zero⟩
  trans h h' hc := by
    obtain ⟨hc', htokens⟩ := h hc
    obtain ⟨hc'', htokens'⟩ := h' hc'
    exact ⟨hc'', htokens.add htokens'⟩

section Scanned

variable {source : List Char} {s : Scanned} (hs : Scanned.ofSource source = .ok s) (hsource : ∀ c ∈ source, isMarker c = false)
  {c : Cursor} {n : Nat}

include hs hsource

/-- Without meeting a quote one stays outside. -/
theorem Unquoted.advance (hc : Unquoted (.ofScanned source s) s.tokens c) (hplain : ∀ ch ∈ c.rest.take n, isQuote ch = false) :
    Unquoted (.ofScanned source s) s.tokens (c.advance n) := by
  have hmarked := LaidOut.wellMarked_ofSource (LaidOut.ofSource_ok_iff.2 ⟨s, hs, rfl⟩)
  refine ⟨hc.1.ahead ⟨n, rfl⟩, fun t ht hquoted => ?_⟩
  obtain ⟨o, q, rest, hoffset, hq, hquote, hmem, -⟩ := LaidOut.exists_whole hs hsource ht hquoted
  rw [← hoffset]
  rcases hc.2 t ht hquoted with hbefore | hafter
  · left
    rw [← hoffset] at hbefore
    refine hmarked.sourceOffset_le (Nat.le_of_not_lt fun hlt => ?_)
    -- The first quote of the token would be one of the characters that were passed over.
    have hle : c.offset ≤ o := Nat.le_of_not_lt fun hlt => Nat.not_le_of_lt (hmarked.sourceOffset_lt hmem hlt) hbefore
    have hlt : o < c.offset + n := hlt
    have hmem : (c.rest.take n)[o - c.offset]? = some q := by
      rw [List.getElem?_take_of_lt (by omega), hc.1, List.getElem?_drop, Nat.add_sub_cancel' hle, hq]
    rw [hplain q (List.mem_of_getElem? hmem)] at hquote
    cases hquote
  · exact .inr (Nat.le_trans hafter (hmarked.sourceOffset_le (Nat.le_add_right _ _)))

/-- After a marker one is outside. -/
theorem unquoted_of_marker (hc : c.On (LaidOut.ofScanned source s).text) {m : Marker} (hn : (Lexeme.marker m).length? c.rest = some n) :
    Unquoted (.ofScanned source s) s.tokens (c.advance n) := by
  have hmarked := LaidOut.wellMarked_ofSource (LaidOut.ofSource_ok_iff.2 ⟨s, hs, rfl⟩)
  rw [Lexeme.length?_marker] at hn
  split at hn
  · next hhead =>
    cases hn
    rw [hc.head?] at hhead
    have hmem := (LaidOut.mem_markers_iff hs hsource hhead).2 (LaidOut.isMarker_char m)
    obtain ⟨k, i, hi, hoffset⟩ := LaidOut.exists_insertion hmem
    have hnext : (LaidOut.ofScanned source s).sourceOffset (c.advance 1).offset = i.1 := by
      rw [Cursor.advance, hmarked.sourceOffset_succ, if_pos hmem, hoffset]
      exact LaidOut.sourceOffset_insertion hs hi
    refine ⟨hc.ahead ⟨1, rfl⟩, fun t ht _ => ?_⟩
    rw [hnext]
    exact Scanned.insertions_outside hs ht i (List.mem_of_getElem? hi)
  · cases hn

/-- A string or a character that is read outside is a token, and after it one is outside again. -/
theorem read_quoted {lex : Lexeme} (hlex : lex = .string ∨ lex = .char) (hc : Unquoted (.ofScanned source s) s.tokens c)
    (hn : lex.length? c.rest = some n) :
    Unquoted (.ofScanned source s) s.tokens (c.advance n) ∧ ∃ t ∈ s.tokens, t.text.toList = c.rest.take n ∧
      lex.length? t.text.toList = some t.text.toList.length ∧
      (LaidOut.ofScanned source s).range c.offset (c.offset + n) = t.range (lineStarts source) := by
  obtain ⟨q, after, hrest, hquote⟩ := Lexeme.exists_quote hlex hn
  have hq : (LaidOut.ofScanned source s).text[c.offset]? = some q := by rw [← hc.1.head?, hrest]; rfl
  obtain ⟨t, ht, hquoted, ⟨hle, hlt⟩, hwhole⟩ := LaidOut.exists_token_of_quote hs hsource hq hquote
  have hstart : (LaidOut.ofScanned source s).sourceOffset c.offset = t.start := by
    rcases hc.2 t ht hquoted with hbefore | hafter
    · exact Nat.le_antisymm hbefore hle
    · exact absurd hlt (Nat.not_lt_of_le hafter)
  obtain ⟨rest, hdrop, hwhole⟩ := hwhole hstart
  have hcut : c.rest = t.text.toList ++ rest := hc.1.trans hdrop
  obtain ⟨hlength, rfl⟩ := hwhole.of_length? hlex (hcut ▸ hn)
  have hmarkers : ∀ ch ∈ t.text.toList, isMarker ch = false := Scanned.isMarker_words hs hsource t.word (List.mem_map_of_mem ht)
  have hstop := Scanned.length_token hs ht
  refine ⟨⟨hc.1.ahead ⟨_, rfl⟩, fun u hu _ => ?_⟩, t, ht, by rw [hcut, List.take_left], hlength, ?_⟩
  · have hnext := (LaidOut.sourceOffset_after_plain hs hsource hdrop hmarkers).2
    rw [hstart, hstop] at hnext
    rw [Cursor.advance, hnext]
    by_cases heq : t = u
    · exact .inr (heq ▸ Nat.le_refl _)
    · have := Scanned.token_bounds hs u hu
      rcases Scanned.disjoint_tokens hs ht hu heq with hbefore | hafter <;> omega
  · obtain ⟨first, hfirst, hfirstQuote⟩ := (Option.any_eq_true _ _).1 hquoted
    obtain ⟨last, hlast, hlastQuote⟩ := (Option.any_eq_true _ _).1 hwhole.last
    have hfiller : ∀ ch, isQuote ch = true → LaidOut.isFiller ch = false := by
      intro ch hch
      rw [LaidOut.isFiller, (isBlank_of_isQuote hch).1, (isBlank_of_isQuote hch).2]
      rfl
    rw [LaidOut.range_of_unmarked hs ⟨rest, hdrop.symm⟩ hmarkers hfirst hlast (hfiller _ hfirstQuote) (hfiller _ hlastQuote), hstart,
      hstop]
    rfl

/-- Plain words keep one outside. -/
theorem located_lexeme {lex : Lexeme} (hlex : lex.isPlain = true) (hn : lex.length? c.rest = some n) :
    Located source s c 0 (c.advance n) := by
  intro hc
  refine ⟨?_, .zero⟩
  rcases Lexeme.plain_cases hlex hn with rfl | hliteral | hsolid
  · refine hc.advance hs hsource fun ch hch => ?_
    by_contra hquote
    cases (isBlank_of_isQuote (by simpa using hquote)).1.symm.trans (isBlank_take_runLength c.rest ch hch)
  · exact (read_quoted hs hsource hliteral hc hn).1
  · exact hc.advance hs hsource fun ch hch => (isSolid_iff.1 (isSolid_take hsolid ch hch)).2.2

theorem located_map {lex : Lexeme} (hlex : lex.isPlain = true) {α : Type} {f : List Char → α}
    {call : (r : Rule) → Cursor → Outcome r.Sem} {c' : Cursor} {v : α}
    (h : (Peg.map f (.lexeme lex) : Phrase α).read call c = .ok v c') : Located source s c 0 c' := by
  obtain ⟨_, htext, -⟩ := Peg.read_node_ok.1 h
  obtain ⟨n, hn, -, rfl⟩ := Peg.read_lexeme_ok.1 htext
  exact located_lexeme hs hsource hlex hn

omit hsource in
/-- A token of a body between quotes is the literal that it denotes. -/
theorem isLiteral_of_enclose {t : Token} (ht : t ∈ s.tokens) {e : Enclosure} {body : List Char} (htext : t.text.toList = e.enclose body)
    (hline : e = .line → ¬ ['"', '"', '"'] <+: e.enclose body) :
    t.IsLiteral (lineStarts source) ⟨e.value t.text.toList, t.range (lineStarts source)⟩ := by
  obtain ⟨rest, hfirst⟩ := Scanned.firstPiece?_token hs ht
  rw [htext] at hfirst
  refine ⟨rfl, e, body, Enclosure.kind_of_token hfirst, htext, htext ▸ hline, ?_⟩
  rw [htext, Enclosure.value_enclose e body hline]

/-- Strings and characters that are read outside are tokens. -/
theorem located_quoted {call : (r : Rule) → Cursor → Outcome r.Sem} {c' : Cursor} {v : Literal}
    (h : (stringLiteral <|> charLiteral).read call c = .ok v c') :
    Located source s c (Weights.literals.pattern (.literal v ((LaidOut.ofScanned source s).range c.offset c'.offset))) c' := by
  intro hc
  have hread : ∀ {lex : Lexeme} {value : List Char → Literal}, lex = .string ∨ lex = .char →
      (∀ cs n, lex.length? cs = some n → ∃ (e : Enclosure) (body rest : List Char), e.value = value ∧ cs = e.enclose body ++ rest ∧
        n = (e.enclose body).length ∧ (e = .line → ¬ ['"', '"', '"'] <+: e.enclose body)) →
      (Peg.map value (.lexeme lex) : Phrase Literal).read call c = .ok v c' →
      Unquoted (.ofScanned source s) s.tokens c' ∧ Tokenized (lineStarts source) s.tokens
        (Weights.literals.pattern (.literal v ((LaidOut.ofScanned source s).range c.offset c'.offset))) := by
    intro lex value hlex henclosed h
    obtain ⟨_, htext, rfl⟩ := Peg.read_node_ok.1 h
    obtain ⟨n, hn, rfl, rfl⟩ := Peg.read_lexeme_ok.1 htext
    obtain ⟨hout, t, ht, htext, hlength, hrange⟩ := read_quoted hs hsource hlex hc hn
    obtain ⟨e, body, rest, rfl, hcut, hbody, hline⟩ := henclosed _ _ hlength
    obtain rfl : rest = [] := by
      have := congrArg List.length hcut
      rw [List.length_append] at this
      exact List.length_eq_zero_iff.1 (by omega)
    rw [List.append_nil] at hcut
    refine ⟨hout, .literal ht ?_⟩
    rw [← htext, Cursor.advance, hrange]
    exact isLiteral_of_enclose hs ht hcut hline
  rcases Peg.read_alt_ok.1 h with h | ⟨-, h⟩
  · refine hread (.inl rfl) (fun cs n hn => ?_) h
    obtain ⟨e, body, rest, hkind, hcut⟩ := exists_enclose_of_string hn
    refine ⟨e, body, rest, ?_, hcut⟩
    cases e with
    | line | block => rfl
    | char => cases hkind
  · refine hread (.inr rfl) (fun cs n hn => ?_) h
    obtain ⟨body, rest, hcut, hbody⟩ := exists_enclose_of_char hn
    exact ⟨.char, body, rest, rfl, hcut, hbody, fun hline => absurd hline (by decide)⟩

/-- Tokens account for the strings and characters that the rules of the grammar read. -/
theorem ledger_located : RuleLedger (.ofScanned source s) .literals (Located source s) where
  toAdditive := additive_located source s
  toLawful := Weights.lawful_literals
  lexeme _ hlex _ _ hn := located_lexeme hs hsource hlex hn
  marker _ _ _ hn hc := ⟨unquoted_of_marker hs hsource hc.1 hn, .zero⟩
  quoted _ _ _ _ _ h := located_quoted hs hsource h
  bare _ _ _ _ _ h := located_map hs hsource rfl h
  applied _ _ _ _ _ _ _ h _ harguments := (additive_located source s).trans (located_map hs hsource rfl h) harguments
  reference _ _ c v c' h := by
    obtain ⟨name, hname, rfl⟩ := Peg.read_node_ok.1 h
    obtain ⟨_, c₁, hkeyword, hpath⟩ := Peg.read_andThen_ok.1 hname
    obtain ⟨rfl, -⟩ := Peg.read_without_ok.1 hkeyword
    exact located_map hs hsource rfl hpath

/-! ## Items of the top level -/

section TopLevel

variable {call : (r : Rule) → Cursor → Outcome r.Sem} (hcall : Faithful (.ofScanned source s) .literals (Located source s) call)

include hcall

/-- The literals of an item that begins outside are tokens; a header may end anywhere. -/
theorem tokenized_topItem {c' : Cursor} {v : TopItem} (hc : Unquoted (.ofScanned source s) s.tokens c)
    (h : (topItem (LaidOut.ofScanned source s).range).read call c = .ok v c') :
    c'.On (LaidOut.ofScanned source s).text ∧ Tokenized (lineStarts source) s.tokens (Weights.literals.ofTopItem v) := by
  refine ⟨hc.1.ahead (Peg.read_ahead hcall.known.ahead _ h), ?_⟩
  rcases header_or_accounts (ledger_located hs hsource) hcall h with ⟨value, -, rfl⟩ | haccount
  · exact .zero
  · exact (haccount hc).2

/-- An item after a marker begins outside. -/
theorem accounts_nextItem : Accounts (fun c literals c' => c.On (LaidOut.ofScanned source s).text →
      c'.On (LaidOut.ofScanned source s).text ∧ Tokenized (lineStarts source) s.tokens literals) call
    ((gap *> marker .separating *> gap) *> topItem (LaidOut.ofScanned source s).range) Weights.literals.ofTopItem := by
  intro c v c' h hc
  obtain ⟨_, c₁, hseparator, hitem⟩ := Peg.read_andThen_ok.1 h
  obtain ⟨_, c₂, hmarker, hgap⟩ := Peg.read_andThen_ok.1 hseparator
  obtain ⟨_, c₃, hgap', hmarker⟩ := Peg.read_andThen_ok.1 hmarker
  obtain ⟨n, hn, -, rfl⟩ := Peg.read_lexeme_ok.1 hmarker
  have hout := unquoted_of_marker hs hsource (hc.ahead (Peg.read_ahead hcall.known.ahead _ hgap')) hn
  exact tokenized_topItem hs hsource hcall (silent (ledger_located hs hsource) hcall gap rfl _ _ _ hgap hout).1 hitem

/-- The literals of all items are tokens. -/
theorem tokenized_topLevel {items : List TopItem} {next : Cursor}
    (h : (topLevel (LaidOut.ofScanned source s).range).read call (.start (LaidOut.ofScanned source s).text) = .ok items next) :
    Tokenized (lineStarts source) s.tokens (items.map Weights.literals.ofTopItem).sum := by
  obtain ⟨value, hvalue, rfl⟩ := Peg.read_node_ok.1 h
  obtain ⟨_, c₁, hbody, -⟩ := Peg.read_andSkip_ok.1 hvalue
  obtain ⟨_, c₀, hgap, hopt⟩ := Peg.read_andThen_ok.1 hbody
  have hstart : Unquoted (.ofScanned source s) s.tokens (.start (LaidOut.ofScanned source s).text) :=
    ⟨Cursor.on_start _, fun t _ _ => .inl (Nat.le_trans (Nat.sub_le 0 _) (Nat.zero_le _))⟩
  have hout := (silent (ledger_located hs hsource) hcall gap rfl _ _ _ hgap hstart).1
  rcases Peg.read_opt_ok.1 hopt with ⟨items, rfl, hitems⟩ | ⟨rfl, -⟩
  · obtain ⟨⟨first, rest⟩, hboth, rfl⟩ := Peg.read_node_ok.1 hitems
    obtain ⟨c₂, hfirst, hrest⟩ := Peg.read_seq_ok.1 hboth
    obtain ⟨hon, hfirst⟩ := tokenized_topItem hs hsource hcall hout hfirst
    have hadditive : Additive fun c literals c' => c.On (LaidOut.ofScanned source s).text →
        c'.On (LaidOut.ofScanned source s).text ∧ Tokenized (lineStarts source) s.tokens literals := by
      refine ⟨fun c hc => ⟨hc, .zero⟩, fun h h' hc => ?_⟩
      obtain ⟨hc', htokens⟩ := h hc
      obtain ⟨hc'', htokens'⟩ := h' hc'
      exact ⟨hc'', htokens.add htokens'⟩
    have hmore := ((accounts_nextItem hs hsource hcall).many hadditive _ _ _ hrest hon).2
    exact (List.sum_cons (a := Weights.literals.ofTopItem first)).symm ▸ hfirst.add hmore
  · exact .zero

end TopLevel

end Scanned

end Grammar

/-! ## Modules -/

namespace Module

/-- **Every string and every character is a token.** In a source without marker characters that is read as a module, each string and each
character of the module, in an expression or in a pattern, has the range of exactly one token. The token is a body between the quotes
of its kind, and the literal is what the body denotes. No other token reaches into it, layout takes no notice of it, and no marker is
written inside it. -/
theorem literals_are_tokens {source file : String} {m : Module} (h : parse source file = .ok m)
    (hsource : ∀ c ∈ source.toList, isMarker c = false) :
    ∃ s, Scanned.ofSource source.toList = .ok s ∧ ∀ value r, value.isQuoted = true →
      (Expr.literal value r ∈ m.expressions ∨ Pattern.literal value r ∈ m.patterns) →
      ∃ (t : Token) (e : Enclosure) (body : List Char),
        s.tokens.filter (fun u => u.range (lineStarts source.toList) = r) = [t] ∧
        t.kind = e.kind ∧ t.text.toList = e.enclose body ∧ (e = .line → ¬ ['"', '"', '"'] <+: t.text.toList) ∧
        value = e.literal (Literal.unescape body) ∧
        (∀ u ∈ s.tokens, u ≠ t → u.stop ≤ t.start ∨ t.stop ≤ u.start) ∧
        (∀ state, Layout.delimit state t = ([], state)) ∧
        ∀ i ∈ Layout.insertions s.tokens, i.1 ≤ t.start ∨ t.stop ≤ i.1 := by
  obtain ⟨l, items, hlaid, hread, rfl, -⟩ := parse_ok_iff.1 h
  obtain ⟨next, hread, -⟩ := LaidOut.readPhrase_ok_iff.1 hread
  obtain ⟨s, hs, rfl⟩ := LaidOut.ofSource_ok_iff.1 hlaid
  have htokens := Grammar.tokenized_topLevel hs hsource (Grammar.faithful_run (Grammar.ledger_located hs hsource) _) hread
  rw [← Weights.ofModule_ofItems _ items (LaidOut.ofScanned source.toList s).comments file] at htokens
  refine ⟨s, hs, fun value r hvalue hmem => ?_⟩
  obtain ⟨t, ht, hrange, e, body, hkind, htext, hline, hliteral⟩ := htokens _ (Weights.mem_ofModule_literals hvalue hmem)
  have hfilter := Scanned.filter_range hs ht
  rw [hrange] at hfilter
  refine ⟨t, e, body, hfilter, hkind, htext, hline, hliteral, fun u hu hne => ?_, fun state => ?_, Scanned.insertions_outside hs ht⟩
  · exact Scanned.disjoint_tokens hs hu ht hne
  · rw [Layout.delimit, hkind]
    cases e <;> rfl

set_option maxRecDepth 100000 in
/-- A string with a keyword, a bracket, a comma and an escaped quote in it, before a double quote between apostrophes. -/
theorem literals_are_tokens_of_keywords :
    ∃ m s, parse "f c = case g \"of (, \\\"let\" of\n  '\"' -> \"\"\n" "A.elm" = .ok m ∧
      Scanned.ofSource "f c = case g \"of (, \\\"let\" of\n  '\"' -> \"\"\n".toList = .ok s ∧
      Expr.literal (.string [111, 102, 32, 40, 44, 32, 34, 108, 101, 116]) ⟨⟨1, 14⟩, ⟨1, 27⟩⟩ ∈ m.expressions ∧
      ∃ t, s.tokens.filter (fun u => u.range (lineStarts "f c = case g \"of (, \\\"let\" of\n  '\"' -> \"\"\n".toList) =
          ⟨⟨1, 14⟩, ⟨1, 27⟩⟩) = [t] ∧
        t.kind = .string ∧ (∀ state, Layout.delimit state t = ([], state)) ∧
        ∀ i ∈ Layout.insertions s.tokens, i.1 ≤ t.start ∨ t.stop ≤ i.1 := by
  obtain ⟨m, hm, htest⟩ := exists_parse_of_any "f c = case g \"of (, \\\"let\" of\n  '\"' -> \"\"\n" "A.elm"
    (fun m => m.expressions.any fun e => e.placedLiteral? ==
      some ⟨.string [111, 102, 32, 40, 44, 32, 34, 108, 101, 116], ⟨⟨1, 14⟩, ⟨1, 27⟩⟩⟩) (by decide +kernel)
  have hplain : ("f c = case g \"of (, \\\"let\" of\n  '\"' -> \"\"\n".toList.all fun c => !isMarker c) = true := by decide +kernel
  obtain ⟨s, hs, htokens⟩ := literals_are_tokens hm (by simpa using hplain)
  obtain ⟨e, he, hliteral⟩ := List.any_eq_true.1 htest
  have hmem : Expr.literal (.string [111, 102, 32, 40, 44, 32, 34, 108, 101, 116]) ⟨⟨1, 14⟩, ⟨1, 27⟩⟩ ∈ m.expressions := by
    cases e with
    | literal value r =>
      obtain ⟨rfl, rfl⟩ := PlacedLiteral.mk.inj (Option.some.inj (beq_iff_eq.1 hliteral))
      exact he
    | _ => cases hliteral
  obtain ⟨t, e, body, hfilter, hkind, -, -, hvalue, -, hdelimit, hinsertions⟩ := htokens _ _ rfl (.inl hmem)
  refine ⟨m, s, hm, hs, hmem, t, hfilter, ?_, hdelimit, hinsertions⟩
  cases e with
  | line | block => exact hkind
  | char => cases hvalue

end Module

end ElmLint
