import ElmLint.Proofs.LaidQuotes

/-!
# Tokens and comments partition the source

The pieces of a source stand one right after the other. Those that are tokens or comments tell their own text and place
(`Tiles.piece_of_token`, `Tiles.piece_of_comment`), and the others are blanks (`Tiles.cases_of_piece`). What is left of the source
in the scanned text is told character by character (`Tiles.getElem?_of_inSpan`).

* `Scanned.partitions_source`: the tokens and comments of a source divide it between them, up to blanks, and the scanned text is the
  source with its comments blanked out.
-/

namespace ElmLint

/-! ## Spans -/

/-- The offsets at which a token starts and just past which it ends. -/
def Token.span (t : Token) : Nat × Nat := (t.start, t.stop)

/-- The offsets that the range of a comment leads to. -/
def Comment.span (source : List Char) (c : Comment) : Nat × Nat :=
  (c.range.start.toOffset (lineStarts source), c.range.stop.toOffset (lineStarts source))

/-- The offsets at which a piece starts and just past which it ends. -/
def Piece.span (p : Piece) : Nat × Nat := (p.start, p.stop)

/-- The part of a text from the first to before the second offset of a span. -/
def spanned (text : List Char) (span : Nat × Nat) : List Char := (text.take span.2).drop span.1

/-- An offset is one of a span. -/
def InSpan (o : Nat) (span : Nat × Nat) : Prop := span.1 ≤ o ∧ o < span.2

instance (o : Nat) (span : Nat × Nat) : Decidable (InSpan o span) := inferInstanceAs (Decidable (_ ∧ _))

/-- A token is its piece, at its place. -/
theorem Piece.of_token? {starts : List Nat} {p : Piece} {t : Token} (h : p.token? starts = some t) :
    p.kind = .token t.kind ∧ t.text = String.ofList p.text ∧ t.span = p.span ∧
      (⟨t.line, t.column⟩ : Position) = Position.ofOffset starts p.start ∧
      t.endLine = (Position.ofOffset starts (p.stop - 1)).row := by
  unfold Piece.token? at h
  split at h
  · next kind hkind =>
    cases h
    exact ⟨hkind, rfl, rfl, rfl, rfl⟩
  · cases h

/-- A comment is its piece, at its place. -/
theorem Piece.of_comment? {source : List Char} {p : Piece} {c : Comment} (hlt : p.start < p.stop)
    (h : p.comment? (lineStarts source) = some c) :
    p.kind = .comment ∧ c.text = String.ofList p.text ∧ c.span source = p.span := by
  unfold Piece.comment? at h
  split at h
  · next hkind =>
    cases h
    refine ⟨hkind, rfl, Prod.ext (Position.toOffset_ofOffset source p.start) ?_⟩
    exact (Position.toOffset_next source _).trans (Nat.sub_add_cancel (Nat.one_le_of_lt hlt))
  · cases h

namespace Tiles

variable {ps : List Piece} {source : List Char}

/-- A piece is the part of the source that it spans. -/
theorem spanned_eq (h : Tiles 0 ps source) {p : Piece} (hp : p ∈ ps) : spanned source p.span = p.text := by
  obtain ⟨rest, hrest, -⟩ := h.cut p hp
  rw [spanned, Piece.span, List.drop_take, Piece.stop, Nat.add_sub_cancel_left]
  rw [Nat.sub_zero] at hrest
  rw [hrest, List.take_left]

/-- Two pieces do not overlap. -/
theorem disjoint (h : Tiles 0 ps source) {p q : Piece} (hp : p ∈ ps) (hq : q ∈ ps) (hne : p ≠ q) :
    p.stop ≤ q.start ∨ q.stop ≤ p.start := by
  have hsymm : Std.Symm fun p q : Piece => p.stop ≤ q.start ∨ q.stop ≤ p.start := ⟨fun _ _ => Or.symm⟩
  exact (h.pairwise.imp Or.inl : ps.Pairwise fun p q => p.stop ≤ q.start ∨ q.stop ≤ p.start).forall hp hq hne

/-- An offset lies in one piece only. -/
theorem eq_of_inSpan (h : Tiles 0 ps source) {p q : Piece} (hp : p ∈ ps) (hq : q ∈ ps) {o : Nat} (ho : InSpan o p.span)
    (ho' : InSpan o q.span) : p = q := by
  by_contra hne
  obtain ⟨hle, hlt⟩ : p.start ≤ o ∧ o < p.stop := ho
  obtain ⟨hle', hlt'⟩ : q.start ≤ o ∧ o < q.stop := ho'
  rcases h.disjoint hp hq hne with hbefore | hafter <;> omega

/-- Every character of the source lies in a piece. -/
theorem exists_inSpan (h : Tiles 0 ps source) {o : Nat} {ch : Char} (hch : source[o]? = some ch) : ∃ p ∈ ps, InSpan o p.span := by
  have hlt := (List.getElem?_eq_some_iff.1 hch).1
  exact h.exists_piece (Nat.zero_le o) (by omega)

/-- A character of a piece is a character of the source; in the scanned text it is blanked out if the piece is a comment. -/
theorem getElem?_of_inSpan (h : Tiles 0 ps source) {p : Piece} (hp : p ∈ ps) {o : Nat} (ho : InSpan o p.span) :
    source[o]? = p.text[o - p.start]? ∧
      (ps.flatMap Piece.visible)[o]? = if p.kind = .comment then source[o]?.map blanked else source[o]? := by
  obtain ⟨hle, hlt⟩ : p.start ≤ o ∧ o < p.stop := ho
  have hindex : o - p.start < p.text.length := by
    rw [Piece.stop] at hlt
    omega
  have hoffset : p.start - 0 + (o - p.start) = o := by omega
  obtain ⟨rest, hrest, -⟩ := h.cut p hp
  obtain ⟨rest', hrest'⟩ := h.visible_prefix p hp
  have hsource : source[o]? = p.text[o - p.start]? := by
    rw [← List.getElem?_append_left hindex, ← hrest, List.getElem?_drop, hoffset]
  have hindex' : o - p.start < p.visible.length := by rwa [length_visible]
  have htext : (ps.flatMap Piece.visible)[o]? = p.visible[o - p.start]? := by
    rw [← List.getElem?_append_left hindex', hrest', List.getElem?_drop, hoffset]
  refine ⟨hsource, ?_⟩
  rw [htext, hsource, Piece.visible]
  split
  · exact List.getElem?_map
  · rfl

/-- Blanking comments out keeps the lines. -/
theorem lineStarts_visible (h : Tiles 0 ps source) : lineStarts (ps.flatMap Piece.visible) = lineStarts source :=
  congrArg (0 :: ·) (lineStartsFrom_congr 0 h.map_visible)

/-- Every token is a piece. -/
theorem piece_of_token (h : Tiles 0 ps source) {t : Token} (ht : t ∈ ps.filterMap (Piece.token? (lineStarts source))) :
    ∃ p ∈ ps, p.kind = .token t.kind ∧ t.text.toList = p.text ∧ t.span = p.span ∧
      (⟨t.line, t.column⟩ : Position) = (source.take t.start).foldl Position.advance ⟨1, 1⟩ ∧
      t.endLine = ((source.take (t.stop - 1)).foldl Position.advance ⟨1, 1⟩).row := by
  obtain ⟨p, hp, hpt⟩ := List.mem_filterMap.1 ht
  obtain ⟨hkind, htext, hspan, hplace, hend⟩ := Piece.of_token? hpt
  obtain ⟨hstart, hstop⟩ := Prod.mk.inj hspan
  have hbounds := h.bounds p hp
  refine ⟨p, hp, hkind, by rw [htext, String.toList_ofList], hspan, ?_, ?_⟩
  · rw [hplace, hstart, Position.foldl_advance_take (by omega)]
  · rw [hend, hstop, Position.foldl_advance_take (by omega)]

/-- Every comment is a piece. -/
theorem piece_of_comment (h : Tiles 0 ps source) {c : Comment} (hc : c ∈ ps.filterMap (Piece.comment? (lineStarts source))) :
    ∃ p ∈ ps, p.kind = .comment ∧ c.text.toList = p.text ∧ c.span source = p.span := by
  obtain ⟨p, hp, hpc⟩ := List.mem_filterMap.1 hc
  obtain ⟨hkind, htext, hspan⟩ := Piece.of_comment? (h.bounds p hp).2.1 hpc
  exact ⟨p, hp, hkind, by rw [htext, String.toList_ofList], hspan⟩

/-- Every piece is a token, a comment or a run of blanks. -/
theorem cases_of_piece (h : Tiles 0 ps source) {p : Piece} (hp : p ∈ ps) :
    (∃ t ∈ ps.filterMap (Piece.token? (lineStarts source)), p.kind = .token t.kind ∧ t.text.toList = p.text ∧ t.span = p.span) ∨
    (p.kind = .comment ∧ ∃ c ∈ ps.filterMap (Piece.comment? (lineStarts source)),
      c.text.toList = p.text ∧ c.span source = p.span) ∨
    (p.kind = .blank ∧ ∀ ch ∈ p.text, isBlank ch = true) := by
  cases hkind : p.kind with
  | token kind =>
    obtain ⟨t, ht, rfl, -⟩ := Piece.token?_of_kind (lineStarts source) hkind
    obtain ⟨-, htext, hspan, -⟩ := Piece.of_token? ht
    exact .inl ⟨t, List.mem_filterMap.2 ⟨p, hp, ht⟩, rfl, by rw [htext, String.toList_ofList], hspan⟩
  | comment =>
    obtain ⟨c, hc⟩ : ∃ c, p.comment? (lineStarts source) = some c := ⟨_, if_pos hkind⟩
    obtain ⟨-, htext, hspan⟩ := Piece.of_comment? (h.bounds p hp).2.1 hc
    exact .inr (.inl ⟨rfl, c, List.mem_filterMap.2 ⟨p, hp, hc⟩, by rw [htext, String.toList_ofList], hspan⟩)
  | blank =>
    obtain ⟨rest, -, hfirst⟩ := h.cut p hp
    exact .inr (.inr ⟨rfl, isBlank_of_firstPiece? (hkind ▸ hfirst)⟩)

end Tiles

/-! ## Tokens and comments -/

namespace Scanned

section Facts

variable {source : List Char} {s : Scanned} (hs : ofSource source = .ok s)

include hs

/-- A comment has a character and lies inside the source. -/
theorem comment_bounds : ∀ c ∈ s.comments, (c.span source).1 < (c.span source).2 ∧ (c.span source).2 ≤ source.length := by
  obtain ⟨ps, htiles, rfl⟩ := ofSource_ok_iff.1 hs
  intro c hc
  obtain ⟨p, hp, -, -, hspan⟩ := htiles.piece_of_comment hc
  have hbounds := htiles.bounds p hp
  rw [hspan, Piece.span]
  exact ⟨hbounds.2.1, by omega⟩

/-- Each comment ends before the next ones start. -/
theorem pairwise_comments : s.comments.Pairwise fun c d => (c.span source).2 ≤ (d.span source).1 := by
  obtain ⟨ps, htiles, rfl⟩ := ofSource_ok_iff.1 hs
  refine List.pairwise_filterMap.2 (htiles.pairwise.imp_of_mem fun {p q} hp hq hle c hc d hd => ?_)
  rw [(Piece.of_comment? (htiles.bounds p hp).2.1 hc).2.2, (Piece.of_comment? (htiles.bounds q hq).2.1 hd).2.2]
  exact hle

/-- A token and a comment do not overlap. -/
theorem token_disjoint_comment : ∀ t ∈ s.tokens, ∀ c ∈ s.comments, t.stop ≤ (c.span source).1 ∨ (c.span source).2 ≤ t.start := by
  obtain ⟨ps, htiles, rfl⟩ := ofSource_ok_iff.1 hs
  intro t ht c hc
  obtain ⟨p, hp, hkind, -, hspan, -⟩ := htiles.piece_of_token ht
  obtain ⟨q, hq, hkind', -, hspan'⟩ := htiles.piece_of_comment hc
  obtain ⟨hstart, hstop⟩ := Prod.mk.inj hspan
  rw [hspan', hstart, hstop]
  refine htiles.disjoint hp hq ?_
  rintro rfl
  cases hkind.symm.trans hkind'

/-- A token has as many characters as its offsets tell. -/
theorem length_token {t : Token} (ht : t ∈ s.tokens) : t.start + t.text.toList.length = t.stop := by
  obtain ⟨ps, htiles, rfl⟩ := ofSource_ok_iff.1 hs
  obtain ⟨p, -, -, htext, hspan, -⟩ := htiles.piece_of_token ht
  obtain ⟨hstart, hstop⟩ := Prod.mk.inj hspan
  rw [hstart, hstop, htext, Piece.stop]

/-- A token is the first piece of the source where it starts. -/
theorem firstPiece?_token {t : Token} (ht : t ∈ s.tokens) :
    ∃ rest, firstPiece? (t.text.toList ++ rest) = some (.token t.kind, t.text.toList.length) := by
  obtain ⟨ps, htiles, rfl⟩ := ofSource_ok_iff.1 hs
  obtain ⟨p, hp, hkind, htext, -⟩ := htiles.piece_of_token ht
  obtain ⟨rest, -, hfirst⟩ := htiles.cut p hp
  exact ⟨rest, by rw [htext, hfirst, hkind]⟩

theorem disjoint_tokens {t u : Token} (ht : t ∈ s.tokens) (hu : u ∈ s.tokens) (hne : t ≠ u) :
    t.stop ≤ u.start ∨ u.stop ≤ t.start := by
  have hsymm : Std.Symm fun t u : Token => t.stop ≤ u.start ∨ u.stop ≤ t.start := ⟨fun _ _ => Or.symm⟩
  exact ((pairwise_tokens hs).imp Or.inl : s.tokens.Pairwise fun t u => t.stop ≤ u.start ∨ u.stop ≤ t.start).forall ht hu hne

/-- A token tells the part of the source that it spans, and where its first and its last character are. -/
theorem token_tells : ∀ t ∈ s.tokens, t.text.toList = spanned source t.span ∧
    (⟨t.line, t.column⟩ : Position) = (source.take t.start).foldl Position.advance ⟨1, 1⟩ ∧
    t.endLine = ((source.take (t.stop - 1)).foldl Position.advance ⟨1, 1⟩).row := by
  obtain ⟨ps, htiles, rfl⟩ := ofSource_ok_iff.1 hs
  intro t ht
  obtain ⟨p, hp, -, htext, hspan, hplace⟩ := htiles.piece_of_token ht
  exact ⟨by rw [htext, hspan, htiles.spanned_eq hp], hplace⟩

/-- A comment tells the part of the source that its range spans. -/
theorem comment_tells : ∀ c ∈ s.comments, c.text.toList = spanned source (c.span source) := by
  obtain ⟨ps, htiles, rfl⟩ := ofSource_ok_iff.1 hs
  intro c hc
  obtain ⟨p, hp, -, htext, hspan⟩ := htiles.piece_of_comment hc
  rw [htext, hspan, htiles.spanned_eq hp]

/-- What belongs to no token and no comment is blank. -/
theorem isBlank_between {o : Nat} {ch : Char} (hch : source[o]? = some ch) (htokens : ∀ t ∈ s.tokens, ¬ InSpan o t.span)
    (hcomments : ∀ c ∈ s.comments, ¬ InSpan o (c.span source)) : isBlank ch = true := by
  obtain ⟨ps, htiles, rfl⟩ := ofSource_ok_iff.1 hs
  obtain ⟨p, hp, ho⟩ := htiles.exists_inSpan hch
  rcases htiles.cases_of_piece hp with ⟨t, ht, -, -, hspan⟩ | ⟨-, c, hc, -, hspan⟩ | ⟨-, hblank⟩
  · exact absurd (hspan ▸ ho) (htokens t ht)
  · exact absurd (hspan ▸ ho) (hcomments c hc)
  · rw [(htiles.getElem?_of_inSpan hp ho).1] at hch
    exact hblank ch (List.mem_of_getElem? hch)

/-- In the scanned text, the characters of comments are blanked out. -/
theorem getElem?_text_of_comment {o : Nat} {c : Comment} (hc : c ∈ s.comments) (ho : InSpan o (c.span source)) :
    s.text[o]? = source[o]?.map blanked := by
  obtain ⟨ps, htiles, rfl⟩ := ofSource_ok_iff.1 hs
  obtain ⟨p, hp, hkind, -, hspan⟩ := htiles.piece_of_comment hc
  rw [hspan] at ho
  rw [(htiles.getElem?_of_inSpan hp ho).2, if_pos hkind]

/-- In the scanned text, the other characters are those of the source. -/
theorem getElem?_text_of_no_comment {o : Nat} (hnone : ∀ c ∈ s.comments, ¬ InSpan o (c.span source)) : s.text[o]? = source[o]? := by
  obtain ⟨ps, htiles, rfl⟩ := ofSource_ok_iff.1 hs
  cases hch : source[o]? with
  | none =>
    have hlength := length_text hs
    rw [List.getElem?_eq_none_iff] at hch ⊢
    omega
  | some ch =>
    obtain ⟨p, hp, ho⟩ := htiles.exists_inSpan hch
    rw [(htiles.getElem?_of_inSpan hp ho).2, hch, if_neg]
    intro hkind
    rcases htiles.cases_of_piece hp with ⟨t, -, hkind', -⟩ | ⟨-, c, hc, -, hspan⟩ | ⟨hkind', -⟩
    · cases hkind.symm.trans hkind'
    · exact hnone c hc (hspan ▸ ho)
    · cases hkind.symm.trans hkind'

end Facts

/-- Tokens and comments that divide a source between them. All of them have a character, they ascend and do not overlap, and
between them there are blanks only. A token tells the part of the source that it spans, the position of its first character and
the row of its last, a position being told by the characters before it; a comment tells the part that its range spans. The scanned text is
the source with every character of a comment but the line feeds turned into a space. -/
structure Partitions (source : List Char) (s : Scanned) : Prop where
  token_bounds : ∀ t ∈ s.tokens, t.start < t.stop ∧ t.stop ≤ source.length
  comment_bounds : ∀ c ∈ s.comments, (c.span source).1 < (c.span source).2 ∧ (c.span source).2 ≤ source.length
  tokens_ascend : s.tokens.Pairwise fun t u => t.stop ≤ u.start
  comments_ascend : s.comments.Pairwise fun c d => (c.span source).2 ≤ (d.span source).1
  disjoint : ∀ t ∈ s.tokens, ∀ c ∈ s.comments, t.stop ≤ (c.span source).1 ∨ (c.span source).2 ≤ t.start
  blank_between : ∀ o ch, source[o]? = some ch → (∀ t ∈ s.tokens, ¬ InSpan o t.span) →
    (∀ c ∈ s.comments, ¬ InSpan o (c.span source)) → ch ∈ [' ', '\t', '\r', '\n']
  token_text : ∀ t ∈ s.tokens, t.text.toList = spanned source t.span
  token_place : ∀ t ∈ s.tokens, ⟨t.line, t.column⟩ = (source.take t.start).foldl Position.advance ⟨1, 1⟩
  token_end : ∀ t ∈ s.tokens, t.endLine = ((source.take (t.stop - 1)).foldl Position.advance ⟨1, 1⟩).row
  comment_text : ∀ c ∈ s.comments, c.text.toList = spanned source (c.span source)
  length_text : s.text.length = source.length
  text_blanked : ∀ o ch, source[o]? = some ch → ch ≠ '\n' → (∃ c ∈ s.comments, InSpan o (c.span source)) →
    s.text[o]? = some ' '
  text_kept : ∀ o ch, source[o]? = some ch → (ch = '\n' ∨ ∀ c ∈ s.comments, ¬ InSpan o (c.span source)) →
    s.text[o]? = some ch
  lineStarts_text : lineStarts s.text = lineStarts source

variable {source : List Char} {s : Scanned}

/-- **The tokens and comments of a source divide it between them, up to blanks**, and the scanned text is the source with its
comments blanked out. -/
theorem partitions_source (hs : ofSource source = .ok s) : s.Partitions source := by
  constructor
  case token_bounds => exact token_bounds hs
  case comment_bounds => exact comment_bounds hs
  case tokens_ascend => exact pairwise_tokens hs
  case comments_ascend => exact pairwise_comments hs
  case disjoint => exact token_disjoint_comment hs
  case blank_between =>
    intro o ch hch htokens hcomments
    simpa [isBlank, or_assoc] using isBlank_between hs hch htokens hcomments
  case token_text => exact fun t ht => (token_tells hs t ht).1
  case token_place => exact fun t ht => (token_tells hs t ht).2.1
  case token_end => exact fun t ht => (token_tells hs t ht).2.2
  case comment_text => exact comment_tells hs
  case length_text => exact length_text hs
  case text_blanked =>
    rintro o ch hch hne ⟨c, hc, ho⟩
    rw [getElem?_text_of_comment hs hc ho, hch]
    exact congrArg some (if_neg (by simpa using hne))
  case text_kept =>
    intro o ch hch hkept
    by_cases hin : ∃ c ∈ s.comments, InSpan o (c.span source)
    · obtain ⟨c, hc, ho⟩ := hin
      obtain rfl := hkept.resolve_right fun hnone => hnone c hc ho
      rw [getElem?_text_of_comment hs hc ho, hch]
      rfl
    · rw [getElem?_text_of_no_comment hs fun c hc ho => hin ⟨c, hc, ho⟩, hch]
  case lineStarts_text =>
    obtain ⟨ps, htiles, htext, -⟩ := exists_tiles hs
    rw [htext, htiles.lineStarts_visible]

/-- A comment in a comment, a string over two lines, a quote that is left open and a comment up to the end. -/
theorem partitions_source_quotes : ∃ s, ofSource "a\x7b-\x7b--\x7d\n-\x7d=\"\"\"-- \n\"\"\"'\t--b".toList = .ok s ∧
    s.tokens.map (·.endLine) = [1, 2, 3, 3] ∧ s.comments.length = 2 ∧
    s.Partitions "a\x7b-\x7b--\x7d\n-\x7d=\"\"\"-- \n\"\"\"'\t--b".toList := by
  have hs : ∃ s, ofSource "a\x7b-\x7b--\x7d\n-\x7d=\"\"\"-- \n\"\"\"'\t--b".toList = .ok s ∧
      s.tokens.map (·.endLine) = [1, 2, 3, 3] ∧ s.comments.length = 2 := ⟨_, rfl, by decide, by decide⟩
  obtain ⟨s, hs, hends, hcomments⟩ := hs
  exact ⟨s, hs, hends, hcomments, partitions_source hs⟩

end Scanned

end ElmLint
