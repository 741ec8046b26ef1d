import ElmLint.Proofs.BlockMarkers
import ElmLint.Proofs.Insertions
import ElmLint.Proofs.Partition

/-!
# Where the grammar stops there is text

When the grammar stops before the end of a laid-out text it has passed over the blanks, so it stops before a character of the source or
before a marker. A marker that stands before a token leads to the first character of the token. Only the markers after the last token
lead to no character, and all of them close blocks. Whatever items were read, as many blocks were opened in them as were closed, and the
whole text opens as many as it closes; so what is left does, too (`Grammar.count_rest`). But after the last token nothing is opened any
more (`LaidOut.AfterTokens.not_opening`).

* `Module.unparsed_at_text`: a source that stops the grammar is reported at a character that is no blank and belongs to no comment.
-/

namespace ElmLint

/-! ## Places in a scanned source -/

/-- A position is that of a character of the source, outside all comments, that is no blank: no space, tab, carriage return or line
feed. -/
def Scanned.HasTextAt (source : List Char) (s : Scanned) (p : Position) : Prop :=
  ∃ k c, source[k]? = some c ∧ isBlank c = false ∧ (∀ comment ∈ s.comments, ¬ InSpan k (comment.span source)) ∧
    p = (source.take k).foldl Position.advance ⟨1, 1⟩

namespace LaidOut

variable {source : List Char} {s : Scanned} (hs : Scanned.ofSource source = .ok s) {o : Nat} {c : Char}

/-- The position of an offset is that of the character at its source offset. -/
theorem position_ofScanned (h : (ofScanned source s).sourceOffset o < source.length) : (ofScanned source s).position o =
    (source.take ((ofScanned source s).sourceOffset o)).foldl Position.advance ⟨1, 1⟩ := by
  have hmin : min ((ofScanned source s).sourceOffset o) (source.length - 1) = (ofScanned source s).sourceOffset o := by omega
  rw [Position.foldl_advance_take (Nat.le_of_lt h)]
  exact congrArg (Position.ofOffset (lineStarts source)) hmin

include hs

/-- What is no blank and no marker of the layout is text of the source. -/
theorem hasTextAt_of_unmarked (hc : (ofScanned source s).text[o]? = some c) (hblank : isBlank c = false)
    (ho : o ∉ (ofScanned source s).markers) : s.HasTextAt source ((ofScanned source s).position o) := by
  rcases getElem?_sourceOffset hs hc with ⟨hmem, -⟩ | ⟨-, hscanned⟩
  · exact absurd hmem ho
  · have hoff : ∀ comment ∈ s.comments, ¬ InSpan ((ofScanned source s).sourceOffset o) (comment.span source) := by
      intro comment hcomment hin
      rw [Scanned.getElem?_text_of_comment hs hcomment hin] at hscanned
      obtain ⟨d, -, rfl⟩ := Option.map_eq_some_iff.1 hscanned
      rcases blanked_cases d with hd | ⟨-, hd⟩ <;> rw [hd] at hblank <;> cases hblank
    rw [Scanned.getElem?_text_of_no_comment hs hoff] at hscanned
    have hlt := (List.getElem?_eq_some_iff.1 hscanned).1
    exact ⟨_, c, hscanned, hblank, hoff, position_ofScanned hlt⟩

/-- A marker before a token leads to the token. -/
theorem hasTextAt_of_beforeToken (h : (ofScanned source s).BeforeToken s.tokens o) :
    s.HasTextAt source ((ofScanned source s).position o) := by
  obtain ⟨t, ht, hoffset, -⟩ := h
  have hbounds := Scanned.token_bounds hs t ht
  have hoff : ∀ comment ∈ s.comments, ¬ InSpan t.start (comment.span source) := by
    rintro comment hcomment ⟨hle, hlt⟩
    rcases Scanned.token_disjoint_comment hs t ht comment hcomment with hdisjoint | hdisjoint <;> omega
  have hfirst : source[t.start]? = t.text.toList.head? := by
    rw [← Scanned.getElem?_text_of_no_comment hs hoff, Scanned.getElem?_start hs ht]
  obtain ⟨c, hc⟩ : ∃ c, source[t.start]? = some c := ⟨_, List.getElem?_eq_getElem (by omega)⟩
  obtain ⟨rest, hpiece⟩ := Scanned.firstPiece?_token hs ht
  have hblank : isBlank c = false := isBlank_of_token hpiece c (by rw [← hfirst, hc]; rfl)
  have hlt : (ofScanned source s).sourceOffset o < source.length := by omega
  exact ⟨t.start, c, hc, hblank, hoff, hoffset ▸ position_ofScanned hlt⟩

/-- After the last token no block opens any more. -/
theorem AfterTokens.not_opening (hsource : ∀ c ∈ source, isMarker c = false)
    (h : (ofScanned source s).AfterTokens s.tokens o) {o' : Nat} (hle : o ≤ o') :
    (ofScanned source s).text[o']? ≠ some Marker.opening.char := by
  intro hopening
  obtain ⟨-, last, hlast, hstop, -⟩ := h
  have hmarked := wellMarked_ofSource (ofSource_ok_iff.2 ⟨s, hs, rfl⟩)
  have hmem := (mem_markers_iff hs hsource hopening).2 (isMarker_char _)
  rcases beforeToken_or_afterTokens hs hmem with ⟨t, ht, hstart, -⟩ | ⟨hclosing, -⟩
  · -- The token would begin before the last one ends.
    have hoffset := hmarked.sourceOffset_le hle
    have hbounds := Scanned.token_bounds hs t ht
    obtain ⟨before, hbefore⟩ := List.getLast?_eq_some_iff.1 hlast
    have hpairwise := Scanned.pairwise_tokens hs
    rw [hbefore] at ht hpairwise
    rcases List.mem_append.1 ht with ht | ht
    · have hlastBounds := Scanned.token_bounds hs last (List.mem_of_getLast? hlast)
      have := (List.pairwise_append.1 hpairwise).2.2 t ht last (List.mem_singleton_self _)
      omega
    · obtain rfl := List.mem_singleton.1 ht
      omega
  · rw [hopening] at hclosing
    exact absurd (Marker.char_injective (Option.some.inj hclosing)) (by decide)

/-- A laid-out text opens as many blocks as it closes. -/
theorem count_opening_eq (hsource : ∀ c ∈ source, isMarker c = false) :
    (ofScanned source s).text.count Marker.opening.char = (ofScanned source s).text.count Marker.closing.char := by
  have hcount := (Layout.nests_insertions s.tokens).count_eq
  rw [Nat.zero_add, Nat.zero_add, List.count, List.count, List.countP_map, List.countP_map] at hcount
  rw [Scanned.count_char hs hsource, Scanned.count_char hs hsource]
  refine Eq.trans ?_ (hcount.trans ?_) <;> exact List.countP_congr fun i _ => by simp

end LaidOut

/-! ## What is left -/

namespace Grammar

variable {source : List Char} {s : Scanned}

/-- Where the grammar stops, as many blocks are still to be opened as to be closed. -/
theorem count_rest (hs : Scanned.ofSource source = .ok s) (hsource : ∀ c ∈ source, isMarker c = false)
    (hwhere : (.name, "where".toList) ∉ s.tokens.map Token.word) {items : List TopItem} {next : Cursor}
    (h : readText (LaidOut.ofScanned source s).range (topLevel (LaidOut.ofScanned source s).range)
      (LaidOut.ofScanned source s).text = .ok items next) :
    next.rest.count Marker.opening.char = next.rest.count Marker.closing.char := by
  have hread : ∀ m : Marker, m ≠ .separating → (LaidOut.ofScanned source s).text.count m.char =
      (items.map (Weights.blocks m).ofTopItem).sum + next.rest.count m.char := by
    intro m hm
    have hledger := ledger_kept (l := LaidOut.ofScanned source s) hm (Scanned.isMarker_words hs hsource) hwhere
    exact (accounts_readText hledger h ⟨_, LaidOut.renders hs⟩).2
  have hopening := hread .opening (by decide)
  have hclosing := hread .closing (by decide)
  have htext := LaidOut.count_opening_eq hs hsource
  have hweight : (items.map (Weights.blocks .opening).ofTopItem).sum = (items.map (Weights.blocks .closing).ofTopItem).sum := rfl
  omega

/-- The grammar stops before no blank. -/
theorem isBlank_next {locate : Locate} {text : List Char} {items : List TopItem} {next : Cursor}
    (h : readText locate (topLevel locate) text = .ok items next) : ∀ c ∈ next.rest.head?, isBlank c = false := by
  obtain ⟨_, hboth, -⟩ := Peg.read_node_ok.1 h
  obtain ⟨_, c₁, -, hgap⟩ := Peg.read_andSkip_ok.1 hboth
  obtain ⟨n, hn, -, rfl⟩ := Peg.read_lexeme_ok.1 hgap
  obtain rfl : runLength isBlank c₁.rest = n := Option.some.inj hn
  intro c hc
  rw [Cursor.advance, drop_runLength] at hc
  have hnot := List.head?_dropWhile_not isBlank c₁.rest
  rw [Option.mem_def.1 hc] at hnot
  exact hnot

end Grammar

/-! ## Main result -/

namespace Module

/-- **Where the grammar stops there is text.** A source without marker characters and without the name `where` that is not read to its
end is reported at the row and column of one of its characters, which is no blank and belongs to no comment. -/
theorem unparsed_at_text {source file : String} {s : Scanned} {error : ParseError} {failure : Failure}
    (hs : Scanned.ofSource source.toList = .ok s) (hmarkers : ∀ c ∈ source.toList, isMarker c = false)
    (hwhere : ∀ t ∈ s.tokens, t.kind = .name → t.text ≠ "where") (hparse : parse source file = .error error)
    (hreport : error.report file = .ok failure) (hcode : failure.code = .incompleteParse) :
    ∃ p, s.HasTextAt source.toList p ∧ failure.span = ⟨file, p.row, p.column⟩ := by
  rcases parse_cases source file with ⟨m, hm, -⟩ | ⟨position, hopen, -⟩ | ⟨l, items, next, hlaid, hread, hrest, hstop, -⟩ |
    ⟨e, hliteral, -⟩
  · cases hm.symm.trans hparse
  · obtain rfl := Except.error.inj (hopen.symm.trans hparse)
    obtain rfl := Except.ok.inj hreport
    cases hcode
  · obtain rfl := Except.error.inj (hstop.symm.trans hparse)
    obtain rfl := Except.ok.inj hreport
    refine ⟨l.position next.offset, ?_, rfl⟩
    obtain ⟨s', hs', rfl⟩ := LaidOut.ofSource_ok_iff.1 hlaid
    obtain rfl := Except.ok.inj (hs.symm.trans hs')
    obtain ⟨c, cs, hcs⟩ := List.exists_cons_of_ne_nil hrest
    have hon : next.On (LaidOut.ofScanned source.toList s).text :=
      (Cursor.on_start _).ahead (Peg.read_ahead (Peg.run_ahead _) _ hread)
    have hc : (LaidOut.ofScanned source.toList s).text[next.offset]? = some c := by rw [← hon.head?, hcs]; rfl
    have hblank : isBlank c = false := Grammar.isBlank_next hread c (by rw [hcs]; rfl)
    by_cases hmarker : next.offset ∈ (LaidOut.ofScanned source.toList s).markers
    · rcases LaidOut.beforeToken_or_afterTokens hs hmarker with hbefore | hafter
      · exact LaidOut.hasTextAt_of_beforeToken hs hbefore
      · -- What is left closes a block and opens none.
        have hcount := Grammar.count_rest hs hmarkers (Scanned.name_notMem hwhere) hread
        have hopening : next.rest.count Marker.opening.char = 0 := by
          refine List.count_eq_zero.2 fun hmem => ?_
          obtain ⟨i, hi⟩ := List.mem_iff_getElem?.1 hmem
          rw [hon, List.getElem?_drop] at hi
          exact hafter.not_opening hs hmarkers (Nat.le_add_right _ i) hi
        have hclosing : c = Marker.closing.char := Option.some.inj (hc.symm.trans hafter.1)
        rw [hopening, hcs, hclosing, List.count_cons_self] at hcount
        cases hcount
    · exact LaidOut.hasTextAt_of_unmarked hs hc hblank hmarker
  · obtain rfl := Except.error.inj (hliteral.symm.trans hparse)
    cases hreport

set_option maxRecDepth 100000 in
/-- A declaration without a body is not read, and the separating marker before it leads to its name. -/
theorem unparsed_at_text_of_bodiless :
    ∃ s error failure, Scanned.ofSource "x = 1\ny = \n".toList = .ok s ∧ parse "x = 1\ny = \n" "Bad.elm" = .error error ∧
      error.report "Bad.elm" = .ok failure ∧ failure.span = ⟨"Bad.elm", 2, 1⟩ ∧ s.HasTextAt "x = 1\ny = \n".toList ⟨2, 1⟩ := by
  obtain ⟨s, hs, htest⟩ := exists_ok_of_any (Scanned.ofSource "x = 1\ny = \n".toList)
    (fun s => decide (∀ t ∈ s.tokens, t.kind = .name → t.text ≠ "where")) (by decide +kernel)
  have hstop : parse "x = 1\ny = \n" "Bad.elm" = .error (.unparsed ⟨2, 1⟩) := by
    have hfound : (match parse "x = 1\ny = \n" "Bad.elm" with
        | .error error => decide (error = .unparsed ⟨2, 1⟩)
        | .ok _ => false) = true := by decide +kernel
    split at hfound
    · next error herror => rw [herror, of_decide_eq_true hfound]
    · cases hfound
  have hmarkers : ("x = 1\ny = \n".toList.all fun c => !isMarker c) = true := by decide +kernel
  obtain ⟨p, htext, hspan⟩ := unparsed_at_text hs (by simpa using hmarkers) (of_decide_eq_true htest) hstop rfl rfl
  obtain ⟨row, column⟩ := p
  simp only [Span.mk.injEq, true_and, Int.ofNat_inj] at hspan
  obtain ⟨rfl, rfl⟩ := hspan
  exact ⟨s, _, _, hs, hstop, rfl, rfl, htext⟩

end Module

end ElmLint
