import ElmLint.Proofs.LaidExprs
import ElmLint.Proofs.WrittenExprs

/-!
# The laid-out text of a rendering

A source of words and gaps is cut into the tokens of its words, and its laid-out text has the words and the markers that layout gives
(`exists_flush_words`). The proof goes from word to word: `exists_laid_word` lays out the tokens of one word, `exists_after_runWords` all
that comes after a word. So it is with the source that an expression is rendered as (`exists_flush_render`).
-/

namespace ElmLint

/-! ## Places in a line -/

theorem Position.foldl_advance_of_notMem {part : List Char} (h : '\n' ∉ part) (place : Position) :
    part.foldl advance place = ⟨place.row, place.column + part.length⟩ := by
  induction part generalizing place with
  | nil => rfl
  | cons c part ih =>
    rw [List.mem_cons, not_or] at h
    rw [List.foldl_cons, ih h.2, advance, if_neg (by simpa using Ne.symm h.1), next, List.length_cons, Nat.add_assoc,
      Nat.add_comm 1]

/-- Offsets in a part of the source without a line break are in one line. -/
theorem Position.ofOffset_of_notMem {source part rest : List Char} {offset : Nat} (hsource : source.drop offset = part ++ rest)
    (h : '\n' ∉ part) : ofOffset (lineStarts source) (offset + part.length) =
      ⟨(ofOffset (lineStarts source) offset).row, (ofOffset (lineStarts source) offset).column + part.length⟩ := by
  rw [← foldl_advance hsource, foldl_advance_of_notMem h]

/-- The place after a gap. -/
theorem Gap.foldl_advance (gap : Gap) (place : Position) : gap.text.foldl Position.advance place = gap.place place := by
  cases gap with
  | line indent =>
    have hblanks : '\n' ∉ List.replicate indent ' ' := fun hmem => absurd (List.eq_of_mem_replicate hmem) (by decide)
    rw [text, List.foldl_cons, Position.foldl_advance_of_notMem hblanks]
    simp [Position.advance, Gap.place, Nat.add_comm]
  | blank => rfl

namespace Layout

/-! ## The tokens of a word -/

section Tokens

variable {source : List Char} {offset : Nat} {text rest : List Char}

/-- The token of a piece in one line. -/
theorem token?_of_notMem (kind : Token.Kind) (hsource : source.drop offset = text ++ rest) (htext : text ≠ []) (hline : '\n' ∉ text) :
    ∃ t, Piece.token? (lineStarts source) ⟨.token kind, offset, text⟩ = some t ∧
      t.unplaced = { tokenOf kind text with
        line := (Position.ofOffset (lineStarts source) offset).row
        column := (Position.ofOffset (lineStarts source) offset).column
        endLine := (Position.ofOffset (lineStarts source) offset).row } := by
  refine ⟨_, rfl, ?_⟩
  have hsplit : source.drop offset = text.dropLast ++ ([text.getLast htext] ++ rest) := by
    rw [← List.append_assoc, List.dropLast_append_getLast, hsource]
  have hlast := Position.ofOffset_of_notMem hsplit fun hmem => hline ((List.dropLast_prefix text).subset hmem)
  have hpos := List.length_pos_iff.2 htext
  have hstop : offset + text.length - 1 = offset + text.dropLast.length := by
    rw [List.length_dropLast]
    omega
  have hrow : rowOf (lineStarts source) (offset + text.length - 1) = (Position.ofOffset (lineStarts source) offset).row := by
    rw [hstop]
    exact congrArg Position.row hlast
  simp only [Token.unplaced, tokenOf, Piece.stop, hrow]

/-- Offsets mean nothing to layout. -/
theorem step_unplaced (s : State) (t : Token) : step s t.unplaced = step s t := rfl

/-- A token that means nothing to layout changes nothing on the line of the last one. -/
theorem step_of_isPlain {s : State} {t : Token} (hplain : t.isPlain = true) (hend : t.endLine = t.line) (hpending : s.pending = none)
    (hprevious : s.previousLine = some t.line) : step s t = ([], s) := by
  have hsame : { s with previousLine := some t.endLine } = s := by rw [hend, ← hprevious]
  have hindent := indent_inline hpending hprevious (t := t) (fun hstarts => hstarts rfl)
  rw [hsame] at hindent
  exact step_eq hindent (delimit_plain hplain)

/-- After a token that means nothing to layout no block opens. -/
theorem pending_of_isPlain (s : State) {t : Token} (hplain : t.isPlain = true) : (step s t).2.pending = none := by
  have hstep : step s t = ((indent s t).1, (indent s t).2) := step_eq rfl (delimit_plain hplain)
  rw [hstep]
  exact (indent_state s t).2

theorem laidAfter_token {starts : List Nat} {p : Piece} {t : Token} (ht : p.token? starts = some t) (s : State) (ps : List Piece) :
    laidAfter starts s (p :: ps) = laid starts s (p :: ps) := by
  rw [laidAfter, List.filterMap_cons_some ht]
  rfl

/-- Tokens that mean nothing to layout are laid out as they are, after a token on the same line. -/
theorem exists_laid_mute (hmute : Mute text) : ∀ {offset : Nat} {ps : List Piece}, source.drop offset = text ++ rest →
    '\n' ∉ text → (∀ c ∈ rest.head?, LaidOut.isFiller c = true) → Tiles (offset + text.length) ps rest →
    ∃ qs, Tiles offset qs (text ++ rest) ∧ ∀ s : State,
      (text ≠ [] → s.pending = none ∧ s.previousLine = some (Position.ofOffset (lineStarts source) offset).row) →
      laidAfter (lineStarts source) s qs = text ++ laidAfter (lineStarts source) s ps := by
  induction hmute with
  | nil => exact fun {_ ps} _ _ _ htail => ⟨ps, htail, fun _ _ => rfl⟩
  | @cons kind text next hoff hplain _ ih =>
    intro offset ps hsource hline hrest htail
    rw [List.append_assoc] at hsource
    rw [List.mem_append, not_or] at hline
    rw [List.length_append, ← Nat.add_assoc] at htail
    have hnext : source.drop (offset + text.length) = next ++ rest := by rw [← List.drop_drop, hsource, List.drop_left]
    obtain ⟨qs, htiles, hlaid⟩ := ih hnext hline.2 hrest htail
    obtain ⟨t, ht, hplace⟩ := token?_of_notMem kind hsource hoff.1 hline.1
    refine ⟨⟨.token kind, offset, text⟩ :: qs, ?_, fun s hs => ?_⟩
    · rw [List.append_assoc]
      exact .cons rfl hoff.1 (hoff.2 rest hrest) htiles
    · obtain ⟨hpending, hprevious⟩ := hs (List.append_ne_nil_of_left_ne_nil hoff.1 next)
      have hstep : step s t = ([], s) := by
        rw [← step_unplaced, hplace]
        exact step_of_isPlain hplain rfl hpending hprevious
      have hrow := congrArg Position.row (Position.ofOffset_of_notMem hsource hline.1)
      have hafter := hlaid s fun _ => ⟨hpending, hprevious.trans (congrArg some hrow.symm)⟩
      rw [laidAfter_token ht, laid_token ht, hstep, hafter, List.append_assoc]
      rfl

/-- A word is laid out after the markers that its first token gives. -/
theorem exists_laid_word {w : List Char} (hw : IsWord w) {ps : List Piece} (hsource : source.drop offset = w ++ rest)
    (hrest : ∀ c ∈ rest.head?, LaidOut.isFiller c = true) (htail : Tiles (offset + w.length) ps rest) :
    ∃ qs, Tiles offset qs (w ++ rest) ∧ qs.filterMap (Piece.token? (lineStarts source)) ≠ [] ∧ ∀ s : State,
      laid (lineStarts source) s qs =
        (step s (tokenAt (Position.ofOffset (lineStarts source) offset) w)).1.map Marker.char ++
          (w ++ laidAfter (lineStarts source) (step s (tokenAt (Position.ofOffset (lineStarts source) offset) w)).2 ps) := by
  obtain ⟨kind, text, next, rfl, hoff, hmute, hplain⟩ := hw.exists_cut
  have hline := hw.oneLine
  rw [List.append_assoc] at hsource
  rw [List.mem_append, not_or] at hline
  rw [List.length_append, ← Nat.add_assoc] at htail
  have hnext : source.drop (offset + text.length) = next ++ rest := by rw [← List.drop_drop, hsource, List.drop_left]
  obtain ⟨qs, htiles, hlaid⟩ := exists_laid_mute hmute hnext hline.2 hrest htail
  obtain ⟨t, ht, hplace⟩ := token?_of_notMem kind hsource hoff.1 hline.1
  refine ⟨⟨.token kind, offset, text⟩ :: qs, ?_, ?_, fun s => ?_⟩
  · rw [List.append_assoc]
    exact .cons rfl hoff.1 (hoff.2 rest hrest) htiles
  · rw [List.filterMap_cons_some ht]
    exact List.cons_ne_nil _ _
  · have hstep : step s (tokenAt (Position.ofOffset (lineStarts source) offset) (text ++ next)) = step s t := by
      rw [← step_unplaced s t, hplace, tokenAt, hoff.headToken_eq]
    have hafter : laidAfter (lineStarts source) (step s t).2 qs = next ++ laidAfter (lineStarts source) (step s t).2 ps := by
      refine hlaid _ fun hne => ⟨?_, ?_⟩
      · rw [← step_unplaced, hplace]
        exact pending_of_isPlain s (hplain.resolve_left hne)
      · have hrow := congrArg Position.row (Position.ofOffset_of_notMem hsource hline.1)
        rw [(step_state s t).1]
        exact congrArg some ((congrArg Token.endLine hplace).trans hrow.symm)
    rw [hstep, laid_token ht, hafter, List.append_assoc]

end Tokens

/-! ## Words and gaps -/

theorem isBlank_gap (gap : Gap) : ∀ c ∈ gap.text, isBlank c = true := by
  cases gap with
  | line indent =>
    refine List.forall_mem_cons.2 ⟨rfl, fun c hc => ?_⟩
    rw [List.eq_of_mem_replicate hc]
    rfl
  | blank => exact List.forall_mem_singleton.2 rfl

theorem gap_ne_nil (gap : Gap) : gap.text ≠ [] := by cases gap <;> exact List.cons_ne_nil _ _

/-- A gap before a word is a piece of blanks. -/
theorem firstPiece?_gap (gap : Gap) {cs : List Char} (hcs : ∀ c ∈ cs.head?, isBlank c = false) :
    firstPiece? (gap.text ++ cs) = some (.blank, gap.text.length) :=
  firstPiece?_blanks (gap_ne_nil gap) (isBlank_gap gap) hcs

theorem isFiller_head?_gap (gap : Gap) (cs : List Char) : ∀ c ∈ (gap.text ++ cs).head?, LaidOut.isFiller c = true := by
  intro c hc
  obtain ⟨d, ds, hgap⟩ := List.exists_cons_of_ne_nil (gap_ne_nil gap)
  have hd := isBlank_gap gap d (by rw [hgap]; exact List.mem_cons_self)
  rw [hgap] at hc
  exact Option.some.inj hc ▸ LaidOut.isFiller_of_isBlank hd

/-- After a word there is a gap or nothing. -/
theorem isFiller_head?_spots (spots : List Spot) : ∀ c ∈ (spots.flatMap Spot.text).head?, LaidOut.isFiller c = true := by
  cases spots with
  | nil => exact fun _ hc => nomatch hc
  | cons spot spots =>
    rw [List.flatMap_cons, Spot.text, List.append_assoc]
    exact isFiller_head?_gap spot.gap _

theorem signsOf_markers (markers : List Marker) : signsOf (markers.map .inl) = markers.map .inl := by
  simp [signsOf, Function.comp_def]

theorem flush_markers {signs : List Sign} {cs : List Char} (h : Flush signs cs) : ∀ markers : List Marker,
    Flush (markers.map .inl ++ signs) (markers.map Marker.char ++ cs)
  | [] => h
  | _ :: markers => .marker (flush_markers h markers).indented

/-- What has a gap before it comes after a word. -/
theorem after_gap (gap : Gap) {signs : List Sign} {cs : List Char} (h : Flush signs cs) : After signs (gap.text ++ cs) := by
  refine ⟨isFiller_head?_gap gap cs, ?_⟩
  rw [Indented, List.dropWhile_append_of_pos (isBlank_gap gap), h.dropWhile_eq]
  exact h

/-- The blocks left open at the end are closed after the last word. -/
theorem after_closing (blocks : List Block) :
    After (signsOf (blocks.map fun _ => .inl .closing)) (blocks.map fun _ => Marker.closing.char) := by
  have hflush := flush_markers .nil (blocks.map fun _ => Marker.closing)
  rw [List.append_nil, List.append_nil, ← signsOf_markers, List.map_map, List.map_map] at hflush
  refine ⟨fun c hc => ?_, hflush.indented⟩
  obtain ⟨_, -, rfl⟩ := List.mem_map.1 (List.mem_of_mem_head? hc)
  rfl

/-- No blank stands at the end of a text. -/
def EndsTight (cs : List Char) : Prop := ∀ c ∈ cs.getLast?, isBlank c = false

/-- A word ends a text, or what comes after it does. -/
theorem EndsTight.word {w cs : List Char} (hw : IsWord w) (h : EndsTight cs) (before : List Char) : EndsTight (before ++ (w ++ cs)) := by
  obtain ⟨d, ds, hcut, -⟩ := hw.begins
  have hlast : (before ++ (w ++ cs)).getLast? = (w ++ cs).getLast? :=
    List.getLast?_append_of_ne_nil _ (by rw [hcut]; exact List.cons_ne_nil _ _)
  intro c hc
  rw [hlast, List.getLast?_append, Option.mem_def, Option.or_eq_some_iff] at hc
  rcases hc with hc | ⟨-, hc⟩
  · exact h c hc
  · have hfiller := hw.ends c hc
    rw [LaidOut.isFiller, Bool.or_eq_false_iff] at hfiller
    exact hfiller.1

/-- The words that come after a word are cut into their tokens, and the laid-out text has the words and markers that layout gives. -/
theorem exists_after_runWords {source : List Char} : ∀ {spots : List Spot} {offset : Nat}, (∀ spot ∈ spots, IsWord spot.word) →
    source.drop offset = spots.flatMap Spot.text → ∃ ps, Tiles offset ps (spots.flatMap Spot.text) ∧ ∀ s : State,
      After (signsOf (runWords s (Position.ofOffset (lineStarts source) offset) spots)) (laidAfter (lineStarts source) s ps) ∧
        EndsTight (laidAfter (lineStarts source) s ps)
  | [], offset, _, _ => by
    refine ⟨[], .nil offset, fun s => ?_⟩
    have hclosing : laidAfter (lineStarts source) s [] = s.blocks.map fun _ => Marker.closing.char := List.append_nil _
    rw [hclosing]
    refine ⟨after_closing s.blocks, fun c hc => ?_⟩
    obtain ⟨_, -, rfl⟩ := List.mem_map.1 (List.mem_of_getLast? hc)
    rfl
  | spot :: spots, offset, hwords, hsource => by
    obtain ⟨hword, hwords⟩ := List.forall_mem_cons.1 hwords
    obtain ⟨c, cs, hcut, hc⟩ := hword.begins
    rw [List.flatMap_cons, Spot.text, List.append_assoc] at hsource ⊢
    have hhere : source.drop (offset + spot.gap.text.length) = spot.word ++ spots.flatMap Spot.text := by
      rw [← List.drop_drop, hsource, List.drop_left]
    have hnext : source.drop (offset + spot.gap.text.length + spot.word.length) = spots.flatMap Spot.text := by
      rw [← List.drop_drop, hhere, List.drop_left]
    obtain ⟨ps, htail, hafter⟩ := exists_after_runWords hwords hnext
    obtain ⟨qs, htiles, htokens, hlaid⟩ := exists_laid_word hword hhere (isFiller_head?_spots spots) htail
    refine ⟨⟨.blank, offset, spot.gap.text⟩ :: qs, .cons rfl (gap_ne_nil _) (firstPiece?_gap _ fun d hd => ?_) htiles, fun s => ?_⟩
    · rw [hcut] at hd
      rw [LaidOut.isFiller, Bool.or_eq_false_iff] at hc
      exact Option.some.inj hd ▸ hc.1
    · have hplace : Position.ofOffset (lineStarts source) (offset + spot.gap.text.length) =
          spot.gap.place (Position.ofOffset (lineStarts source) offset) := by
        rw [← Position.foldl_advance hsource, Gap.foldl_advance]
      have hend := Position.ofOffset_of_notMem hhere hword.oneLine
      have hgap : laidAfter (lineStarts source) s (⟨.blank, offset, spot.gap.text⟩ :: qs) =
          spot.gap.text ++ laid (lineStarts source) s qs := by
        have hblank : Piece.token? (lineStarts source) ⟨.blank, offset, spot.gap.text⟩ = none := rfl
        have hsome : (qs.filterMap (Piece.token? (lineStarts source))).isEmpty = false := by simpa using htokens
        rw [laidAfter, List.filterMap_cons_none hblank, hsome]
        rfl
      obtain ⟨hrest, htight⟩ := hafter (step s (tokenAt (spot.gap.place (Position.ofOffset (lineStarts source) offset)) spot.word)).2
      rw [hend, hplace] at hrest
      rw [hgap, hlaid, hplace, runWords]
      refine ⟨after_gap spot.gap ?_, by rw [← List.append_assoc]; exact htight.word hword _⟩
      have hflush := Flush.word (w := cs) hc hrest.1 hrest.2
      rw [← hcut] at hflush
      rw [signsOf_append, signsOf_markers]
      exact flush_markers hflush _

end Layout

/-! ## Renderings -/

/-- Layout finds the markers of a declaration. -/
theorem Layout.lays_declared {style : Style} {e : Expr} (h : e.Renderable style) : Lays [] 0 (e.declared style) := by
  have hends : EndsLeft style.indent [] := fun _ hspot => nomatch hspot
  have hbody := lays_expr h style.indent_pos (Nat.le_refl 0) (.inr hends) (lays_nil 0)
  rw [List.append_nil] at hbody
  exact hbody.word (.plain (isPlainWord_symbol "=" (by decide))) fun _ hgap => nomatch hgap

open Layout in
/-- A source of words and gaps is scanned, and its laid-out text has the words and the markers that layout gives. -/
theorem exists_flush_words {source w : List Char} {depth : Nat} {marked : List (Marker ⊕ Spot)} (hw : WordStep [] 0 w depth)
    (h : Lays [] depth marked) (hsource : source = w ++ (spotsOf marked).flatMap Spot.text) : ∃ scanned,
      Scanned.ofSource source = .ok scanned ∧ Flush (.inr w :: signsOf marked) (LaidOut.ofScanned source scanned).text ∧
        EndsTight (LaidOut.ofScanned source scanned).text := by
  obtain ⟨hrun, hwords⟩ := h
  obtain ⟨c, cs, hcut, hc⟩ := hw.isWord.begins
  have hnext : source.drop w.length = (spotsOf marked).flatMap Spot.text := by rw [hsource, List.drop_left]
  obtain ⟨ps, htail, hafter⟩ := exists_after_runWords hwords hnext
  have hstart : source.drop 0 = w ++ (spotsOf marked).flatMap Spot.text := hsource
  obtain ⟨qs, htiles, -, hlaid⟩ := exists_laid_word hw.isWord hstart (isFiller_head?_spots _) ((Nat.zero_add w.length).symm ▸ htail)
  rw [← hsource] at htiles
  have hpieces : pieces source = .ok qs := piecesFrom_of_tiles htiles
  have hscanned : ∃ scanned, Scanned.ofSource source = .ok scanned := by
    rw [Scanned.ofSource, hpieces]
    exact ⟨_, rfl⟩
  obtain ⟨scanned, hscanned⟩ := hscanned
  refine ⟨scanned, hscanned, ?_⟩
  obtain ⟨qs', htiles', -, -, htext⟩ := Scanned.exists_pieces hscanned
  obtain rfl : qs = qs' := Except.ok.inj (hpieces.symm.trans (piecesFrom_of_tiles htiles'))
  -- The other words come after the first one on its line.
  have hrow := congrArg Position.row (Position.ofOffset_of_notMem hstart hw.isWord.oneLine)
  have hstep : step .start (tokenAt (Position.ofOffset (lineStarts source) 0) w) =
      ([], .between [] depth (Position.ofOffset (lineStarts source) 0).row) := step_eq rfl (hw.delimit_eq _ _)
  obtain ⟨hrest, htight⟩ := hafter (.between [] depth (Position.ofOffset (lineStarts source) w.length).row)
  rw [hrun] at hrest
  rw [Nat.zero_add] at hrow
  rw [htext, hlaid, hstep, ← hrow]
  have hflush := Flush.word (w := cs) hc hrest.1 hrest.2
  rw [← hcut] at hflush
  exact ⟨hflush, htight.word hw.isWord []⟩

/-- The source of a rendered expression is scanned, and its laid-out text has the words and markers of the rendering. -/
theorem exists_flush_render {style : Style} {e : Expr} (h : e.Renderable style) : ∃ scanned,
    Scanned.ofSource (e.render style).toList = .ok scanned ∧
      Flush (.inr ['x'] :: signsOf (e.declared style)) (LaidOut.ofScanned (e.render style).toList scanned).text := by
  have hx : Layout.WordStep [] 0 ['x'] 0 := .plain (isPlainWord_name (by decide) (by decide))
  obtain ⟨scanned, hscanned, hflush, -⟩ := exists_flush_words hx (Layout.lays_declared h) String.toList_ofList
  exact ⟨scanned, hscanned, hflush⟩

end ElmLint
