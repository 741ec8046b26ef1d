import ElmLint.Proofs.LaidPieces
import ElmLint.Proofs.Quotes

/-!
# Quotes in a laid-out text

A laid-out text is its source behind a veil (`Tiles.veil`): comments are blanked out, and markers stand where they come between
neither a backslash nor a quote and what follows it on the same line. So whatever stands around a token that begins with a quote,
the grammar reads it as a whole or not at all (`Tiles.whole`).
-/

namespace ElmLint

/-! ## Ends of comments -/

theorem getLast?_take_blockCommentEnd? (depth : Nat) (cs : List Char) :
    ∀ {n : Nat}, blockCommentEnd? depth cs = some n → (cs.take n).getLast? = some '}' := by
  have hadd : ∀ {k : Nat} {cs : List Char} (as : List Char), (cs.take k).getLast? = some '}' →
      ((as ++ cs).take (k + as.length)).getLast? = some '}' := by
    intro k cs as h
    rw [Nat.add_comm, List.take_length_add_append, List.getLast?_append, h]
    rfl
  fun_induction blockCommentEnd? depth cs with
  | case1 =>
    intro k h
    cases h
  | case2 depth cs ih =>
    intro n hn
    obtain ⟨k, hk, rfl⟩ := Option.map_eq_some_iff.1 hn
    exact hadd ['{', '-'] (ih hk)
  | case3 =>
    intro n hn
    cases hn
    rfl
  | case4 depth cs ih =>
    intro n hn
    obtain ⟨k, hk, rfl⟩ := Option.map_eq_some_iff.1 hn
    exact hadd ['-', '}'] (ih hk)
  | case5 depth c cs _ _ _ ih =>
    intro n hn
    obtain ⟨k, hk, rfl⟩ := Option.map_eq_some_iff.1 hn
    exact hadd [c] (ih hk)

/-- A comment is two characters and more; what comes after them ends with a brace, or it is a line and the next one is yet to come. -/
theorem comment_of_firstPiece? {text cs : List Char} (h : firstPiece? (text ++ cs) = some (.comment, text.length)) :
    ∃ a b rest, text = a :: b :: rest ∧ (a = '{' ∨ a = '-') ∧
      ((b :: rest).getLast? = some '}' ∨ cs = [] ∨ ∃ cs', cs = '\n' :: cs') := by
  have hcut : text = (text ++ cs).take text.length := List.take_left.symm
  rcases firstPiece?_cases h with ⟨-, rest, k, hcs, hk, hlength⟩ | ⟨-, rest, hcs, hlength⟩ | ⟨p, hp, hkind, -⟩ | ⟨hkind, -⟩
  · have htext : text = '{' :: '-' :: rest.take k := by
      rw [hcut, hcs, hlength]
      rfl
    refine ⟨'{', '-', rest.take k, htext, .inl rfl, .inl ?_⟩
    have hlast := getLast?_take_blockCommentEnd? 0 rest hk
    cases htake : rest.take k with
    | nil =>
      rw [htake] at hlast
      cases hlast
    | cons c cs =>
      rw [htake] at hlast
      exact hlast
  · have htext : text = '-' :: '-' :: rest.takeWhile (· != '\n') := by
      rw [hcut, hcs, hlength, runLength]
      exact congrArg (fun l => '-' :: '-' :: l) (List.prefix_iff_eq_take.1 (List.takeWhile_prefix _)).symm
    refine ⟨'-', '-', _, htext, .inr rfl, .inr ?_⟩
    have hrest : cs = rest.dropWhile (· != '\n') := by
      rw [htext, List.cons_append, List.cons_append, List.cons_eq_cons, List.cons_eq_cons] at hcs
      exact List.append_cancel_left (hcs.2.2.trans (List.takeWhile_append_dropWhile).symm)
    cases hdrop : rest.dropWhile (· != '\n') with
    | nil => exact .inl (hrest.trans hdrop)
    | cons c cs' =>
      have hc : (c != '\n') = false := by
        have hhead := List.head?_dropWhile_not (· != '\n') rest
        rw [hdrop] at hhead
        simpa using hhead
      rw [bne_eq_false_iff_eq] at hc
      exact .inr ⟨cs', by rw [hrest, hdrop, hc]⟩
  · simp only [pieceClasses, List.mem_cons, List.not_mem_nil, or_false] at hp
    rcases hp with rfl | rfl | rfl | rfl | rfl | rfl | rfl | rfl <;> cases hkind
  · cases hkind

/-! ## Tokens after which no marker stands -/

/-- The kinds of tokens that layout may write a marker before on any line. -/
def Token.Kind.isDelimiting : Token.Kind → Bool
  | .bracket | .comma | .name => true
  | _ => false

/-- Such a token begins with neither a quote nor a backslash. -/
theorem Token.Kind.isDelimiting_head {kind : Token.Kind} (hkind : kind.isDelimiting = true) {c : Char} {cs : List Char} {n : Nat}
    (h : firstPiece? (c :: cs) = some (.token kind, n)) : isQuote c = false ∧ c ≠ '\\' := by
  have hclass : ∀ {p : Char → Bool}, p '"' = false → p '\'' = false → p '\\' = false → p c = true →
      isQuote c = false ∧ c ≠ '\\' := by
    intro p h₁ h₂ h₃ hp
    refine ⟨?_, ?_⟩
    · rw [isQuote, Bool.or_eq_false_iff, beq_eq_false_iff_ne, beq_eq_false_iff_ne]
      constructor
      · rintro rfl
        rw [h₁] at hp
        cases hp
      · rintro rfl
        rw [h₂] at hp
        cases hp
    · rintro rfl
      rw [h₃] at hp
      cases hp
  cases kind with
  | bracket => exact hclass (p := isBracket) rfl rfl rfl (bracket_of_firstPiece? h).2
  | comma => exact hclass (p := (· == ',')) rfl rfl rfl (beq_iff_eq.2 (Option.some.inj (comma_of_firstPiece? h).2))
  | name =>
    have hlength := length?_of_firstPiece? (nameLength? fun c => isLetter c || c == '_') (by simp [pieceClasses]) h
    refine hclass (p := fun c => isLetter c || c == '_') rfl rfl rfl ?_
    exact (nameLength?_cons_eq_some_iff.1 hlength).1
  | _ => cases hkind

namespace Layout

/-- On the line of the last token, layout writes markers only where it opens a block or before a delimiting token. -/
theorem step_sameLine {s : State} {t : Token} (hpending : s.pending = none) (hline : s.previousLine = some t.line)
    (hkind : t.kind.isDelimiting = false) : (step s t).1 = [] := by
  have hindent : (indent s t).1 = [] := by
    rw [indent, hpending]
    simp [hline]
  have hdelimit : ∀ s, (delimit s t).1 = [] := by
    intro s
    unfold delimit
    cases hk : t.kind <;> rw [hk] at hkind <;> first | rfl | cases hkind
  simp [step, hindent, hdelimit]

/-- After the place of a token has done what it does, layout knows the last line and opens no block. -/
theorem indent_state (s : State) (t : Token) :
    (indent s t).2.previousLine = some t.endLine ∧ (indent s t).2.pending = none := by
  unfold indent
  cases s.pending with
  | some kind => exact ⟨rfl, rfl⟩
  | none =>
    simp only
    split
    · split <;> exact ⟨rfl, rfl⟩
    · exact ⟨rfl, rfl⟩

/-- After a token, layout knows its last line; it opens a block next only after `of` and `let`. -/
theorem step_state (s : State) (t : Token) : (step s t).2.previousLine = some t.endLine ∧
    (t.text ≠ "of" → t.text ≠ "let" → (step s t).2.pending = none) := by
  have hindent := indent_state s t
  have hdelimit : ∀ s, (delimit s t).2.previousLine = s.previousLine ∧
      (t.text ≠ "of" → t.text ≠ "let" → (delimit s t).2.pending = s.pending) := by
    intro s
    unfold delimit
    cases t.kind with
    | bracket => simp only; split <;> simp
    | comma => simp only; split <;> simp
    | name =>
      simp only
      split
      · next hof => exact ⟨rfl, fun h => absurd (beq_iff_eq.1 hof) h⟩
      · split
        · next hlet => exact ⟨rfl, fun _ h => absurd (beq_iff_eq.1 hlet) h⟩
        · split
          · split
            · exact ⟨rfl, fun _ _ => rfl⟩
            · split <;> exact ⟨rfl, fun _ _ => rfl⟩
          · exact ⟨rfl, fun _ _ => rfl⟩
    | _ => simp
  have hstate := hdelimit (indent s t).2
  exact ⟨hstate.1.trans hindent.1, fun hof hlet => (hstate.2 hof hlet).trans hindent.2⟩

end Layout

/-! ## The veil -/

theorem isQuote_marker (m : Marker) : isQuote m.char = false ∧ m.char ≠ '\\' := by cases m <;> decide

/-- Where no token is left, nothing that layout writes is a quote. -/
theorem Layout.isQuote_laid {starts : List Nat} {offset : Nat} {ps : List Piece} {cs : List Char} (h : Tiles offset ps cs)
    (s : State) (hnone : ps.filterMap (Piece.token? starts) = []) : ∀ c ∈ laid starts s ps, isQuote c = false := by
  induction h with
  | nil => exact List.forall_mem_nil _
  | @cons offset p ps cs _ _ hfirst _ ih =>
    have htoken : p.token? starts = none := by
      cases ht : p.token? starts with
      | none => rfl
      | some t =>
        rw [List.filterMap_cons_some ht] at hnone
        cases hnone
    rw [List.filterMap_cons_none htoken] at hnone
    intro c hc
    rw [laid, htoken] at hc
    rcases List.mem_append.1 hc with hc | hc
    · have hblank := Piece.isBlank_visible htoken hfirst c hc
      cases hq : isQuote c with
      | false => rfl
      | true => cases (isBlank_of_isQuote hq).1.symm.trans hblank
    · exact ih hnone c hc

theorem Piece.token?_of_kind (starts : List Nat) {p : Piece} {kind : Token.Kind} (h : p.kind = .token kind) :
    ∃ t, p.token? starts = some t ∧ t.kind = kind ∧ t.text = String.ofList p.text ∧ t.line = rowOf starts p.start ∧
      t.column = (Position.ofOffset starts p.start).column ∧ t.endLine = rowOf starts (p.stop - 1) := by
  rw [Piece.token?, h]
  exact ⟨_, rfl, rfl, rfl, rfl, rfl, rfl⟩

/-- Behind a veil, nothing of an empty source is a quote. -/
theorem Veil.isQuote_of_nil {l : List Char} (h : Veil [] l) : ∀ c ∈ l, isQuote c = false := by
  generalize hs : [] = s at h
  induction h with
  | ending hnone => exact hnone
  | same _ _ _ => cases hs
  | escape _ _ _ _ => cases hs
  | skip hd _ _ ih =>
    intro c hc
    rcases List.mem_cons.1 hc with rfl | hc
    · exact hd
    · exact ih hs c hc
  | comment hne _ _ _ => exact absurd (List.append_eq_nil_iff.1 hs.symm).1 hne

/-- A comment is veiled when it is blanked out, and so is all but its first character. -/
theorem Veil.blankedOut {text cs l : List Char} (h : Veil cs l) (hfirst : firstPiece? (text ++ cs) = some (.comment, text.length))
    (hline : ∀ cs', cs = '\n' :: cs' → ∃ l', l = '\n' :: l' ∧ Veil cs' l') :
    ∃ a rest, text = a :: rest ∧ (a = '{' ∨ a = '-') ∧ Veil (text ++ cs) (text.map blanked ++ l) ∧
      Veil (rest ++ cs) (rest.map blanked ++ l) := by
  obtain ⟨a, b, rest, rfl, hhead, hend⟩ := comment_of_firstPiece? hfirst
  have hrest : Veil ((b :: rest) ++ cs) ((b :: rest).map blanked ++ l) := by
    rcases hend with hlast | rfl | ⟨cs', rfl⟩
    · exact .comment (List.cons_ne_nil _ _) (by rw [hlast]; decide) h
    · refine .ending fun c hc => ?_
      rcases List.mem_append.1 hc with hc | hc
      · obtain ⟨d, -, rfl⟩ := List.mem_map.1 hc
        rcases blanked_cases d with hd | ⟨-, hd⟩ <;> rw [hd] <;> rfl
      · exact h.isQuote_of_nil c hc
    · -- A line comment may end with a backslash; the end of the line after it does not.
      obtain ⟨l', rfl, hveil⟩ := hline cs' rfl
      have hcomment := Veil.comment (t := b :: rest ++ ['\n']) (by simp) (by rw [List.getLast?_concat]; decide) hveil
      rw [List.map_append, List.append_assoc, List.append_assoc] at hcomment
      exact hcomment
  exact ⟨a, b :: rest, rfl, hhead,
    .comment (t := [a]) (List.cons_ne_nil _ _) (by rcases hhead with rfl | rfl <;> decide) hrest, hrest⟩

/-- A text and its source with a veil between them: also after a backslash on the same line, and from the next line on. -/
structure Layout.Veiled (starts : List Nat) (offset : Nat) (ps : List Piece) (cs : List Char) (s : State) : Prop where
  veil : Veil cs (laid starts s ps)
  backslash : s.pending = none → s.previousLine = some (rowOf starts offset) → Veil ('\\' :: cs) ('\\' :: laid starts s ps)
  line : ∀ cs', cs = '\n' :: cs' → ∃ l', laid starts s ps = '\n' :: l' ∧ Veil cs' l'

namespace Layout.Veiled

variable {starts : List Nat} {p : Piece} {ps : List Piece} {cs : List Char} {s : State}

theorem blank (hkind : p.kind = .blank) (htext : p.text ≠ []) (hfirst : firstPiece? (p.text ++ cs) = some (p.kind, p.text.length))
    (h : Veiled starts p.stop ps cs s) : Veiled starts p.start (p :: ps) (p.text ++ cs) s := by
  have hlaid : laid starts s (p :: ps) = p.text ++ laid starts s ps := by
    rw [laid, Piece.token?, hkind, Piece.visible, hkind, if_neg (by simp)]
  have hblank : ∀ c ∈ p.text, isBlank c = true := isBlank_of_firstPiece? (by rw [hfirst, hkind])
  have hafter : ∀ t, (∀ c ∈ t, isBlank c = true) → Veil (t ++ cs) (t ++ laid starts s ps) := by
    intro t ht
    refine h.veil.append t fun hlast => ?_
    cases ht _ (List.mem_of_getLast? hlast)
  obtain ⟨c, rest, hcut⟩ := List.exists_cons_of_ne_nil htext
  have hrest : ∀ d ∈ rest, isBlank d = true := fun d hd => hblank d (by rw [hcut]; exact List.mem_cons_of_mem c hd)
  rw [hcut] at hlaid
  refine ⟨?_, fun _ _ => ?_, fun cs' hcs => ?_⟩
  · rw [hlaid, ← hcut]
    exact hafter _ hblank
  · rw [hlaid, hcut]
    exact .escape c c (hafter rest hrest)
  · rw [hcut] at hcs
    obtain ⟨rfl, rfl⟩ := List.cons_eq_cons.1 hcs
    exact ⟨_, hlaid, hafter rest hrest⟩

theorem comment (hkind : p.kind = .comment) (hfirst : firstPiece? (p.text ++ cs) = some (p.kind, p.text.length))
    (h : Veiled starts p.stop ps cs s) : Veiled starts p.start (p :: ps) (p.text ++ cs) s := by
  have hlaid : laid starts s (p :: ps) = p.text.map blanked ++ laid starts s ps := by
    rw [laid, Piece.token?, hkind, Piece.visible, hkind, if_pos rfl]
    rfl
  rw [hkind] at hfirst
  obtain ⟨a, rest, htext, hhead, hveil, hrest⟩ := h.veil.blankedOut hfirst h.line
  refine ⟨hlaid ▸ hveil, fun _ _ => ?_, fun cs' hcs => ?_⟩
  · rw [hlaid, htext]
    exact .escape a (blanked a) hrest
  · rw [htext] at hcs
    obtain ⟨rfl, -⟩ := List.cons_eq_cons.1 hcs
    rcases hhead with hhead | hhead <;> cases hhead

end Layout.Veiled

/-- The text after a token, when a state and pieces are left. -/
def Layout.laidAfter (starts : List Nat) (s : State) (ps : List Piece) : List Char :=
  (if (ps.filterMap (Piece.token? starts)).isEmpty then s.blocks.map fun _ => Marker.closing.char else []) ++ laid starts s ps

namespace Layout

variable {starts : List Nat} {p : Piece} {ps : List Piece} {cs : List Char} {s : State}

theorem laid_token {t : Token} (ht : p.token? starts = some t) :
    laid starts s (p :: ps) = (step s t).1.map Marker.char ++ (p.text ++ laidAfter starts (step s t).2 ps) := by
  rw [laid, ht]
  rfl

/-- What comes after a token is veiled like the pieces that are left. -/
theorem Veiled.after {offset : Nat} (htail : Tiles offset ps cs) (h : Veiled starts offset ps cs s) :
    Veil cs (laidAfter starts s ps) ∧ (s.pending = none → s.previousLine = some (rowOf starts offset) →
      Veil ('\\' :: cs) ('\\' :: laidAfter starts s ps)) := by
  unfold laidAfter
  split
  · next hnone =>
    have hquote : ∀ c ∈ (s.blocks.map fun _ => Marker.closing.char) ++ laid starts s ps, isQuote c = false := by
      intro c hc
      rcases List.mem_append.1 hc with hc | hc
      · obtain ⟨b, -, rfl⟩ := List.mem_map.1 hc
        rfl
      · exact isQuote_laid htail s (List.isEmpty_iff.1 hnone) c hc
    refine ⟨.ending hquote, fun _ _ => .ending fun c hc => ?_⟩
    rcases List.mem_cons.1 hc with rfl | hc
    · rfl
    · exact hquote c hc
  · exact ⟨h.veil, h.backslash⟩

/-- After a token that does not end a line, and that is neither `of` nor `let`, layout stays on the line. -/
theorem step_stays {source : List Char} {t : Token} {c : Char} (htext : t.text = String.ofList p.text)
    (hend : t.endLine = rowOf (lineStarts source) (p.stop - 1)) (hsource : source.drop p.start = p.text ++ cs)
    (hlast : p.text.getLast? = some c) (hc : isLetter c = false) (hline : c ≠ '\n') :
    (step s t).2.pending = none ∧ (step s t).2.previousLine = some (rowOf (lineStarts source) p.stop) := by
  obtain ⟨hprevious, hpending⟩ := step_state s t
  constructor
  · have hword : ∀ word : String, word.toList.getLast?.any isLetter = true → t.text ≠ word := by
      rintro word hword rfl
      rw [htext, String.toList_ofList, hlast, Option.any_some, hc] at hword
      cases hword
    exact hpending (hword "of" rfl) (hword "let" rfl)
  · obtain ⟨before, hcut⟩ := List.getLast?_eq_some_iff.1 hlast
    have hstop : p.stop = p.start + before.length + 1 := by rw [Piece.stop, hcut, List.length_append]; rfl
    have hchar : source[p.start + before.length]? = some c := by
      rw [← List.getElem?_drop, hsource, hcut]
      simp
    rw [hprevious, hend, hstop, Nat.add_sub_cancel, rowOf_succ (pairwise_lineStarts source), if_neg]
    · rfl
    · rw [succ_mem_lineStarts, hchar]
      exact fun h => hline (Option.some.inj h)

/-- A token keeps the veil; between a backslash and the next token on its line there is no marker. -/
theorem Veiled.token {source : List Char} {kind : Token.Kind} (hkind : p.kind = .token kind) (htext : p.text ≠ [])
    (hsource : source.drop p.start = p.text ++ cs) (hfirst : firstPiece? (p.text ++ cs) = some (p.kind, p.text.length))
    (htail : Tiles p.stop ps cs) (h : ∀ s, Veiled (lineStarts source) p.stop ps cs s) :
    Veiled (lineStarts source) p.start (p :: ps) (p.text ++ cs) s := by
  obtain ⟨t, ht, htkind, httext, htline, -, htend⟩ := Piece.token?_of_kind (lineStarts source) hkind
  obtain ⟨hveil, hbackslash⟩ := (h (step s t).2).after htail
  have hafter : ∀ text, (text.getLast? = some '\\' → p.text.getLast? = some '\\') →
      Veil (text ++ cs) (text ++ laidAfter (lineStarts source) (step s t).2 ps) := by
    intro text hlast
    refine hveil.append text fun hback => ?_
    have hstays := step_stays (s := s) httext htend hsource (hlast hback) (by decide) (by decide)
    exact hbackslash hstays.1 hstays.2
  obtain ⟨c, rest, hcut⟩ := List.exists_cons_of_ne_nil htext
  have hrest : Veil (rest ++ cs) (rest ++ laidAfter (lineStarts source) (step s t).2 ps) := by
    refine hafter rest fun hlast => ?_
    rw [hcut, List.getLast?_cons, hlast]
    rfl
  have hmarkers : ∀ d ∈ (step s t).1.map Marker.char, isQuote d = false ∧ d ≠ '\\' := by
    intro d hd
    obtain ⟨m, -, rfl⟩ := List.mem_map.1 hd
    exact isQuote_marker m
  refine ⟨?_, fun hpending hprevious => ?_, fun cs' hcs => ?_⟩
  · rw [laid_token ht]
    exact (hafter p.text id).skips hmarkers
  · rw [laid_token ht, hcut]
    cases hwritten : (step s t).1.map Marker.char with
    | nil => exact .escape c c hrest
    | cons m ms =>
      -- A marker is written, so the token is a delimiting one.
      have hdelimiting : kind.isDelimiting = true := by
        by_contra hnot
        rw [step_sameLine hpending (by rw [hprevious, htline]) (by rw [htkind]; simpa using hnot)] at hwritten
        cases hwritten
      rw [hcut, List.cons_append, hkind] at hfirst
      obtain ⟨hquote, hback⟩ := Token.Kind.isDelimiting_head hdelimiting hfirst
      rw [hwritten] at hmarkers
      exact .escape c m ((Veil.skip hquote hback hrest).skips fun d hd => hmarkers d (List.mem_cons_of_mem m hd))
  · rw [hcut] at hcs
    obtain ⟨rfl, -⟩ := List.cons_eq_cons.1 hcs
    rw [hkind] at hfirst
    cases isBlank_of_token hfirst '\n' (by rw [hcut]; rfl)

end Layout

open Layout in
/-- A laid-out text is its source behind a veil. -/
theorem Tiles.veiled {source : List Char} {offset : Nat} {ps : List Piece} {cs : List Char} (h : Tiles offset ps cs) :
    source.drop offset = cs → ∀ s, Veiled (lineStarts source) offset ps cs s := by
  induction h with
  | nil =>
    intro _ s
    refine ⟨.ending (List.forall_mem_nil _), fun _ _ => .ending (by simp [laid, isQuote]), fun cs' hcs => ?_⟩
    cases hcs
  | @cons offset p ps cs hstart htext hfirst htail ih =>
    intro hsource s
    subst hstart
    have hrest := ih (by rw [Piece.stop, ← List.drop_drop, hsource, List.drop_left])
    cases hkind : p.kind with
    | token kind => exact .token hkind htext hsource hfirst htail hrest
    | comment => exact .comment hkind hfirst (hrest s)
    | blank => exact .blank hkind htext hfirst (hrest s)

/-- A piece that begins with a quote is a token, and none of those that layout may write a marker before. -/
theorem exists_token_of_quote {p : Piece} {q : Char} {rest cs : List Char} (hq : isQuote q = true) (htext : p.text = q :: rest)
    (hfirst : firstPiece? (p.text ++ cs) = some (p.kind, p.text.length)) :
    ∃ kind, p.kind = .token kind ∧ kind.isDelimiting = false := by
  cases hkind : p.kind with
  | token kind =>
    refine ⟨kind, rfl, ?_⟩
    by_contra hnot
    rw [htext, List.cons_append, hkind] at hfirst
    rw [(Token.Kind.isDelimiting_head (by simpa using hnot) hfirst).1] at hq
    cases hq
  | comment =>
    rw [hkind] at hfirst
    obtain ⟨a, b, _, hcut, hhead, -⟩ := comment_of_firstPiece? hfirst
    rw [htext] at hcut
    obtain rfl := (List.cons_eq_cons.1 hcut).1
    rcases hhead with rfl | rfl <;> cases hq
  | blank =>
    rw [hkind] at hfirst
    have hblank := isBlank_of_firstPiece? hfirst q (by rw [htext]; exact List.mem_cons_self)
    cases (isBlank_of_isQuote hq).1.symm.trans hblank

open Layout in
/-- A token that begins with a quote is read as a whole or not at all, whatever layout writes after it. -/
theorem Tiles.whole {source : List Char} {p : Piece} {ps : List Piece} {cs : List Char} {kind : Token.Kind} {t : Token}
    (hkind : p.kind = .token kind) (ht : p.token? (lineStarts source) = some t) (hsource : source.drop p.start = p.text ++ cs)
    (hfirst : firstPiece? (p.text ++ cs) = some (p.kind, p.text.length)) (htail : Tiles p.stop ps cs)
    (hquote : p.text.head?.any isQuote = true) (s : State) :
    Whole p.text (laidAfter (lineStarts source) (step s t).2 ps) := by
  have hrest : source.drop p.stop = cs := by rw [Piece.stop, ← List.drop_drop, hsource, List.drop_left]
  have hveil := ((htail.veiled hrest (step s t).2).after htail).1
  rw [hkind] at hfirst
  refine whole_of_token hquote hfirst hveil fun hlone hnext => ?_
  obtain ⟨_, ht', -, httext, -, -, htend⟩ := Piece.token?_of_kind (lineStarts source) hkind
  obtain rfl := Option.some.inj (ht.symm.trans ht')
  obtain ⟨hpending, hprevious⟩ := step_stays (s := s) (c := '\'') httext htend hsource (by rw [hlone]; rfl) (by decide) (by decide)
  -- The second quote begins a token on the same line.
  cases htail with
  | nil => cases hnext
  | @cons _ q qs cs hqstart hqtext hqfirst hqtail =>
    obtain ⟨c, rest, hcut⟩ := List.exists_cons_of_ne_nil hqtext
    obtain rfl : c = '\'' := by
      rw [hcut] at hnext
      exact Option.some.inj hnext
    obtain ⟨qkind, hqkind, hdelimiting⟩ := exists_token_of_quote rfl hcut hqfirst
    obtain ⟨u, hu, hukind, -, huline, -⟩ := Piece.token?_of_kind (lineStarts source) hqkind
    have hmarkers : (step (step s t).2 u).1 = [] :=
      step_sameLine hpending (by rw [hprevious, huline, hqstart]) (by rw [hukind, hdelimiting])
    rw [laidAfter, List.filterMap_cons_some hu, if_neg (by simp), laid_token hu, hmarkers, hcut]
    rfl

end ElmLint
