import ElmLint.Proofs.Lexeme
import ElmLint.Token
import Mathlib.Data.List.Pairwise

/-!
# Pieces cover the source

Every piece has a character (`firstPiece?_pos`), so the pieces of a source stand one right after the other and make it up
without a gap (`tiles_pieces`). Hence the tokens of a scanned source follow each other (`pairwise_tokens`) inside it
(`token_bounds`), and its text is as long as the source (`length_text`).
-/

namespace ElmLint

/-! ## The first piece -/

theorem reads_pieceClasses : ∀ p ∈ pieceClasses, Reads p.2 := by
  intro p hp
  simp only [pieceClasses, List.mem_cons, List.not_mem_nil, or_false] at hp
  rcases hp with rfl | rfl | rfl | rfl | rfl | rfl | rfl | rfl
  · exact reads_stringLength? true
  · exact reads_charLength? true
  · exact reads_orElse reads_hexLength? (reads_orElse (reads_floatLength? isDigit) (reads_someRun? isDigit))
  · exact reads_nameLength? _
  · intro cs n h
    simp only at h
    split at h
    · next hb =>
      cases h
      refine ⟨Nat.one_pos, List.length_pos_iff.2 ?_⟩
      rintro rfl
      simp at hb
    · cases h
  · exact reads_exactLength? (by simp)
  · exact reads_someRun? _
  · exact reads_someRun? _

theorem reads_blockCommentEnd? (depth : Nat) : Reads (blockCommentEnd? depth) := by
  intro cs
  fun_induction blockCommentEnd? depth cs with
  | case1 => nofun
  | case2 depth cs ih =>
    intro n hn
    obtain ⟨k, hk, rfl⟩ := Option.map_eq_some_iff.1 hn
    have := ih k hk
    exact ⟨by omega, by simp only [List.length_cons]; omega⟩
  | case3 =>
    intro n hn
    cases hn
    exact ⟨by omega, by simp⟩
  | case4 depth cs ih =>
    intro n hn
    obtain ⟨k, hk, rfl⟩ := Option.map_eq_some_iff.1 hn
    have := ih k hk
    exact ⟨by omega, by simp only [List.length_cons]; omega⟩
  | case5 depth c cs _ _ _ ih =>
    intro n hn
    obtain ⟨k, hk, rfl⟩ := Option.map_eq_some_iff.1 hn
    have := ih k hk
    exact ⟨by omega, by simp only [List.length_cons]; omega⟩

/-- A piece is a block comment, a line comment, a piece of one of the classes, or a character by itself. -/
theorem firstPiece?_cases {cs : List Char} {kind : Piece.Kind} {n : Nat} (h : firstPiece? cs = some (kind, n)) :
    (kind = .comment ∧ ∃ rest k, cs = '{' :: '-' :: rest ∧ blockCommentEnd? 0 rest = some k ∧ n = k + 2) ∨
    (kind = .comment ∧ ∃ rest, cs = '-' :: '-' :: rest ∧ n = runLength (· != '\n') rest + 2) ∨
    (∃ p ∈ pieceClasses, kind = p.1 ∧ p.2 cs = some n) ∨
    (kind = .token .other ∧ n = 1 ∧ ∀ p ∈ pieceClasses, p.2 cs = none) := by
  unfold firstPiece? at h
  split at h
  · next rest =>
    obtain ⟨k, hk, hpair⟩ := Option.map_eq_some_iff.1 h
    cases hpair
    exact .inl ⟨rfl, rest, k, rfl, hk, rfl⟩
  · next rest =>
    cases h
    exact .inr (.inl ⟨rfl, rest, rfl, rfl⟩)
  · simp only [Option.some.injEq] at h
    generalize hf : pieceClasses.findSome? _ = found at h
    cases found with
    | none =>
      cases h
      refine .inr (.inr (.inr ⟨rfl, rfl, fun p hp => ?_⟩))
      exact Option.map_eq_none_iff.1 (List.findSome?_eq_none_iff.1 hf p hp)
    | some found =>
      rw [Option.getD_some] at h
      obtain ⟨p, hp, hl⟩ := List.exists_of_findSome?_eq_some hf
      obtain ⟨m, hm, hk⟩ := Option.map_eq_some_iff.1 hl
      rw [h] at hk
      cases hk
      exact .inr (.inr (.inl ⟨p, hp, rfl, hm⟩))

/-- A piece of a class has the length that the class tells. -/
theorem length?_of_firstPiece? {cs : List Char} {kind : Piece.Kind} {n : Nat} (length? : List Char → Option Nat)
    (hclass : (kind, length?) ∈ pieceClasses) (h : firstPiece? cs = some (kind, n)) : length? cs = some n := by
  have hdistinct : pieceClasses.Pairwise fun p q => p.1 ≠ q.1 := by simp [pieceClasses]
  have hcomment : ∀ p ∈ pieceClasses, p.1 ≠ .comment ∧ p.1 ≠ .token .other := by simp [pieceClasses]
  rcases firstPiece?_cases h with ⟨rfl, -⟩ | ⟨rfl, -⟩ | ⟨p, hp, rfl, hn⟩ | ⟨rfl, -⟩
  · exact absurd rfl (hcomment _ hclass).1
  · exact absurd rfl (hcomment _ hclass).1
  · have hsame : p = (p.1, length?) := by
      by_contra hne
      have hsymm : Std.Symm fun p q : Piece.Kind × (List Char → Option Nat) => p.1 ≠ q.1 := ⟨fun _ _ h => h.symm⟩
      exact hdistinct.forall hp hclass hne rfl
    rw [← hn, hsame]
  · exact absurd rfl (hcomment _ hclass).2

/-- A bracket is a token by itself. -/
theorem bracket_of_firstPiece? {cs : List Char} {n : Nat} (h : firstPiece? cs = some (.token .bracket, n)) :
    n = 1 ∧ cs.head?.any isBracket = true := by
  have hlength := length?_of_firstPiece? (fun cs => if cs.head?.any isBracket then some 1 else none) (by simp [pieceClasses]) h
  rw [Option.ite_none_right_eq_some, Option.some.injEq] at hlength
  exact ⟨hlength.2.symm, hlength.1⟩

/-- A comma is a token by itself. -/
theorem comma_of_firstPiece? {cs : List Char} {n : Nat} (h : firstPiece? cs = some (.token .comma, n)) :
    n = 1 ∧ cs.head? = some ',' := by
  have hlength := length?_of_firstPiece? (exactLength? [',']) (by simp [pieceClasses]) h
  obtain ⟨⟨rest, rfl⟩, rfl⟩ := exactLength?_eq_some_iff.1 hlength
  exact ⟨rfl, rfl⟩

/-- A piece of blanks is nothing but blanks. -/
theorem isBlank_of_firstPiece? {text cs : List Char} (h : firstPiece? (text ++ cs) = some (.blank, text.length)) :
    ∀ c ∈ text, isBlank c = true := by
  have hrun := length?_of_firstPiece? (someRun? isBlank) (by simp [pieceClasses]) h
  exact (someRun?_append_iff.1 hrun).2.1

/-- A piece has a character at least. -/
theorem firstPiece?_pos {cs : List Char} {kind : Piece.Kind} {n : Nat} (h : firstPiece? cs = some (kind, n)) : 0 < n := by
  rcases firstPiece?_cases h with ⟨-, _, _, -, -, rfl⟩ | ⟨-, _, -, rfl⟩ | ⟨p, hp, -, hn⟩ | ⟨-, rfl, -⟩
  · omega
  · omega
  · exact (reads_pieceClasses p hp cs n hn).1
  · omega

/-- A piece has no more characters than there are. -/
theorem firstPiece?_le {c : Char} {cs : List Char} {kind : Piece.Kind} {n : Nat}
    (h : firstPiece? (c :: cs) = some (kind, n)) : n ≤ (c :: cs).length := by
  rcases firstPiece?_cases h with ⟨-, rest, k, hcs, hk, rfl⟩ | ⟨-, rest, hcs, rfl⟩ | ⟨p, hp, -, hn⟩ | ⟨-, rfl, -⟩
  · have := (reads_blockCommentEnd? 0 rest k hk).2
    rw [hcs, List.length_cons, List.length_cons]
    omega
  · have := runLength_le (· != '\n') rest
    rw [hcs, List.length_cons, List.length_cons]
    omega
  · exact (reads_pieceClasses p hp _ n hn).2
  · simp

/-! ## All pieces -/

/-- Pieces that make up a text without a gap, the first of them at an offset, and each the one that its text starts with. -/
inductive Tiles : Nat → List Piece → List Char → Prop
  | nil (offset : Nat) : Tiles offset [] []
  | cons {offset : Nat} {p : Piece} {ps : List Piece} {cs : List Char} :
      p.start = offset → p.text ≠ [] → firstPiece? (p.text ++ cs) = some (p.kind, p.text.length) → Tiles p.stop ps cs →
      Tiles offset (p :: ps) (p.text ++ cs)

/-- Characters that belong to the last piece are passed over. -/
theorem piecesFrom_skip : ∀ (offset skip : Nat) (cs : List Char),
    piecesFrom offset skip cs = piecesFrom (offset + skip) 0 (cs.drop skip)
  | _, 0, _ => rfl
  | _, _ + 1, [] => by simp [piecesFrom]
  | offset, skip + 1, c :: cs => by
    rw [piecesFrom, piecesFrom_skip (offset + 1) skip cs, List.drop_succ_cons]
    congr 1
    omega

/-- The first piece is cut off. -/
theorem piecesFrom_piece {p : Piece} {cs : List Char} (htext : p.text ≠ [])
    (hfirst : firstPiece? (p.text ++ cs) = some (p.kind, p.text.length)) :
    piecesFrom p.start 0 (p.text ++ cs) = (piecesFrom p.stop 0 cs).map (p :: ·) := by
  obtain ⟨kind, start, text⟩ := p
  obtain ⟨c, text, rfl⟩ := List.exists_cons_of_ne_nil htext
  have hstop : start + 1 + text.length = Piece.stop ⟨kind, start, c :: text⟩ := by
    simp only [Piece.stop, List.length_cons]
    omega
  have hskip : piecesFrom (start + 1) ((c :: text).length - 1) (text ++ cs) = piecesFrom (Piece.stop ⟨kind, start, c :: text⟩) 0 cs := by
    rw [piecesFrom_skip, List.length_cons, Nat.add_sub_cancel, List.drop_left, hstop]
  simp only [List.cons_append] at hfirst
  simp only [List.cons_append, piecesFrom, hfirst, hskip]
  rw [← List.cons_append, List.take_left]
  cases piecesFrom (Piece.stop ⟨kind, start, c :: text⟩) 0 cs <;> rfl

/-- What a text starts with is cut off as a piece. -/
theorem exists_first_piece {c : Char} {cs : List Char} {kind : Piece.Kind} {n : Nat} (h : firstPiece? (c :: cs) = some (kind, n))
    (offset : Nat) : ∃ (p : Piece) (rest : List Char), p.start = offset ∧ c :: cs = p.text ++ rest ∧ p.text ≠ [] ∧
      firstPiece? (p.text ++ rest) = some (p.kind, p.text.length) := by
  have hlength : ((c :: cs).take n).length = n := List.length_take_of_le (firstPiece?_le h)
  have hne : (c :: cs).take n ≠ [] := List.length_pos_iff.1 (by rw [hlength]; exact firstPiece?_pos h)
  have hcut : (c :: cs).take n ++ (c :: cs).drop n = c :: cs := List.take_append_drop n _
  exact ⟨⟨kind, offset, (c :: cs).take n⟩, (c :: cs).drop n, rfl, hcut.symm, hne, by rw [hcut, hlength, h]⟩

theorem tiles_piecesFrom (offset : Nat) (cs : List Char) {ps : List Piece} (h : piecesFrom offset 0 cs = .ok ps) :
    Tiles offset ps cs := by
  match cs with
  | [] =>
    cases h
    exact .nil offset
  | c :: cs =>
    cases hf : firstPiece? (c :: cs) with
    | none => rw [piecesFrom, hf] at h; cases h
    | some found =>
      obtain ⟨p, rest, rfl, hcut, htext, hfirst⟩ := exists_first_piece hf offset
      have hshorter : rest.length < (c :: cs).length := by
        have hpos := List.length_pos_iff.2 htext
        rw [hcut, List.length_append]
        omega
      rw [hcut, piecesFrom_piece htext hfirst] at h
      cases hr : piecesFrom p.stop 0 rest with
      | error e => rw [hr] at h; cases h
      | ok ps' =>
        rw [hr] at h
        cases h
        rw [hcut]
        exact .cons rfl htext hfirst (tiles_piecesFrom p.stop rest hr)
  termination_by cs.length
  decreasing_by exact hshorter

/-- A text is cut into the pieces that make it up. -/
theorem piecesFrom_of_tiles {offset : Nat} {ps : List Piece} {cs : List Char} (h : Tiles offset ps cs) :
    piecesFrom offset 0 cs = .ok ps := by
  induction h with
  | nil => rfl
  | @cons offset p ps cs hstart htext hfirst _ ih => rw [← hstart, piecesFrom_piece htext hfirst, ih]; rfl

/-- The pieces of a source make it up. -/
theorem tiles_pieces {source : List Char} {ps : List Piece} (h : pieces source = .ok ps) : Tiles 0 ps source :=
  tiles_piecesFrom 0 source h

namespace Tiles

theorem length_visible (p : Piece) : p.visible.length = p.text.length := by
  unfold Piece.visible
  split <;> simp

/-- Blanking comments out keeps the length. -/
theorem length_flatMap_visible {offset : Nat} {ps : List Piece} {cs : List Char} (h : Tiles offset ps cs) :
    (ps.flatMap Piece.visible).length = cs.length := by
  induction h with
  | nil => rfl
  | cons _ _ _ _ ih => simp [length_visible, ih]

/-- The pieces lie between the ends of the text. -/
theorem bounds {offset : Nat} {ps : List Piece} {cs : List Char} (h : Tiles offset ps cs) :
    ∀ p ∈ ps, offset ≤ p.start ∧ p.start < p.stop ∧ p.stop ≤ offset + cs.length := by
  induction h with
  | nil => simp
  | @cons offset p ps cs hstart htext _ _ ih =>
    intro q hq
    have hlen := List.length_pos_iff.2 htext
    have hstop : p.stop = offset + p.text.length := by rw [Piece.stop, hstart]
    rw [List.length_append]
    rcases List.mem_cons.1 hq with rfl | hq
    · omega
    · have := ih q hq
      omega

/-- The characters of a piece are characters of the text. -/
theorem mem_of_mem_text {offset : Nat} {ps : List Piece} {cs : List Char} (h : Tiles offset ps cs) :
    ∀ p ∈ ps, ∀ c ∈ p.text, c ∈ cs := by
  induction h with
  | nil => nofun
  | cons _ _ _ _ ih =>
    intro q hq c hc
    rcases List.mem_cons.1 hq with rfl | hq
    · exact List.mem_append_left _ hc
    · exact List.mem_append_right _ (ih q hq c hc)

/-- Each piece ends before the next ones start. -/
theorem pairwise {offset : Nat} {ps : List Piece} {cs : List Char} (h : Tiles offset ps cs) :
    ps.Pairwise fun p q => p.stop ≤ q.start := by
  induction h with
  | nil => exact List.Pairwise.nil
  | cons _ _ _ htail ih => exact List.pairwise_cons.2 ⟨fun q hq => (htail.bounds q hq).1, ih⟩

/-- A piece is the first one of the text from its start on. -/
theorem cut {offset : Nat} {ps : List Piece} {cs : List Char} (h : Tiles offset ps cs) :
    ∀ p ∈ ps, ∃ rest, cs.drop (p.start - offset) = p.text ++ rest ∧
      firstPiece? (p.text ++ rest) = some (p.kind, p.text.length) := by
  induction h with
  | nil => nofun
  | @cons offset p ps cs hstart htext hfirst htail ih =>
    intro q hq
    rcases List.mem_cons.1 hq with rfl | hq
    · exact ⟨cs, by rw [hstart, Nat.sub_self]; rfl, hfirst⟩
    · obtain ⟨rest, hrest, hfirst⟩ := ih q hq
      have hbounds := htail.bounds q hq
      have hskip : q.start - offset = p.text.length + (q.start - p.stop) := by
        rw [Piece.stop, hstart] at hbounds ⊢
        omega
      exact ⟨rest, by rw [hskip, List.drop_length_add_append, hrest], hfirst⟩

/-- Every character belongs to a piece. -/
theorem exists_piece {offset : Nat} {ps : List Piece} {cs : List Char} (h : Tiles offset ps cs) :
    ∀ {o : Nat}, offset ≤ o → o < offset + cs.length → ∃ p ∈ ps, p.start ≤ o ∧ o < p.stop := by
  induction h with
  | nil => intro o hle hlt; simp only [List.length_nil] at hlt; omega
  | @cons offset p ps cs hstart htext hfirst htail ih =>
    intro o hle hlt
    have hstop : p.stop = offset + p.text.length := by rw [Piece.stop, hstart]
    rw [List.length_append] at hlt
    by_cases ho : o < p.stop
    · exact ⟨p, List.mem_cons_self, by omega, ho⟩
    · obtain ⟨q, hq, hbounds⟩ := ih (o := o) (by omega) (by omega)
      exact ⟨q, List.mem_cons_of_mem p hq, hbounds⟩

/-- Blanking comments out keeps the line feeds. -/
theorem map_visible {offset : Nat} {ps : List Piece} {cs : List Char} (h : Tiles offset ps cs) :
    (ps.flatMap Piece.visible).map (· == '\n') = cs.map (· == '\n') := by
  induction h with
  | nil => rfl
  | @cons offset p ps cs _ _ _ _ ih =>
    have hpiece : p.visible.map (· == '\n') = p.text.map (· == '\n') := by
      unfold Piece.visible
      split
      · rw [List.map_map]
        refine List.map_congr_left fun c _ => ?_
        by_cases hc : c = '\n' <;> simp [hc]
      · rfl
    rw [List.flatMap_cons, List.map_append, List.map_append, ih, hpiece]

/-- What is visible of a piece stands in the text where the piece starts. -/
theorem visible_prefix {offset : Nat} {ps : List Piece} {cs : List Char} (h : Tiles offset ps cs) :
    ∀ p ∈ ps, p.visible <+: (ps.flatMap Piece.visible).drop (p.start - offset) := by
  induction h with
  | nil => nofun
  | @cons offset p ps cs hstart htext hfirst htail ih =>
    intro q hq
    rw [List.flatMap_cons]
    rcases List.mem_cons.1 hq with rfl | hq
    · rw [hstart, Nat.sub_self]
      exact List.prefix_append _ _
    · have hbounds := htail.bounds q hq
      have hstop : p.stop = offset + p.visible.length := by rw [length_visible, Piece.stop, hstart]
      have hskip : q.start - offset = p.visible.length + (q.start - p.stop) := by omega
      rw [hskip, List.drop_length_add_append]
      exact ih q hq

end Tiles

/-! ## Scanned sources -/

theorem Piece.token?_eq_some {starts : List Nat} {p : Piece} {t : Token} (h : p.token? starts = some t) :
    t.start = p.start ∧ t.stop = p.stop := by
  unfold Piece.token? at h
  split at h
  · cases h
    exact ⟨rfl, rfl⟩
  · cases h

namespace Scanned

variable {source : List Char} {s : Scanned}

/-- What is kept of a source is what is kept of the pieces that make it up. -/
theorem ofSource_ok_iff : ofSource source = .ok s ↔ ∃ ps, Tiles 0 ps source ∧
    s = ⟨ps.flatMap Piece.visible, ps.filterMap (Piece.token? (lineStarts source)),
      ps.filterMap (Piece.comment? (lineStarts source))⟩ := by
  constructor
  · intro h
    unfold ofSource at h
    cases hp : pieces source with
    | error e => rw [hp] at h; cases h
    | ok ps =>
      rw [hp] at h
      cases h
      exact ⟨ps, tiles_pieces hp, rfl⟩
  · rintro ⟨ps, htiles, rfl⟩
    rw [ofSource, pieces, piecesFrom_of_tiles htiles]
    rfl

/-- A scanned source comes from pieces that make up the source. -/
theorem exists_tiles (h : ofSource source = .ok s) : ∃ ps, Tiles 0 ps source ∧
    s.text = ps.flatMap Piece.visible ∧ s.tokens = ps.filterMap (Piece.token? (lineStarts source)) := by
  obtain ⟨ps, htiles, rfl⟩ := ofSource_ok_iff.1 h
  exact ⟨ps, htiles, rfl, rfl⟩

/-- The text of a scanned source is as long as the source. -/
theorem length_text (h : ofSource source = .ok s) : s.text.length = source.length := by
  obtain ⟨ps, htiles, htext, -⟩ := exists_tiles h
  rw [htext, htiles.length_flatMap_visible]

/-- Each token ends before the next ones start. -/
theorem pairwise_tokens (h : ofSource source = .ok s) : s.tokens.Pairwise fun t u => t.stop ≤ u.start := by
  obtain ⟨ps, htiles, -, htokens⟩ := exists_tiles h
  rw [htokens]
  refine List.pairwise_filterMap.2 (htiles.pairwise.imp fun {p q} hle t ht u hu => ?_)
  rw [(Piece.token?_eq_some ht).2, (Piece.token?_eq_some hu).1]
  exact hle

/-- A token has a character and lies inside the source. -/
theorem token_bounds (h : ofSource source = .ok s) : ∀ t ∈ s.tokens, t.start < t.stop ∧ t.stop ≤ source.length := by
  obtain ⟨ps, htiles, -, htokens⟩ := exists_tiles h
  intro t ht
  rw [htokens] at ht
  obtain ⟨p, hp, hpt⟩ := List.mem_filterMap.1 ht
  obtain ⟨hstart, hstop⟩ := Piece.token?_eq_some hpt
  have := htiles.bounds p hp
  omega

end Scanned

end ElmLint
