import ElmLint.Proofs.LaidPieces
import Mathlib.Order.Basic

/-!
# The order of positions

Positions are ordered by their rows, and in a row by their columns. Offsets and positions ascend together (`ofOffset_lt`), and the
position just past a character other than a line feed is no later than that of any later character (`next_le_ofOffset`). What can
be seen of a laid-out text is no line feed, so its positions ascend with room for each of them (`LaidOut.Ascends`): one ends where the
next one starts, or before.
-/

namespace ElmLint

namespace Position

/-- By rows, and in a row by columns. -/
instance : PartialOrder Position where
  le p q := p.row < q.row ∨ p.row = q.row ∧ p.column ≤ q.column
  lt p q := p.row < q.row ∨ p.row = q.row ∧ p.column < q.column
  le_refl p := .inr ⟨rfl, Nat.le_refl _⟩
  le_trans p q r hpq hqr := by omega
  lt_iff_le_not_ge p q := by omega
  le_antisymm p q hpq hqp := by
    obtain ⟨row, column⟩ := p
    obtain ⟨row', column'⟩ := q
    simp only [mk.injEq] at *
    omega

theorem lt_next (p : Position) : p < p.next := .inr ⟨rfl, Nat.lt_succ_self _⟩

theorem lt_advance (p : Position) (c : Char) : p < p.advance c := by
  unfold advance
  split
  · exact .inl (Nat.lt_succ_self _)
  · exact p.lt_next

variable {text : List Char}

/-- Offsets and positions ascend together. -/
theorem ofOffset_lt {a : Nat} : ∀ {b : Nat}, a < b → b ≤ text.length →
    ofOffset (lineStarts text) a < ofOffset (lineStarts text) b
  | 0, h, _ => by cases h
  | b + 1, hab, hb => by
    have hstep := lt_advance (ofOffset (lineStarts text) b) text[b]
    rw [← ofOffset_succ (List.getElem?_eq_getElem hb)] at hstep
    rcases Nat.lt_or_eq_of_le (Nat.le_of_lt_succ hab) with hlt | rfl
    · exact lt_trans (ofOffset_lt hlt (Nat.le_of_succ_le hb)) hstep
    · exact hstep

/-- Just past a character other than a line feed no later character has begun. -/
theorem next_le_ofOffset {a b : Nat} {c : Char} (ha : text[a]? = some c) (hc : c ≠ '\n') (hab : a < b) (hb : b ≤ text.length) :
    (ofOffset (lineStarts text) a).next ≤ ofOffset (lineStarts text) b := by
  have hnext : ofOffset (lineStarts text) (a + 1) = (ofOffset (lineStarts text) a).next := by
    rw [ofOffset_succ ha, advance, if_neg (by simpa using hc)]
  rw [← hnext]
  rcases Nat.lt_or_eq_of_le (Nat.succ_le_of_lt hab) with hlt | rfl
  · exact le_of_lt (ofOffset_lt hlt hb)
  · exact le_refl _

end Position

/-! ## What can be seen -/

/-- What is visible of a scanned text is in the source, except for blanks. -/
theorem Tiles.getElem?_visible {offset : Nat} {ps : List Piece} {cs : List Char} (h : Tiles offset ps cs) :
    ∀ {k : Nat} {c : Char}, (ps.flatMap Piece.visible)[k]? = some c → isBlank c = false → cs[k]? = some c := by
  induction h with
  | nil => exact fun h _ => h
  | @cons offset p ps cs hstart htext hfirst htail ih =>
    intro k c hk hc
    rw [List.flatMap_cons] at hk
    rcases Nat.lt_or_ge k p.visible.length with hlt | hge
    · rw [List.getElem?_append_left hlt] at hk
      have hlt' : k < p.text.length := by rwa [length_visible] at hlt
      rw [List.getElem?_append_left hlt']
      unfold Piece.visible at hk
      split at hk
      · -- A comment is blanked out.
        obtain ⟨d, -, rfl⟩ := List.mem_map.1 (List.mem_of_getElem? hk)
        split at hc
        · next hd => rw [beq_iff_eq.1 hd] at hc; cases hc
        · cases hc
      · exact hk
    · rw [List.getElem?_append_right hge, length_visible] at hk
      rw [length_visible] at hge
      rw [List.getElem?_append_right hge]
      exact ih hk hc

namespace LaidOut

theorem mem_seenFrom {place : Nat → Position} {p : Position} : ∀ {cs : List Char} {offset : Nat}, p ∈ seenFrom place offset cs →
    ∃ k c, cs[k]? = some c ∧ isFiller c = false ∧ p = place (offset + k)
  | [], _, h => by cases h
  | c :: cs, offset, h => by
    have hlater : p ∈ seenFrom place (offset + 1) cs → ∃ k d, (c :: cs)[k]? = some d ∧ isFiller d = false ∧
        p = place (offset + k) := by
      intro h
      obtain ⟨k, d, hk, hd, rfl⟩ := mem_seenFrom h
      exact ⟨k + 1, d, hk, hd, by rw [Nat.add_assoc, Nat.add_comm 1]⟩
    rw [seenFrom] at h
    split at h
    · exact hlater h
    · next hc =>
      rcases List.mem_cons.1 h with rfl | h
      · exact ⟨0, c, rfl, by simpa using hc, rfl⟩
      · exact hlater h

/-- Positions of characters of a source, in order; each ends before the next one starts. -/
structure Ascends (source : List Char) (seen : List Position) : Prop where
  pairwise : seen.Pairwise fun p q => p.next ≤ q
  mem : ∀ p ∈ seen, ∃ k < source.length, p = Position.ofOffset (lineStarts source) k

/-- Characters of a source other than fillers have ascending positions. -/
theorem ascends_seenFrom {source : List Char} : ∀ {cs : List Char} {offset : Nat},
    (∀ k c, cs[k]? = some c → isFiller c = false → source[offset + k]? = some c) →
    Ascends source (seenFrom (Position.ofOffset (lineStarts source)) offset cs)
  | [], _, _ => ⟨List.Pairwise.nil, nofun⟩
  | c :: cs, offset, h => by
    have hrest : ∀ k d, cs[k]? = some d → isFiller d = false → source[offset + 1 + k]? = some d := by
      intro k d hk hd
      rw [Nat.add_assoc, Nat.add_comm 1]
      exact h (k + 1) d hk hd
    have ih := ascends_seenFrom hrest
    rw [seenFrom]
    split
    · exact ih
    · next hc =>
      have hc : isFiller c = false := by simpa using hc
      have hat : source[offset]? = some c := h 0 c rfl hc
      have hlt := (List.getElem?_eq_some_iff.1 hat).1
      refine ⟨List.pairwise_cons.2 ⟨fun q hq => ?_, ih.pairwise⟩, List.forall_mem_cons.2 ⟨⟨offset, hlt, rfl⟩, ih.mem⟩⟩
      obtain ⟨k, d, hk, hd, rfl⟩ := mem_seenFrom hq
      have hk := (List.getElem?_eq_some_iff.1 (hrest k d hk hd)).1
      refine Position.next_le_ofOffset hat ?_ (by omega) (Nat.le_of_lt hk)
      rintro rfl
      cases hc

theorem ascends_seen {source : List Char} {s : Scanned} (h : Scanned.ofSource source = .ok s) :
    Ascends source (ofScanned source s).seen := by
  obtain ⟨ps, htiles, htext, -⟩ := Scanned.exists_tiles h
  rw [seen_eq_seenFrom h]
  refine ascends_seenFrom fun k c hk hc => ?_
  rw [isFiller, Bool.or_eq_false_iff] at hc
  rw [htext] at hk
  rw [Nat.zero_add]
  exact htiles.getElem?_visible hk hc.1

end LaidOut

end ElmLint
