import ElmLint.Position

/-!
# Positions and offsets

The lines of a text start at ascending offsets, the first at zero. So a position leads back to its offset
(`toOffset_ofOffset`), and two offsets never have the same position (`ofOffset_injective`). From one position to the next it
matters only whether a line feed is passed (`ofOffset_succ`), so the characters before an offset tell its position
(`foldl_advance_take`).
-/

namespace ElmLint

/-- The offset of a position in a text whose lines start at `starts`. -/
def Position.toOffset (starts : List Nat) (p : Position) : Nat := starts.getD (p.row - 1) 0 + (p.column - 1)

/-! ## Line starts -/

theorem lt_of_mem_lineStartsFrom : ∀ {offset : Nat} {cs : List Char} {s : Nat}, s ∈ lineStartsFrom offset cs → offset < s
  | _, [], _, h => by cases h
  | offset, c :: cs, s, h => by
    simp only [lineStartsFrom] at h
    split at h
    · rcases List.mem_cons.1 h with rfl | h
      · omega
      · have := lt_of_mem_lineStartsFrom h
        omega
    · have := lt_of_mem_lineStartsFrom h
      omega

theorem pairwise_lineStartsFrom : ∀ (offset : Nat) (cs : List Char), (lineStartsFrom offset cs).Pairwise (· < ·)
  | _, [] => List.Pairwise.nil
  | offset, c :: cs => by
    simp only [lineStartsFrom]
    split
    · exact List.pairwise_cons.2 ⟨fun s hs => lt_of_mem_lineStartsFrom hs, pairwise_lineStartsFrom _ cs⟩
    · exact pairwise_lineStartsFrom _ cs

theorem pairwise_lineStarts (text : List Char) : (lineStarts text).Pairwise (· < ·) :=
  List.pairwise_cons.2 ⟨fun _ hs => lt_of_mem_lineStartsFrom hs, pairwise_lineStartsFrom 0 text⟩

theorem rowOf_lineStarts_pos (text : List Char) (offset : Nat) : 0 < rowOf (lineStarts text) offset := by
  unfold rowOf
  exact List.countP_pos_iff.2 ⟨0, by simp [lineStarts], by simp⟩

/-- The line of an offset starts at or before it. -/
theorem getD_rowOf_le {offset : Nat} : ∀ {starts : List Nat}, starts.Pairwise (· < ·) → 0 < rowOf starts offset →
    starts.getD (rowOf starts offset - 1) 0 ≤ offset
  | [], _, h => by simp [rowOf] at h
  | s :: starts, hs, h => by
    obtain ⟨hlt, hs'⟩ := List.pairwise_cons.1 hs
    by_cases hle : s ≤ offset
    · have hrow : rowOf (s :: starts) offset = rowOf starts offset + 1 := by simp [rowOf, hle]
      rw [hrow, Nat.add_sub_cancel]
      cases hk : rowOf starts offset with
      | zero => simpa using hle
      | succ k =>
        have hpos : 0 < rowOf starts offset := by omega
        have ih := getD_rowOf_le hs' hpos
        rw [hk, Nat.add_sub_cancel] at ih
        simpa using ih
    · -- no line starts at or before the offset, as all others start after this one
      have hzero : rowOf (s :: starts) offset = 0 := by
        refine List.countP_eq_zero.2 fun t ht => ?_
        rcases List.mem_cons.1 ht with rfl | ht
        · simpa using hle
        · have := hlt t ht
          simp only [decide_eq_true_eq]
          omega
      omega

/-! ## From one offset to the next -/

/-- The numbers of an ascending list below the next bound: those below the bound, and the bound if it is there. -/
theorem countP_lt_succ {ms : List Nat} (h : ms.Pairwise (· < ·)) (n : Nat) :
    ms.countP (· < n + 1) = ms.countP (· < n) + if n ∈ ms then 1 else 0 := by
  induction ms with
  | nil => simp
  | cons m ms ih =>
    obtain ⟨hlt, hms⟩ := List.pairwise_cons.1 h
    rw [List.countP_cons, List.countP_cons, ih hms]
    by_cases hm : m = n
    · subst hm
      have hnot : m ∉ ms := fun hmem => Nat.lt_irrefl m (hlt m hmem)
      simp [hnot]
    · have hiff : m < n + 1 ↔ m < n := by omega
      have hmem : n ∈ m :: ms ↔ n ∈ ms := by simp [Ne.symm hm]
      simp only [hiff, hmem]
      omega

theorem rowOf_succ {starts : List Nat} (h : starts.Pairwise (· < ·)) (offset : Nat) :
    rowOf starts (offset + 1) = rowOf starts offset + if offset + 1 ∈ starts then 1 else 0 := by
  have hrow : ∀ n, rowOf starts n = starts.countP (· < n + 1) := fun n =>
    List.countP_congr fun s _ => by simp only [decide_eq_true_eq]; omega
  rw [hrow, hrow, countP_lt_succ h]

/-- The line that starts at an offset is the line of that offset. -/
theorem getD_rowOf_of_mem {offset : Nat} : ∀ {starts : List Nat}, starts.Pairwise (· < ·) → offset ∈ starts →
    starts.getD (rowOf starts offset - 1) 0 = offset
  | [], _, h => by cases h
  | s :: starts, hs, h => by
    obtain ⟨hlt, hs'⟩ := List.pairwise_cons.1 hs
    rcases List.mem_cons.1 h with rfl | h
    · have hnone : rowOf starts offset = 0 :=
        List.countP_eq_zero.2 fun t ht => by simpa using hlt t ht
      have hrow : rowOf (offset :: starts) offset = 1 := by
        unfold rowOf at hnone ⊢
        simp [hnone]
      rw [hrow]
      rfl
    · have hrow : rowOf (s :: starts) offset = rowOf starts offset + 1 := by
        simp [rowOf, Nat.le_of_lt (hlt offset h)]
      obtain ⟨k, hk⟩ : ∃ k, rowOf starts offset = k + 1 :=
        Nat.exists_eq_add_one.2 (List.countP_pos_iff.2 ⟨offset, h, by simp⟩)
      have ih := getD_rowOf_of_mem hs' h
      rw [hk, Nat.add_sub_cancel] at ih
      rw [hrow, hk]
      simpa using ih

theorem mem_lineStartsFrom : ∀ {offset : Nat} {cs : List Char} {s : Nat},
    s ∈ lineStartsFrom offset cs ↔ ∃ k, cs[k]? = some '\n' ∧ s = offset + k + 1
  | _, [], _ => by simp [lineStartsFrom]
  | offset, c :: cs, s => by
    have hrest : s ∈ lineStartsFrom (offset + 1) cs ↔ ∃ k, cs[k]? = some '\n' ∧ s = offset + 1 + k + 1 := mem_lineStartsFrom
    have hcons : (∃ k, (c :: cs)[k]? = some '\n' ∧ s = offset + k + 1) ↔
        (c = '\n' ∧ s = offset + 1) ∨ ∃ k, cs[k]? = some '\n' ∧ s = offset + 1 + k + 1 := by
      constructor
      · rintro ⟨k, hk, rfl⟩
        cases k with
        | zero => exact .inl ⟨by simpa using hk, rfl⟩
        | succ k => exact .inr ⟨k, hk, by omega⟩
      · rintro (⟨rfl, rfl⟩ | ⟨k, hk, rfl⟩)
        · exact ⟨0, rfl, rfl⟩
        · exact ⟨k + 1, hk, by omega⟩
    rw [hcons, ← hrest, lineStartsFrom]
    split
    · next h => simp [beq_iff_eq.1 h]
    · next h =>
      have hne : c ≠ '\n' := by simpa using h
      simp [hne]

/-- A line starts just past each line feed. -/
theorem succ_mem_lineStarts {text : List Char} {offset : Nat} :
    offset + 1 ∈ lineStarts text ↔ text[offset]? = some '\n' := by
  rw [lineStarts, List.mem_cons, mem_lineStartsFrom]
  constructor
  · rintro (h | ⟨k, hk, h⟩)
    · cases h
    · obtain rfl : offset = k := by omega
      exact hk
  · exact fun h => .inr ⟨offset, h, by omega⟩

/-- The position after a character: the next line after a line feed, else the next column. -/
def Position.advance (p : Position) (c : Char) : Position := if c == '\n' then ⟨p.row + 1, 1⟩ else p.next

/-- A character leads from its position to the position of the next one. -/
theorem Position.ofOffset_succ {text : List Char} {offset : Nat} {c : Char} (h : text[offset]? = some c) :
    ofOffset (lineStarts text) (offset + 1) = (ofOffset (lineStarts text) offset).advance c := by
  have hrow := rowOf_succ (pairwise_lineStarts text) offset
  simp only [succ_mem_lineStarts, h, Option.some.injEq] at hrow
  unfold advance
  by_cases hc : c = '\n'
  · subst hc
    have hmem := getD_rowOf_of_mem (pairwise_lineStarts text) (succ_mem_lineStarts.2 h)
    simp only [ofOffset, hmem, beq_self_eq_true, if_true]
    rw [hrow, if_pos rfl, Nat.sub_self]
  · have hle := getD_rowOf_le (pairwise_lineStarts text) (rowOf_lineStarts_pos text offset)
    simp only [if_neg hc, Nat.add_zero] at hrow
    simp only [ofOffset, hrow, beq_iff_eq, if_neg hc, next, Position.mk.injEq, true_and]
    omega

/-- A text begins at its first position. -/
theorem Position.ofOffset_zero (text : List Char) : ofOffset (lineStarts text) 0 = ⟨1, 1⟩ := by
  have hnone : ∀ o ∈ lineStartsFrom 0 text, ¬ o = 0 := fun o ho => Nat.ne_of_gt (lt_of_mem_lineStartsFrom ho)
  simpa [ofOffset, rowOf, lineStarts] using hnone

/-- The place after a part of a text. -/
theorem Position.foldl_advance {source : List Char} : ∀ {part rest : List Char} {offset : Nat},
    source.drop offset = part ++ rest → part.foldl advance (ofOffset (lineStarts source) offset) =
      ofOffset (lineStarts source) (offset + part.length)
  | [], _, _, _ => rfl
  | c :: part, rest, offset, h => by
    have hc : source[offset]? = some c := by rw [← List.head?_drop, h]; rfl
    have hrest : source.drop (offset + 1) = part ++ rest := by rw [← List.drop_drop, h]; rfl
    have hoffset : offset + (c :: part).length = offset + 1 + part.length := by rw [List.length_cons]; omega
    rw [List.foldl_cons, ← ofOffset_succ hc, foldl_advance hrest, hoffset]

/-- The position of an offset is told by the characters before it. -/
theorem Position.foldl_advance_take {text : List Char} {offset : Nat} (h : offset ≤ text.length) :
    (text.take offset).foldl advance ⟨1, 1⟩ = ofOffset (lineStarts text) offset := by
  have hcut : text.drop 0 = text.take offset ++ text.drop offset := (List.take_append_drop offset text).symm
  rw [← ofOffset_zero text, foldl_advance hcut, Nat.zero_add, List.length_take_of_le h]

/-- The lines of a text start where its line feeds tell. -/
theorem lineStartsFrom_congr : ∀ {cs ds : List Char} (offset : Nat), cs.map (· == '\n') = ds.map (· == '\n') →
    lineStartsFrom offset cs = lineStartsFrom offset ds
  | [], [], _, _ => rfl
  | c :: cs, d :: ds, offset, h => by
    rw [List.map_cons, List.map_cons, List.cons_eq_cons] at h
    rw [lineStartsFrom, lineStartsFrom, h.1, lineStartsFrom_congr _ h.2]

/-! ## Back and forth -/

namespace Position

/-- A position leads back to its offset. -/
theorem toOffset_ofOffset (text : List Char) (offset : Nat) :
    toOffset (lineStarts text) (ofOffset (lineStarts text) offset) = offset := by
  have hle := getD_rowOf_le (pairwise_lineStarts text) (rowOf_lineStarts_pos text offset)
  simp only [toOffset, ofOffset]
  omega

/-- The position after that of an offset leads to the next offset. -/
theorem toOffset_next (text : List Char) (offset : Nat) :
    toOffset (lineStarts text) (ofOffset (lineStarts text) offset).next = offset + 1 := by
  have h := toOffset_ofOffset text offset
  simp only [toOffset, ofOffset, next] at h ⊢
  omega

/-- Two offsets have different positions. -/
theorem ofOffset_injective {text : List Char} {a b : Nat}
    (h : ofOffset (lineStarts text) a = ofOffset (lineStarts text) b) : a = b := by
  rw [← toOffset_ofOffset text a, h, toOffset_ofOffset]

end Position

end ElmLint
