import ElmLint.Proofs.LaidOut

/-!
# A laid-out text piece by piece

`Layout.laid` writes a laid-out text piece by piece: comments blanked out, blanks as they are, tokens with their markers before
them, and after the last token the markers that close what is still open. It is the text that layout gives
(`Scanned.exists_pieces`). What can be seen of a laid-out text, its characters other than blanks and markers, are characters of the
tokens; their positions are told by the tokens alone (`seen_ofScanned`).
-/

namespace ElmLint

namespace Layout

/-! ## Markers token by token -/

/-- The markers before the tokens and after the last one, in a state. -/
def insertionsFrom : State → List Token → List (Nat × Marker)
  | _, [] => []
  | s, t :: ts =>
    (step s t).1.map (t.start, ·) ++
      ((if ts.isEmpty then (step s t).2.blocks.map fun _ => (t.stop, .closing) else []) ++ insertionsFrom (step s t).2 ts)

theorem insertions_eq_insertionsFrom (tokens : List Token) : insertions tokens = insertionsFrom .start tokens := by
  have hall : ∀ (ts : List Token) (s : State),
      beforeTokens ts (placeFrom s ts).1 ++ afterTokens ts (placeFrom s ts).2 = insertionsFrom s ts := by
    intro ts
    induction ts with
    | nil => exact fun _ => rfl
    | cons t ts ih =>
      intro s
      rw [insertionsFrom, ← ih]
      have hbefore : beforeTokens (t :: ts) (placeFrom s (t :: ts)).1 =
          (step s t).1.map (t.start, ·) ++ beforeTokens ts (placeFrom (step s t).2 ts).1 := rfl
      rw [hbefore, List.append_assoc]
      congr 1
      cases ts with
      | nil => exact (List.append_nil _).symm
      | cons u us => rfl
  exact (insertions_eq tokens).trans (hall tokens .start)

/-- Markers stand at the ends of tokens. -/
theorem le_of_mem_insertionsFrom {bound : Nat} : ∀ {ts : List Token} {s : State},
    (∀ t ∈ ts, bound ≤ t.start ∧ t.start ≤ t.stop) → ∀ i ∈ insertionsFrom s ts, bound ≤ i.1
  | [], _, _, i, hi => by cases hi
  | t :: ts, s, h, i, hi => by
    obtain ⟨hstart, hstop⟩ := h t List.mem_cons_self
    rw [insertionsFrom, List.mem_append, List.mem_append] at hi
    rcases hi with hi | hi | hi
    · obtain ⟨m, -, rfl⟩ := List.mem_map.1 hi
      exact hstart
    · split at hi
      · obtain ⟨b, -, rfl⟩ := List.mem_map.1 hi
        exact Nat.le_trans hstart hstop
      · cases hi
    · exact le_of_mem_insertionsFrom (fun u hu => h u (List.mem_cons_of_mem t hu)) i hi

/-- Text before all markers is written as it is. -/
theorem insertFrom_append {is : List (Nat × Marker)} (bs : List Char) : ∀ (as : List Char) (offset : Nat),
    (∀ i ∈ is, offset + as.length ≤ i.1) → insertFrom offset is (as ++ bs) = as ++ insertFrom (offset + as.length) is bs
  | [], _, _ => rfl
  | a :: as, offset, h => by
    have hoffset : offset + (a :: as).length = offset + 1 + as.length := by rw [List.length_cons]; omega
    rw [hoffset] at h ⊢
    cases is with
    | nil => simp [insertFrom]
    | cons i is =>
      rw [List.cons_append, insertFrom_later _ _ _ (by have := h i List.mem_cons_self; omega),
        insertFrom_append bs as (offset + 1) h, List.cons_append]

/-- Markers whose place is reached are written next. -/
theorem insertFrom_map {offset : Nat} {α : Type} (marker : α → Marker) (is : List (Nat × Marker)) (cs : List Char) :
    ∀ as : List α, insertFrom offset (as.map (fun a => (offset, marker a)) ++ is) cs =
      as.map (fun a => (marker a).char) ++ insertFrom offset is cs
  | [] => rfl
  | a :: as => by
    rw [List.map_cons, List.cons_append, insertFrom_here _ _ (Nat.le_refl offset), insertFrom_map marker is cs as]
    rfl

/-! ## The text piece by piece -/

/-- The laid-out text of some pieces, in a state. -/
def laid (starts : List Nat) : State → List Piece → List Char
  | _, [] => []
  | s, p :: ps =>
    match p.token? starts with
    | none => p.visible ++ laid starts s ps
    | some t =>
      (step s t).1.map Marker.char ++ (p.text ++
        ((if (ps.filterMap (Piece.token? starts)).isEmpty then (step s t).2.blocks.map fun _ => Marker.closing.char else []) ++
          laid starts (step s t).2 ps))

theorem visible_of_token? {starts : List Nat} {p : Piece} {t : Token} (h : p.token? starts = some t) : p.visible = p.text := by
  unfold Piece.token? at h
  split at h
  · next kind hkind => rw [Piece.visible, hkind, if_neg nofun]
  · cases h

/-- Writing the markers of some pieces into what is visible of them gives their laid-out text. -/
theorem insertFrom_flatMap_visible (starts : List Nat) {offset : Nat} {ps : List Piece} {cs : List Char}
    (h : Tiles offset ps cs) : ∀ s : State,
      insertFrom offset (insertionsFrom s (ps.filterMap (Piece.token? starts))) (ps.flatMap Piece.visible) =
        laid starts s ps := by
  induction h with
  | nil => exact fun _ => rfl
  | @cons offset p ps cs hstart htext hfirst htail ih =>
    intro s
    have hlater : ∀ (s : State), ∀ i ∈ insertionsFrom s (ps.filterMap (Piece.token? starts)), p.stop ≤ i.1 := by
      intro s
      refine le_of_mem_insertionsFrom fun t ht => ?_
      obtain ⟨q, hq, hqt⟩ := List.mem_filterMap.1 ht
      obtain ⟨hqstart, hqstop⟩ := Piece.token?_eq_some hqt
      have := htail.bounds q hq
      omega
    have hstop : offset + p.visible.length = p.stop := by rw [Tiles.length_visible, Piece.stop, hstart]
    cases ht : p.token? starts with
    | none =>
      rw [List.filterMap_cons_none ht, List.flatMap_cons, laid, ht]
      simp only
      rw [insertFrom_append _ _ _ (by rw [hstop]; exact hlater s), hstop, ih]
    | some t =>
      obtain ⟨htstart, htstop⟩ := Piece.token?_eq_some ht
      rw [List.filterMap_cons_some ht, List.flatMap_cons, laid, ht, insertionsFrom, htstart, htstop, hstart]
      simp only
      refine (insertFrom_map (fun m => m) _ _ (step s t).1).trans (congrArg _ ?_)
      rw [insertFrom_append, hstop, visible_of_token? ht]
      · refine congrArg _ ?_
        split
        · rw [insertFrom_map fun _ => .closing, ih]
        · rw [List.nil_append, List.nil_append, ih]
      · rw [hstop]
        intro i hi
        rcases List.mem_append.1 hi with hi | hi
        · split at hi
          · obtain ⟨b, -, rfl⟩ := List.mem_map.1 hi
            exact Nat.le_refl _
          · cases hi
        · exact hlater _ i hi

end Layout

/-- The pieces of a source, its text and its tokens. -/
theorem Scanned.exists_pieces {source : List Char} {s : Scanned} (h : Scanned.ofSource source = .ok s) :
    ∃ ps, Tiles 0 ps source ∧ s.tokens = ps.filterMap (Piece.token? (lineStarts source)) ∧
      s.text = ps.flatMap Piece.visible ∧
      (LaidOut.ofScanned source s).text = Layout.laid (lineStarts source) .start ps := by
  obtain ⟨ps, htiles, htext, htokens⟩ := Scanned.exists_tiles h
  refine ⟨ps, htiles, htokens, htext, ?_⟩
  rw [← Layout.insertFrom_flatMap_visible _ htiles, ← htokens, ← htext, ← Layout.insertions_eq_insertionsFrom]
  rfl

/-! ## What can be seen -/

namespace LaidOut

/-- The places of the characters of a text other than blanks and markers, when `place` tells the place of an offset. -/
def seenFrom (place : Nat → Position) : Nat → List Char → List Position
  | _, [] => []
  | offset, c :: cs => if isFiller c then seenFrom place (offset + 1) cs else place offset :: seenFrom place (offset + 1) cs

/-- The positions of what can be seen of a laid-out text. -/
def seen (l : LaidOut) : List Position := seenFrom l.position 0 l.text

theorem seenFrom_append (place : Nat → Position) : ∀ (as : List Char) (offset : Nat) (bs : List Char),
    seenFrom place offset (as ++ bs) = seenFrom place offset as ++ seenFrom place (offset + as.length) bs
  | [], _, _ => rfl
  | a :: as, offset, bs => by
    have hoffset : offset + (a :: as).length = offset + 1 + as.length := by rw [List.length_cons]; omega
    rw [List.cons_append, seenFrom, seenFrom, seenFrom_append place as, hoffset]
    split <;> rfl

theorem seenFrom_eq_nil {place : Nat → Position} {cs : List Char} (h : ∀ c ∈ cs, isFiller c = true) (offset : Nat) :
    seenFrom place offset cs = [] := by
  induction cs generalizing offset with
  | nil => rfl
  | cons c cs ih => rw [seenFrom, if_pos (h c List.mem_cons_self), ih fun d hd => h d (List.mem_cons_of_mem c hd)]

theorem isFiller_char (m : Marker) : isFiller m.char = true := by cases m <;> rfl

/-- When as many markers as are written before an offset of the text have been written, that offset is the source offset. -/
theorem sourceOffset_written {l : LaidOut} {written is : List (Nat × Marker)} {offset : Nat}
    (hmarkers : l.markers = Layout.markerOffsetsFrom 0 (written ++ is)) (hwritten : ∀ i ∈ written, i.1 ≤ offset)
    (his : ∀ i ∈ is, offset ≤ i.1) : l.sourceOffset (offset + written.length) = offset := by
  have hfirst : (Layout.markerOffsetsFrom 0 written).countP (· < offset + written.length) = written.length := by
    have hall := Layout.lt_of_mem_markerOffsetsFrom hwritten
    rw [List.countP_eq_length.2 fun o ho => by simpa using hall o ho]
    simp [Layout.markerOffsetsFrom]
  have hrest : (Layout.markerOffsetsFrom (0 + written.length) is).countP (· < offset + written.length) = 0 := by
    refine List.countP_eq_zero.2 fun o ho => ?_
    have := Layout.le_of_mem_markerOffsetsFrom his o ho
    simp only [decide_eq_true_eq]
    omega
  rw [sourceOffset, hmarkers, Layout.markerOffsetsFrom_append, List.countP_append, hfirst, hrest]
  omega

theorem position_written {l : LaidOut} {written is : List (Nat × Marker)} {offset : Nat}
    (hmarkers : l.markers = Layout.markerOffsetsFrom 0 (written ++ is)) (hwritten : ∀ i ∈ written, i.1 ≤ offset)
    (his : ∀ i ∈ is, offset ≤ i.1) (hlt : offset < l.source.length) :
    l.position (offset + written.length) = Position.ofOffset l.starts offset := by
  rw [position, sourceOffset_written hmarkers hwritten his, Nat.min_eq_left (by omega)]

/-- Writing markers into a text changes nothing of what can be seen of it. -/
theorem seenFrom_insertFrom {l : LaidOut} : ∀ (cs : List Char) (is written : List (Nat × Marker)) (offset : Nat),
    l.markers = Layout.markerOffsetsFrom 0 (written ++ is) → Layout.Ascending is → (∀ i ∈ written, i.1 ≤ offset) →
    (∀ i ∈ is, offset ≤ i.1) → offset + cs.length ≤ l.source.length →
    seenFrom l.position (offset + written.length) (Layout.insertFrom offset is cs) =
      seenFrom (Position.ofOffset l.starts) offset cs
  | [], is, written, offset, _, _, _, _, _ => by
    have hnone : ∀ c ∈ Layout.insertFrom offset is [], isFiller c = true := by
      intro c hc
      cases is with
      | nil => cases hc
      | cons i is =>
        obtain ⟨j, -, rfl⟩ := List.mem_map.1 hc
        exact isFiller_char j.2
    rw [seenFrom_eq_nil hnone]
    rfl
  | c :: cs, [], written, offset, hmarkers, hasc, hwritten, his, hlength => by
    rw [List.length_cons] at hlength
    have ih := seenFrom_insertFrom cs [] written (offset + 1) hmarkers hasc
      (fun i hi => Nat.le_succ_of_le (hwritten i hi)) nofun (by omega)
    have hplace := position_written hmarkers hwritten his (by omega)
    rw [Nat.add_right_comm] at ih
    simp only [Layout.insertFrom] at ih ⊢
    rw [seenFrom, seenFrom, ih, hplace]
  | c :: cs, i :: is, written, offset, hmarkers, hasc, hwritten, his, hlength => by
    obtain ⟨hle, hasc'⟩ := List.pairwise_cons.1 hasc
    by_cases hhere : i.1 ≤ offset
    · have ih := seenFrom_insertFrom (c :: cs) is (written ++ [i]) offset (by simpa using hmarkers) hasc'
        (fun j hj => by
          rcases List.mem_append.1 hj with hj | hj
          · exact hwritten j hj
          · rwa [List.mem_singleton.1 hj])
        (fun j hj => his j (List.mem_cons_of_mem i hj)) hlength
      rw [Layout.insertFrom_here is _ hhere, seenFrom, if_pos (isFiller_char i.2), ← ih, List.length_append,
        List.length_singleton, Nat.add_assoc]
    · rw [List.length_cons] at hlength
      have hlater : ∀ j ∈ i :: is, offset + 1 ≤ j.1 := by
        intro j hj
        rcases List.mem_cons.1 hj with rfl | hj
        · omega
        · have := hle j hj
          omega
      have ih := seenFrom_insertFrom cs (i :: is) written (offset + 1) hmarkers hasc
        (fun j hj => Nat.le_succ_of_le (hwritten j hj)) hlater (by omega)
      have hplace := position_written hmarkers hwritten his (by omega)
      rw [Nat.add_right_comm] at ih
      rw [Layout.insertFrom_later is c cs (Nat.lt_of_not_le hhere), seenFrom, seenFrom, ih, hplace]

end LaidOut

/-! ## What can be seen of tokens -/

/-- The positions of the characters of a text other than blanks and markers, when the text begins at a position. -/
def Position.seenAt : Position → List Char → List Position
  | _, [] => []
  | p, c :: cs => if LaidOut.isFiller c then seenAt (p.advance c) cs else p :: seenAt (p.advance c) cs

/-- The positions of what can be seen of a token. -/
def Token.seen (t : Token) : List Position := Position.seenAt ⟨t.line, t.column⟩ t.text.toList

/-- What can be seen of a part of a text is told by the position that it begins at. -/
theorem LaidOut.seenFrom_ofOffset {source : List Char} : ∀ {part rest : List Char} {offset : Nat},
    source.drop offset = part ++ rest →
    seenFrom (Position.ofOffset (lineStarts source)) offset part =
      Position.seenAt (Position.ofOffset (lineStarts source) offset) part
  | [], _, _, _ => rfl
  | c :: part, rest, offset, h => by
    have hc : source[offset]? = some c := by rw [← List.head?_drop, h]; rfl
    have hrest : source.drop (offset + 1) = part ++ rest := by rw [← List.drop_drop, h]; rfl
    rw [seenFrom, Position.seenAt, seenFrom_ofOffset hrest, Position.ofOffset_succ hc]

theorem Piece.isBlank_visible {p : Piece} {starts : List Nat} (h : p.token? starts = none) {cs : List Char}
    (hfirst : firstPiece? (p.text ++ cs) = some (p.kind, p.text.length)) : ∀ c ∈ p.visible, isBlank c = true := by
  intro c hc
  cases hkind : p.kind with
  | token kind =>
    rw [Piece.token?, hkind] at h
    cases h
  | comment =>
    rw [Piece.visible, if_pos hkind] at hc
    obtain ⟨d, -, rfl⟩ := List.mem_map.1 hc
    split
    · next hd => rw [beq_iff_eq.1 hd]; rfl
    · rfl
  | blank =>
    rw [Piece.visible, hkind, if_neg nofun] at hc
    rw [hkind] at hfirst
    exact isBlank_of_firstPiece? hfirst c hc

theorem LaidOut.isFiller_of_isBlank {c : Char} (h : isBlank c = true) : isFiller c = true := by rw [isFiller, h, Bool.true_or]

/-- What can be seen of a scanned text is what can be seen of its tokens. -/
theorem Tiles.seen {source : List Char} {offset : Nat} {ps : List Piece} {cs : List Char} (h : Tiles offset ps cs) :
    source.drop offset = cs → LaidOut.seenFrom (Position.ofOffset (lineStarts source)) offset (ps.flatMap Piece.visible) =
      (ps.filterMap (Piece.token? (lineStarts source))).flatMap Token.seen := by
  induction h with
  | nil => exact fun _ => rfl
  | @cons offset p ps cs hstart htext hfirst htail ih =>
    intro hsource
    have hstop : offset + p.visible.length = p.stop := by rw [length_visible, Piece.stop, hstart]
    have hrest : source.drop p.stop = cs := by
      rw [Piece.stop, hstart, ← List.drop_drop, hsource, List.drop_left]
    rw [List.flatMap_cons, LaidOut.seenFrom_append, hstop, ih hrest]
    cases ht : p.token? (lineStarts source) with
    | none =>
      have hfiller : ∀ c ∈ p.visible, LaidOut.isFiller c = true :=
        fun c hc => LaidOut.isFiller_of_isBlank (Piece.isBlank_visible ht hfirst c hc)
      rw [List.filterMap_cons_none ht, LaidOut.seenFrom_eq_nil hfiller, List.nil_append]
    | some t =>
      have hseen : LaidOut.seenFrom (Position.ofOffset (lineStarts source)) offset p.visible = t.seen := by
        rw [Layout.visible_of_token? ht, LaidOut.seenFrom_ofOffset hsource]
        unfold Piece.token? at ht
        split at ht
        · cases ht
          rw [Token.seen, String.toList_ofList, hstart]
        · cases ht
      rw [List.filterMap_cons_some ht, List.flatMap_cons, hseen]

/-- What can be seen of a laid-out text is what can be seen of the scanned text. -/
theorem LaidOut.seen_eq_seenFrom {source : List Char} {s : Scanned} (h : Scanned.ofSource source = .ok s) :
    (ofScanned source s).seen = seenFrom (Position.ofOffset (lineStarts source)) 0 s.text :=
  seenFrom_insertFrom (l := ofScanned source s) s.text (Layout.insertions s.tokens) [] 0 rfl
    (Layout.ascending_insertions h) nofun (fun _ _ => Nat.zero_le _) (by simp [Scanned.length_text h, ofScanned])

/-- What can be seen of a laid-out text is told by the tokens. -/
theorem LaidOut.seen_ofScanned {source : List Char} {s : Scanned} (h : Scanned.ofSource source = .ok s) :
    (ofScanned source s).seen = s.tokens.flatMap Token.seen := by
  obtain ⟨ps, htiles, htokens, htext, -⟩ := Scanned.exists_pieces h
  rw [htokens, ← htiles.seen (rfl : source.drop 0 = source), ← htext]
  exact seen_eq_seenFrom h

end ElmLint
