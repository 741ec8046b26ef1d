import ElmLint.Layout
import ElmLint.Proofs.Position
import ElmLint.Proofs.Token
import Mathlib.Data.List.TakeWhile

/-!
# Offsets of a laid-out text

Markers are written before tokens, in ascending order. A character of the laid-out text is either a marker that layout has
written, or the character of the scanned source at its source offset (`insertFrom_getElem?`). Source offsets ascend with the
offsets of characters that are no such markers (`sourceOffset_lt`), so these characters have different positions
(`position_injective`), and a range that begins with a character other than a blank or a marker starts at its position
(`range_start`).

All of this holds of a laid-out source as `WellMarked`, and nothing else is used of it.
-/

namespace ElmLint

theorem Marker.char_injective : Function.Injective Marker.char := by
  intro m m' h
  cases m <;> cases m' <;> first | rfl | cases h

namespace Layout

/-! ## Where markers are written -/

/-- Offsets that do not descend. -/
abbrev Ascending (is : List (Nat × Marker)) : Prop := is.Pairwise fun i j => i.1 ≤ j.1

/-- The markers before the tokens, token by token. -/
def beforeTokens (tokens : List Token) (before : List (List Marker)) : List (Nat × Marker) :=
  (tokens.zip before).flatMap fun (t, markers) => markers.map (t.start, ·)

theorem mem_beforeTokens : ∀ {tokens : List Token} {before : List (List Marker)} {i : Nat × Marker},
    i ∈ beforeTokens tokens before → ∃ t ∈ tokens, i.1 = t.start
  | tokens, before, i, h => by
    obtain ⟨⟨t, markers⟩, hz, hi⟩ := List.mem_flatMap.1 h
    obtain ⟨m, -, rfl⟩ := List.mem_map.1 hi
    exact ⟨t, (List.of_mem_zip hz).1, rfl⟩

theorem ascending_beforeTokens : ∀ {tokens : List Token} (before : List (List Marker)),
    tokens.Pairwise (fun t u => t.start ≤ u.start) → Ascending (beforeTokens tokens before)
  | [], _, _ => List.Pairwise.nil
  | _ :: _, [], _ => List.Pairwise.nil
  | t :: tokens, markers :: before, h => by
    obtain ⟨hle, htokens⟩ := List.pairwise_cons.1 h
    have hsplit : beforeTokens (t :: tokens) (markers :: before) = markers.map (t.start, ·) ++ beforeTokens tokens before := by
      simp [beforeTokens]
    rw [hsplit]
    refine List.pairwise_append.2 ⟨?_, ascending_beforeTokens before htokens, ?_⟩
    · exact List.pairwise_map.2 (List.pairwise_of_forall fun _ _ => Nat.le_refl _)
    · intro i hi j hj
      obtain ⟨m, -, rfl⟩ := List.mem_map.1 hi
      obtain ⟨u, hu, hj⟩ := mem_beforeTokens hj
      rw [hj]
      exact hle u hu

/-- The closing markers after the last token. -/
def afterTokens (tokens : List Token) (left : List Block) : List (Nat × Marker) :=
  match tokens.getLast? with
  | some last => left.map fun _ => (last.stop, .closing)
  | none => []

theorem insertions_eq (tokens : List Token) : insertions tokens =
    beforeTokens tokens (placeFrom .start tokens).1 ++ afterTokens tokens (placeFrom .start tokens).2 := rfl

theorem mem_afterTokens {tokens : List Token} {left : List Block} {i : Nat × Marker} (h : i ∈ afterTokens tokens left) :
    ∃ last, tokens.getLast? = some last ∧ i = (last.stop, .closing) := by
  unfold afterTokens at h
  split at h
  · next last hlast =>
    obtain ⟨b, -, rfl⟩ := List.mem_map.1 h
    exact ⟨last, hlast, rfl⟩
  · cases h

section Scanned

variable {source : List Char} {s : Scanned}

/-- Markers are written in ascending order. -/
theorem ascending_insertions (h : Scanned.ofSource source = .ok s) : Ascending (insertions s.tokens) := by
  have hbounds := Scanned.token_bounds h
  have hstarts : s.tokens.Pairwise fun t u => t.start ≤ u.start :=
    (Scanned.pairwise_tokens h).imp_of_mem fun {t u} ht _ hle => by
      have := (hbounds t ht).1
      omega
  rw [insertions_eq]
  refine List.pairwise_append.2 ⟨ascending_beforeTokens _ hstarts, ?_, ?_⟩
  · unfold afterTokens
    split
    · exact List.pairwise_map.2 (List.pairwise_of_forall fun _ _ => Nat.le_refl _)
    · exact List.Pairwise.nil
  · intro i hi j hj
    obtain ⟨t, ht, hit⟩ := mem_beforeTokens hi
    obtain ⟨last, hlast, rfl⟩ := mem_afterTokens hj
    obtain ⟨init, hinit⟩ := List.getLast?_eq_some_iff.1 hlast
    have hlt := (hbounds last (List.mem_of_getLast? hlast)).1
    rw [hit]
    rw [hinit] at ht hstarts
    rcases List.mem_append.1 ht with ht | ht
    · have := (List.pairwise_append.1 hstarts).2.2 t ht last (by simp)
      simp only
      omega
    · rw [List.mem_singleton.1 ht]
      exact Nat.le_of_lt hlt

/-- Markers are written inside the text or at its end. -/
theorem insertions_le (h : Scanned.ofSource source = .ok s) : ∀ i ∈ insertions s.tokens, i.1 ≤ s.text.length := by
  intro i hi
  rw [Scanned.length_text h]
  rw [insertions_eq] at hi
  rcases List.mem_append.1 hi with hi | hi
  · obtain ⟨t, ht, hit⟩ := mem_beforeTokens hi
    have := Scanned.token_bounds h t ht
    omega
  · obtain ⟨last, hlast, rfl⟩ := mem_afterTokens hi
    exact (Scanned.token_bounds h last (List.mem_of_getLast? hlast)).2

end Scanned

/-! ## The text with its markers -/

/-- A marker whose place is reached is written next. -/
theorem insertFrom_here {offset : Nat} {i : Nat × Marker} (is : List (Nat × Marker)) (cs : List Char)
    (h : i.1 ≤ offset) : insertFrom offset (i :: is) cs = i.2.char :: insertFrom offset is cs := by
  cases cs with
  | nil => cases is <;> simp [insertFrom]
  | cons c cs =>
    cases is with
    | nil => simp [insertFrom, h]
    | cons j is => simp [insertFrom, h]

/-- Before the place of the next marker comes a character of the text. -/
theorem insertFrom_later {offset : Nat} {i : Nat × Marker} (is : List (Nat × Marker)) (c : Char) (cs : List Char)
    (h : offset < i.1) : insertFrom offset (i :: is) (c :: cs) = c :: insertFrom (offset + 1) (i :: is) cs := by
  simp [insertFrom, Nat.not_le.2 h]

/-- Writing markers into a text keeps all its characters and all markers. -/
theorem perm_insertFrom : ∀ (cs : List Char) (offset : Nat) (is : List (Nat × Marker)),
    (insertFrom offset is cs).Perm (is.map (·.2.char) ++ cs)
  | cs, _, [] => by cases cs <;> exact .refl _
  | [], _, i :: is => by
    rw [insertFrom, List.append_nil]
    exact List.cons_ne_nil i is
  | c :: cs, offset, i :: is => by
    rw [insertFrom]
    · have ih := perm_insertFrom cs (offset + 1) ((i :: is).dropWhile (·.1 ≤ offset))
      have hsplit : (i :: is).map (·.2.char) = ((i :: is).takeWhile (·.1 ≤ offset)).map (·.2.char) ++
          ((i :: is).dropWhile (·.1 ≤ offset)).map (·.2.char) := by
        rw [← List.map_append, List.takeWhile_append_dropWhile]
      rw [hsplit, List.append_assoc]
      exact ((ih.cons c).trans List.perm_middle.symm).append_left _
    · exact List.cons_ne_nil i is

/-- The offsets that markers get, when `count` markers are written before them. -/
def markerOffsetsFrom (count : Nat) (is : List (Nat × Marker)) : List Nat :=
  (is.zipIdx count).map fun ((offset, _), count) => offset + count

theorem markerOffsetsFrom_cons (count : Nat) (i : Nat × Marker) (is : List (Nat × Marker)) :
    markerOffsetsFrom count (i :: is) = (i.1 + count) :: markerOffsetsFrom (count + 1) is := by
  simp [markerOffsetsFrom, List.zipIdx_cons]

theorem markerOffsetsFrom_append (count : Nat) (is js : List (Nat × Marker)) :
    markerOffsetsFrom count (is ++ js) = markerOffsetsFrom count is ++ markerOffsetsFrom (count + is.length) js := by
  rw [markerOffsetsFrom, List.zipIdx_append, List.map_append]
  rfl

theorem lt_of_mem_markerOffsetsFrom {offset : Nat} {is : List (Nat × Marker)} (h : ∀ i ∈ is, i.1 ≤ offset) :
    ∀ o ∈ markerOffsetsFrom 0 is, o < offset + is.length := by
  intro o ho
  obtain ⟨⟨i, k⟩, hik, rfl⟩ := List.mem_map.1 ho
  obtain ⟨-, hk, hmem⟩ := List.mem_zipIdx hik
  have := h i (hmem ▸ List.getElem_mem _)
  simp only
  omega

theorem le_of_mem_markerOffsetsFrom {bound : Nat} : ∀ {count : Nat} {is : List (Nat × Marker)},
    (∀ i ∈ is, bound ≤ i.1) → ∀ o ∈ markerOffsetsFrom count is, bound + count ≤ o
  | _, [], _, o, h => by cases h
  | count, i :: is, hle, o, h => by
    rw [markerOffsetsFrom_cons] at h
    rcases List.mem_cons.1 h with rfl | h
    · have := hle i (by simp)
      omega
    · have := le_of_mem_markerOffsetsFrom (fun j hj => hle j (by simp [hj])) o h
      omega

/-- Markers that all come later have later offsets too. -/
theorem markerOffsetsFrom_later {offset : Nat} {is : List (Nat × Marker)} (count : Nat) (h : ∀ i ∈ is, offset + 1 ≤ i.1) :
    offset + count ∉ markerOffsetsFrom count is ∧ (markerOffsetsFrom count is).countP (· < offset + count) = 0 := by
  have hall : ∀ o ∈ markerOffsetsFrom count is, offset + 1 + count ≤ o := le_of_mem_markerOffsetsFrom h
  constructor
  · intro hmem
    have := hall _ hmem
    omega
  · refine List.countP_eq_zero.2 fun o ho => ?_
    have := hall o ho
    simp only [decide_eq_true_eq]
    omega

/-- Every marker has an offset of its own. -/
theorem pairwise_markerOffsetsFrom : ∀ (count : Nat) {is : List (Nat × Marker)}, Ascending is →
    (markerOffsetsFrom count is).Pairwise (· < ·)
  | _, [], _ => List.Pairwise.nil
  | count, i :: is, h => by
    obtain ⟨hle, his⟩ := List.pairwise_cons.1 h
    rw [markerOffsetsFrom_cons]
    refine List.pairwise_cons.2 ⟨fun o ho => ?_, pairwise_markerOffsetsFrom _ his⟩
    have := le_of_mem_markerOffsetsFrom hle o ho
    omega

/-- Markers within a text are written one by one: the first of them stands here, or the first character of the text comes before
all of them. -/
@[elab_as_elim]
theorem insertInduction {motive : Nat → List (Nat × Marker) → List Char → Prop}
    (nil : ∀ offset cs, motive offset [] cs)
    (here : ∀ i is cs, motive i.1 is cs → motive i.1 (i :: is) cs)
    (later : ∀ offset i is c cs, (∀ j ∈ i :: is, offset + 1 ≤ j.1) → motive (offset + 1) (i :: is) cs →
      motive offset (i :: is) (c :: cs)) :
    ∀ (cs : List Char) (is : List (Nat × Marker)) (offset : Nat), Ascending is →
      (∀ i ∈ is, offset ≤ i.1 ∧ i.1 ≤ offset + cs.length) → motive offset is cs
  | cs, [], offset, _, _ => nil offset cs
  | cs, i :: is, offset, hasc, hbounds => by
    obtain ⟨hle, hasc'⟩ := List.pairwise_cons.1 hasc
    obtain ⟨hge, hend⟩ := hbounds i List.mem_cons_self
    have hrest := insertInduction nil here later cs is offset hasc' fun j hj => hbounds j (List.mem_cons_of_mem i hj)
    by_cases hhere : i.1 ≤ offset
    · obtain rfl : i.1 = offset := Nat.le_antisymm hhere hge
      exact here i is cs hrest
    · cases cs with
      | nil =>
        rw [List.length_nil] at hend
        omega
      | cons c cs =>
        have hlater : ∀ j ∈ i :: is, offset + 1 ≤ j.1 := by
          intro j hj
          rcases List.mem_cons.1 hj with rfl | hj
          · omega
          · have := hle j hj
            omega
        refine later offset i is c cs hlater (insertInduction nil here later cs (i :: is) (offset + 1) hasc fun j hj => ?_)
        have := (hbounds j hj).2
        rw [List.length_cons] at this
        exact ⟨hlater j hj, by omega⟩
  termination_by cs is => cs.length + is.length

/-- A character of a text with markers is a marker at one of their offsets, or the character of the text that comes after as
many characters, without the markers before it. -/
theorem insertFrom_getElem? (cs : List Char) (is : List (Nat × Marker)) (offset : Nat) (hasc : Ascending is)
    (hbounds : ∀ i ∈ is, offset ≤ i.1 ∧ i.1 ≤ offset + cs.length) : ∀ (count j : Nat) (ch : Char),
    (insertFrom offset is cs)[j]? = some ch →
      (offset + count + j ∈ markerOffsetsFrom count is ∧ ∃ m : Marker, ch = m.char) ∨
      (offset + count + j ∉ markerOffsetsFrom count is ∧
        (markerOffsetsFrom count is).countP (· < offset + count + j) ≤ j ∧
        cs[j - (markerOffsetsFrom count is).countP (· < offset + count + j)]? = some ch) := by
  refine insertInduction ?nil ?here ?later cs is offset hasc hbounds
  case nil =>
    intro offset cs count j ch h
    right
    simpa [markerOffsetsFrom, insertFrom] using h
  case here =>
    intro i is cs ih count j ch h
    rw [insertFrom_here is cs (Nat.le_refl _)] at h
    rw [markerOffsetsFrom_cons]
    cases j with
    | zero =>
      left
      exact ⟨by simp, i.2, by simpa using h.symm⟩
    | succ j =>
      have ih := ih (count + 1) j ch (by simpa using h)
      have hoff : i.1 + (count + 1) + j = i.1 + count + (j + 1) := by omega
      rw [hoff] at ih
      have hne : i.1 + count + (j + 1) ≠ i.1 + count := by omega
      have hlt : i.1 + count < i.1 + count + (j + 1) := by omega
      rcases ih with ⟨hmem, hm⟩ | ⟨hmem, hcount, hch⟩
      · exact .inl ⟨by simp [hmem], hm⟩
      · right
        simp only [List.mem_cons, hne, false_or, List.countP_cons, hlt, decide_true, if_true]
        refine ⟨hmem, by omega, ?_⟩
        rw [← hch]
        congr 1
        omega
  case later =>
    intro offset i is c cs hlater ih count j ch h
    rw [insertFrom_later is c cs (hlater i List.mem_cons_self)] at h
    cases j with
    | zero =>
      obtain ⟨hnot, hzero⟩ := markerOffsetsFrom_later count hlater
      refine .inr ⟨hnot, Nat.le_of_eq hzero, ?_⟩
      rw [Nat.add_zero, hzero]
      simpa using h
    | succ j =>
      have ih := ih count j ch (by simpa using h)
      have hoff : offset + 1 + count + j = offset + count + (j + 1) := by omega
      rw [hoff] at ih
      rcases ih with hmarker | ⟨hmem, hcount, hch⟩
      · exact .inl hmarker
      · refine .inr ⟨hmem, by omega, ?_⟩
        rw [← hch, show j + 1 - (markerOffsetsFrom count (i :: is)).countP (· < offset + count + (j + 1)) =
          j - (markerOffsetsFrom count (i :: is)).countP (· < offset + count + (j + 1)) + 1 by omega,
          List.getElem?_cons_succ]

theorem countP_lt_le {ms : List Nat} (h : ms.Pairwise (· < ·)) : ∀ n, ms.countP (· < n) ≤ n
  | 0 => by simp
  | n + 1 => by
    have ih := countP_lt_le h n
    rw [countP_lt_succ h]
    split <;> omega

end Layout

namespace LaidOut

/-! ## Source offsets and positions -/

/-- What a laid-out text owes its source: its lines are those of the source, every marker that layout has written has an offset
of its own, and what stands at all other offsets stands in the source. -/
structure WellMarked (l : LaidOut) : Prop where
  starts_eq : l.starts = lineStarts l.source
  pairwise_markers : l.markers.Pairwise (· < ·)
  char_at : ∀ offset ch, l.text[offset]? = some ch →
    (offset ∈ l.markers ∧ isMarker ch = true) ∨ (offset ∉ l.markers ∧ l.sourceOffset offset < l.source.length)

theorem isMarker_char (m : Marker) : isMarker m.char = true := by cases m <;> rfl

/-- A laid-out source is the layout of what scanning it gives. -/
theorem ofSource_ok_iff {source : List Char} {l : LaidOut} :
    ofSource source = .ok l ↔ ∃ s, Scanned.ofSource source = .ok s ∧ l = ofScanned source s := by
  unfold ofSource
  cases Scanned.ofSource source with
  | error e => exact iff_of_false nofun nofun
  | ok s => simp [Except.map, eq_comm]

/-- A character of a laid-out text that is no marker is the character of the scanned source at its source offset. -/
theorem getElem?_sourceOffset {source : List Char} {s : Scanned} (hs : Scanned.ofSource source = .ok s) {offset : Nat}
    {ch : Char} (h : (ofScanned source s).text[offset]? = some ch) :
    (offset ∈ (ofScanned source s).markers ∧ isMarker ch = true) ∨
      (offset ∉ (ofScanned source s).markers ∧ s.text[(ofScanned source s).sourceOffset offset]? = some ch) := by
  have hle := Layout.insertions_le hs
  have hat := Layout.insertFrom_getElem? s.text (Layout.insertions s.tokens) 0 (Layout.ascending_insertions hs)
    (fun i hi => ⟨Nat.zero_le _, by simpa using hle i hi⟩) 0 offset ch h
  simp only [Nat.zero_add] at hat
  rcases hat with ⟨hmem, m, rfl⟩ | ⟨hmem, -, hch⟩
  · exact .inl ⟨hmem, isMarker_char m⟩
  · exact .inr ⟨hmem, hch⟩

/-- Laying out a source marks it well. -/
theorem wellMarked_ofSource {source : List Char} {l : LaidOut} (h : ofSource source = .ok l) : l.WellMarked := by
  obtain ⟨s, hs, rfl⟩ := ofSource_ok_iff.1 h
  refine ⟨rfl, Layout.pairwise_markerOffsetsFrom 0 (Layout.ascending_insertions hs), fun offset ch hch => ?_⟩
  rcases getElem?_sourceOffset hs hch with hmarker | ⟨hmem, hch⟩
  · exact .inl hmarker
  · refine .inr ⟨hmem, ?_⟩
    have hlt := (List.getElem?_eq_some_iff.1 hch).1
    rw [Scanned.length_text hs] at hlt
    exact hlt

namespace WellMarked

variable {l : LaidOut} (hl : l.WellMarked)

include hl

/-- Past a marker the source offset stays, past any other character it moves on by one. -/
theorem sourceOffset_succ (n : Nat) : l.sourceOffset (n + 1) = l.sourceOffset n + if n ∈ l.markers then 0 else 1 := by
  have hle := Layout.countP_lt_le hl.pairwise_markers n
  simp only [sourceOffset, countP_lt_succ hl.pairwise_markers]
  split <;> omega

theorem sourceOffset_le {a : Nat} : ∀ {b : Nat}, a ≤ b → l.sourceOffset a ≤ l.sourceOffset b
  | 0, h => by
    obtain rfl : a = 0 := by omega
    exact Nat.le_refl _
  | b + 1, h => by
    rcases Nat.lt_or_eq_of_le h with hlt | rfl
    · have ih := sourceOffset_le (Nat.le_of_lt_succ hlt)
      rw [sourceOffset_succ hl]
      omega
    · exact Nat.le_refl _

/-- A character that is no marker comes before the later ones in the source too. -/
theorem sourceOffset_lt {a b : Nat} (ha : a ∉ l.markers) (hab : a < b) : l.sourceOffset a < l.sourceOffset b := by
  have hle := sourceOffset_le hl (Nat.succ_le_of_lt hab)
  rw [sourceOffset_succ hl, if_neg ha] at hle
  omega

/-- A character other than a marker is one of the source. -/
theorem of_not_isMarker {offset : Nat} {ch : Char} (h : l.text[offset]? = some ch) (hch : isMarker ch = false) :
    offset ∉ l.markers ∧ l.sourceOffset offset < l.source.length := by
  rcases hl.char_at offset ch h with ⟨-, hm⟩ | hin
  · rw [hch] at hm; cases hm
  · exact hin

/-- Two characters that are no markers have different positions. -/
theorem position_injective {a b : Nat} {ca cb : Char} (ha : l.text[a]? = some ca) (hca : isMarker ca = false)
    (hb : l.text[b]? = some cb) (hcb : isMarker cb = false) (h : l.position a = l.position b) : a = b := by
  obtain ⟨hamem, halt⟩ := of_not_isMarker hl ha hca
  obtain ⟨hbmem, hblt⟩ := of_not_isMarker hl hb hcb
  unfold position at h
  rw [hl.starts_eq] at h
  have hsame := Position.ofOffset_injective h
  have heq : l.sourceOffset a = l.sourceOffset b := by omega
  rcases Nat.lt_trichotomy a b with hlt | rfl | hlt
  · have := sourceOffset_lt hl hamem hlt
    omega
  · rfl
  · have := sourceOffset_lt hl hbmem hlt
    omega

end WellMarked

/-! ## Ranges -/

/-- A range that begins with a character other than a blank or a marker starts at its position. -/
theorem range_start {l : LaidOut} {start stop : Nat} {ch : Char} (hch : l.text[start]? = some ch)
    (hfiller : isFiller ch = false) (hlt : start < stop) : (l.range start stop).start = l.position start := by
  obtain ⟨n, rfl⟩ : ∃ n, stop = start + (n + 1) := ⟨stop - start - 1, by omega⟩
  have hslice : ∃ rest, (l.text.drop start).take (start + (n + 1) - start) = ch :: rest := by
    rw [Nat.add_sub_cancel_left, List.drop_eq_getElem?_toList_append, hch]
    exact ⟨_, rfl⟩
  obtain ⟨rest, hslice⟩ := hslice
  have hsize : ((ch :: rest).reverse.dropWhile isFiller).length ≠ 0 := by
    intro hzero
    have hall := List.dropWhile_eq_nil_iff.1 (List.length_eq_zero_iff.1 hzero)
    have := hall ch (by simp)
    rw [hfiller] at this
    cases this
  have hback : ¬ start + (n + 1) < start := by omega
  simp only [range, hslice, List.dropWhile_cons_of_neg (by simp [hfiller] : ¬ isFiller ch = true), Nat.sub_self,
    Nat.add_zero, if_neg hback, beq_iff_eq, if_neg hsize]

/-- A range runs from its first to its last character that is neither a blank nor a marker. -/
theorem range_of_slice {l : LaidOut} {start stop : Nat} {before core after : List Char} {first last : Char}
    (hslice : (l.text.drop start).take (stop - start) = before ++ core ++ after) (hle : start ≤ stop)
    (hbefore : ∀ c ∈ before, isFiller c = true) (hafter : ∀ c ∈ after, isFiller c = true)
    (hfirst : core.head? = some first) (hlast : core.getLast? = some last) (hfirst' : isFiller first = false)
    (hlast' : isFiller last = false) :
    l.range start stop = ⟨l.position (start + before.length), (l.position (start + before.length + core.length - 1)).next⟩ := by
  obtain ⟨inner, hinner⟩ := List.head?_eq_some_iff.1 hfirst
  obtain ⟨init, hinit⟩ := List.getLast?_eq_some_iff.1 hlast
  have htrimmed : (before ++ core ++ after).dropWhile isFiller = core ++ after := by
    rw [List.append_assoc, List.dropWhile_append_of_pos hbefore, hinner, List.cons_append,
      List.dropWhile_cons_of_neg (by simp [hfirst'])]
  have hsize : ((core ++ after).reverse.dropWhile isFiller).length = core.length := by
    rw [List.reverse_append, List.dropWhile_append_of_pos fun c hc => hafter c (List.mem_reverse.1 hc), hinit,
      List.reverse_append, List.reverse_singleton, List.singleton_append, List.dropWhile_cons_of_neg (by simp [hlast'])]
    simp
  have hpos : core.length ≠ 0 := by simp [hinner]
  have hskipped : (before ++ core ++ after).length - (core ++ after).length = before.length := by simp
  simp only [range, hslice, htrimmed, hsize, hskipped, if_neg (Nat.not_lt.2 hle), beq_iff_eq, if_neg hpos]

end LaidOut

end ElmLint
