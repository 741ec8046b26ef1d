import ElmLint.Proofs.LaidPieces
import Mathlib.Data.List.Count
import Mathlib.Data.Set.Function
import Mathlib.Order.Monotone.Defs

/-!
# Layout inserts nested markers and nothing else

Every step of layout leaves as many blocks open as its markers say: `Layout.Nests n ms n'` reads markers from left to right,
starting inside `n` blocks and ending inside `n'` of them, and never closes a block that is not open. All steps are of this kind,
whatever the tokens are (`nests_step`), and at the end what is open is closed (`nests_insertions`).

The markers stand in the text where they were inserted (`getElem?_insertFrom_marker`), and the text without them is the text that
was scanned (`erase_insertFrom`). A marker has the source offset that it was inserted at (`sourceOffset_insertion`). So the source
offsets of what is no marker are those of the source, in order (`bijOn_sourceOffset`), and between a marker and the
token it was inserted for there are only markers.

* `LaidOut.inserts_nested_markers`: all of this, for every source that can be scanned.
-/

namespace ElmLint

namespace Layout

/-! ## Nesting -/

/-- Read from left to right inside `n` open blocks, markers close none but open blocks and leave `n'` of them open. -/
inductive Nests : Nat → List Marker → Nat → Prop
  | nil (n : Nat) : Nests n [] n
  | opening {n n' : Nat} {ms : List Marker} (h : Nests (n + 1) ms n') : Nests n (.opening :: ms) n'
  | separating {n n' : Nat} {ms : List Marker} (h : Nests n ms n') : Nests n (.separating :: ms) n'
  | closing {n n' : Nat} {ms : List Marker} (h : Nests n ms n') : Nests (n + 1) (.closing :: ms) n'

namespace Nests

theorem append {n n' n'' : Nat} {ms ms' : List Marker} (h : Nests n ms n') (h' : Nests n' ms' n'') :
    Nests n (ms ++ ms') n'' := by
  induction h with
  | nil _ => exact h'
  | opening _ ih => exact .opening (ih h')
  | separating _ ih => exact .separating (ih h')
  | closing _ ih => exact .closing (ih h')

theorem exists_append {n n'' : Nat} {ms ms' : List Marker} (h : Nests n (ms ++ ms') n'') : ∃ n', Nests n ms n' := by
  induction ms generalizing n with
  | nil => exact ⟨n, .nil n⟩
  | cons m ms ih =>
    cases h with
    | opening h => exact (ih h).imp fun _ => .opening
    | separating h => exact (ih h).imp fun _ => .separating
    | closing h => exact (ih h).imp fun _ => .closing

/-- The blocks that are open at the end are those from the beginning and those opened, without those closed. -/
theorem count_eq {n n' : Nat} {ms : List Marker} (h : Nests n ms n') : n + ms.count .opening = n' + ms.count .closing := by
  induction h with
  | nil n => rfl
  | opening _ ih => simp only [List.count_cons_self, List.count_cons_of_ne, ne_eq, reduceCtorEq, not_false_eq_true]; omega
  | separating _ ih => simpa using ih
  | closing _ ih => simp only [List.count_cons_self, List.count_cons_of_ne, ne_eq, reduceCtorEq, not_false_eq_true]; omega

/-- Nothing is closed in a part at the beginning that was not open before or opened in it. -/
theorem count_take_le {n n' : Nat} {ms : List Marker} (h : Nests n ms n') (k : Nat) :
    (ms.take k).count .closing ≤ n + (ms.take k).count .opening := by
  rw [← List.take_append_drop k ms] at h
  obtain ⟨n', hn'⟩ := h.exists_append
  have := hn'.count_eq
  omega

end Nests

/-- Closing all open blocks. -/
theorem nests_map_closing {α : Type} : ∀ blocks : List α, Nests blocks.length (blocks.map fun _ => .closing) 0
  | [] => .nil 0
  | _ :: blocks => .closing (nests_map_closing blocks)

theorem nests_closeDeeper (column : Nat) : ∀ blocks : List Block,
    Nests blocks.length (closeDeeper column blocks).1 (closeDeeper column blocks).2.1.length
  | [] => .nil 0
  | b :: blocks => by
    unfold closeDeeper
    split
    · exact .closing (nests_closeDeeper column blocks)
    · exact .nil _

theorem nests_closeBracketed (depth : Nat) : ∀ blocks : List Block,
    Nests blocks.length (closeBracketed depth blocks).1 (closeBracketed depth blocks).2.length
  | [] => .nil 0
  | b :: blocks => by
    unfold closeBracketed
    split
    · exact .closing (nests_closeBracketed depth blocks)
    · exact .nil _

theorem nests_closeLet {depth : Nat} : ∀ {blocks left : List Block} {ms : List Marker},
    closeLet depth blocks = some (ms, left) → Nests blocks.length ms left.length
  | [], _, _, h => by cases h
  | b :: blocks, left, ms, h => by
    unfold closeLet at h
    split at h
    · cases h
    · split at h
      · cases h
        exact .closing (.nil _)
      · obtain ⟨⟨ms', left'⟩, hrest, heq⟩ := Option.map_eq_some_iff.1 h
        cases heq
        exact .closing (nests_closeLet hrest)

/-- Where a token stands changes the number of open blocks as its markers say. -/
theorem nests_indent (s : State) (t : Token) : Nests s.blocks.length (indent s t).1 (indent s t).2.blocks.length := by
  unfold indent
  split
  · exact .opening (.nil _)
  · split
    · have hclosed := nests_closeDeeper t.column s.blocks
      simp only
      split
      · exact hclosed.append (.separating (.nil _))
      · exact hclosed
    · exact .nil _

/-- So does what the token is. -/
theorem nests_delimit (s : State) (t : Token) : Nests s.blocks.length (delimit s t).1 (delimit s t).2.blocks.length := by
  unfold delimit
  split
  · split
    · exact .nil _
    · exact nests_closeBracketed s.depth s.blocks
  · split
    · exact .nil _
    · exact nests_closeBracketed s.depth s.blocks
  · split
    · exact .nil _
    · split
      · exact .nil _
      · split
        · split
          · exact .nil _
          · split
            · next hlet => exact nests_closeLet hlet
            · exact .nil _
        · exact .nil _
  · exact .nil _

theorem nests_step (s : State) (t : Token) : Nests s.blocks.length (step s t).1 (step s t).2.blocks.length :=
  (nests_indent s t).append (nests_delimit (indent s t).2 t)

/-- From some state on, the markers close what is open, if there is a token left to do so after. -/
theorem nests_insertionsFrom : ∀ (ts : List Token) (s : State),
    Nests s.blocks.length ((insertionsFrom s ts).map (·.2)) (if ts.isEmpty then s.blocks.length else 0)
  | [], s => .nil _
  | [t], s => by
    have hclosed := (nests_step s t).append (nests_map_closing (step s t).2.blocks)
    simpa [insertionsFrom, List.map_map, Function.comp_def] using hclosed
  | t :: u :: ts, s => by
    have hrest := (nests_step s t).append (nests_insertionsFrom (u :: ts) (step s t).2)
    rw [insertionsFrom]
    simpa [List.map_map, Function.comp_def] using hrest

/-- **Blocks nest.** Whatever the tokens are, their markers close none but open blocks, and all of them. -/
theorem nests_insertions (tokens : List Token) : Nests 0 ((insertions tokens).map (·.2)) 0 := by
  rw [insertions_eq_insertionsFrom]
  have hall := nests_insertionsFrom tokens .start
  split at hall <;> exact hall

/-! ## The text with its markers -/

theorem getElem?_markerOffsets (is : List (Nat × Marker)) (k : Nat) : (markerOffsets is)[k]? = is[k]?.map (·.1 + k) := by
  rw [markerOffsets, List.getElem?_map, List.getElem?_zipIdx, Option.map_map, Nat.zero_add]
  rfl

/-- The markers up to an offset come first. -/
theorem exists_split (n : Nat) : ∀ {is : List (Nat × Marker)}, Ascending is →
    ∃ written rest, is = written ++ rest ∧ (∀ i ∈ written, i.1 ≤ n) ∧ ∀ i ∈ rest, n + 1 ≤ i.1
  | [], _ => ⟨[], [], rfl, nofun, nofun⟩
  | i :: is, h => by
    obtain ⟨hle, his⟩ := List.pairwise_cons.1 h
    by_cases hi : i.1 ≤ n
    · obtain ⟨written, rest, rfl, hwritten, hrest⟩ := exists_split n his
      exact ⟨i :: written, rest, rfl, List.forall_mem_cons.2 ⟨hi, hwritten⟩, hrest⟩
    · refine ⟨[], i :: is, rfl, nofun, List.forall_mem_cons.2 ⟨Nat.lt_of_not_le hi, fun j hj => ?_⟩⟩
      exact Nat.lt_of_lt_of_le (Nat.lt_of_not_le hi) (hle j hj)

/-- Every marker stands where it was inserted, after those before it. -/
theorem getElem?_insertFrom_marker (cs : List Char) (is : List (Nat × Marker)) (offset : Nat) (hasc : Ascending is)
    (hbounds : ∀ i ∈ is, offset ≤ i.1 ∧ i.1 ≤ offset + cs.length) :
    ∀ (k : Nat) (i : Nat × Marker), is[k]? = some i → (insertFrom offset is cs)[i.1 - offset + k]? = some i.2.char := by
  refine insertInduction ?nil ?here ?later cs is offset hasc hbounds
  case nil =>
    intro offset cs k i h
    cases h
  case here =>
    intro j is cs ih k i h
    rw [insertFrom_here is cs (Nat.le_refl _)]
    cases k with
    | zero =>
      cases h
      rw [Nat.sub_self]
      rfl
    | succ k => rw [← Nat.add_assoc, List.getElem?_cons_succ, ih k i h]
  case later =>
    intro offset j is c cs hlater ih k i h
    have hi := hlater i (List.mem_of_getElem? h)
    have hsucc : i.1 - offset + k = i.1 - (offset + 1) + k + 1 := by omega
    rw [insertFrom_later is c cs (hlater j List.mem_cons_self), hsucc, List.getElem?_cons_succ, ih k i h]

/-- Deleting what stands at the offsets of the markers undoes their insertion. -/
theorem erase_insertFrom (cs : List Char) (is : List (Nat × Marker)) (offset : Nat) (hasc : Ascending is)
    (hbounds : ∀ i ∈ is, offset ≤ i.1 ∧ i.1 ≤ offset + cs.length) : ∀ count,
    (((insertFrom offset is cs).zipIdx (offset + count)).filter (·.2 ∉ markerOffsetsFrom count is)).map Prod.fst = cs := by
  refine insertInduction ?nil ?here ?later cs is offset hasc hbounds
  case nil =>
    intro offset cs count
    have hkept : (cs.zipIdx (offset + count)).filter (·.2 ∉ markerOffsetsFrom count []) = cs.zipIdx (offset + count) :=
      List.filter_eq_self.2 fun _ _ => rfl
    rw [insertFrom, hkept, List.zipIdx_map_fst]
  case here =>
    intro i is cs ih count
    have hmem : i.1 + count ∈ markerOffsetsFrom count (i :: is) := by simp [markerOffsetsFrom_cons]
    rw [insertFrom_here is cs (Nat.le_refl _), List.zipIdx_cons, List.filter_cons_of_neg (by simpa using hmem)]
    refine Eq.trans (congrArg _ (List.filter_congr fun c hc => ?_)) (ih (count + 1))
    have hne : c.2 ≠ i.1 + count := by
      have := (List.mem_zipIdx (x := c.1) (i := c.2) hc).1
      omega
    simp [markerOffsetsFrom_cons, hne]
  case later =>
    intro offset i is c cs hlater ih count
    have hnot := (markerOffsetsFrom_later count hlater).1
    rw [insertFrom_later is c cs (hlater i List.mem_cons_self), List.zipIdx_cons, List.filter_cons_of_pos (by simpa using hnot),
      List.map_cons, Nat.add_right_comm, ih]

end Layout

namespace LaidOut

/-- The characters at the offsets of the markers, from left to right. -/
def inserted (l : LaidOut) : List Char := l.markers.filterMap (l.text[·]?)

/-- Only markers stand between an offset and the first character of a token, and the offset is that of the token in the source. -/
def BeforeToken (l : LaidOut) (tokens : List Token) (o : Nat) : Prop :=
  ∃ t ∈ tokens, l.sourceOffset o = t.start ∧
    ∃ e, o < e ∧ (∀ x, o < x → x < e → x ∈ l.markers) ∧ e ∉ l.markers ∧ l.sourceOffset e = t.start ∧
      l.text[e]? = t.text.toList.head?

/-- Only markers stand between the last character of the last token and an offset, which closes a block. -/
def AfterTokens (l : LaidOut) (tokens : List Token) (o : Nat) : Prop :=
  l.text[o]? = some Marker.closing.char ∧ ∃ t, tokens.getLast? = some t ∧ l.sourceOffset o = t.stop ∧
    ∃ e, e < o ∧ (∀ x, e < x → x < o → x ∈ l.markers) ∧ e ∉ l.markers ∧ l.sourceOffset e + 1 = t.stop

end LaidOut

/-! ## Tokens in the scanned text -/

/-- The first character of a token stands in the scanned text where the token starts. -/
theorem Scanned.getElem?_start {source : List Char} {s : Scanned} (hs : ofSource source = .ok s) {t : Token} (ht : t ∈ s.tokens) :
    s.text[t.start]? = t.text.toList.head? := by
  obtain ⟨ps, htiles, htext, htokens⟩ := exists_tiles hs
  rw [htokens] at ht
  obtain ⟨p, hp, hpt⟩ := List.mem_filterMap.1 ht
  obtain ⟨rest, hrest⟩ := htiles.visible_prefix p hp
  have htoken : t.text.toList = p.text := by
    unfold Piece.token? at hpt
    split at hpt
    · cases hpt
      exact String.toList_ofList
    · cases hpt
  obtain ⟨c, more, hc⟩ := List.exists_cons_of_ne_nil (List.length_pos_iff.1 (by
    have := (htiles.bounds p hp).2.1
    rw [Piece.stop] at this
    omega : 0 < p.text.length))
  rw [Nat.sub_zero, Layout.visible_of_token? hpt] at hrest
  rw [htext, (Piece.token?_eq_some hpt).1, ← List.head?_drop, ← hrest, htoken, hc]
  rfl

namespace LaidOut

section Scanned

variable {source : List Char} {s : Scanned} (hs : Scanned.ofSource source = .ok s)

include hs

theorem insertions_bounds : ∀ i ∈ Layout.insertions s.tokens, 0 ≤ i.1 ∧ i.1 ≤ 0 + s.text.length :=
  fun i hi => ⟨Nat.zero_le _, by simpa using Layout.insertions_le hs i hi⟩

/-- The marker that was inserted at some point, after `k` others, stands after `k` more characters than there are before that
point. -/
theorem getElem?_insertion {k : Nat} {i : Nat × Marker} (h : (Layout.insertions s.tokens)[k]? = some i) :
    (ofScanned source s).text[i.1 + k]? = some i.2.char :=
  Layout.getElem?_insertFrom_marker s.text _ 0 (Layout.ascending_insertions hs) (insertions_bounds hs) k i h

/-- Its source offset is that point. -/
theorem sourceOffset_insertion {k : Nat} {i : Nat × Marker} (h : (Layout.insertions s.tokens)[k]? = some i) :
    (ofScanned source s).sourceOffset (i.1 + k) = i.1 := by
  obtain ⟨hk, rfl⟩ := List.getElem?_eq_some_iff.1 h
  have hsplit : (Layout.insertions s.tokens).take k ++ (Layout.insertions s.tokens)[k] :: (Layout.insertions s.tokens).drop (k + 1) =
      Layout.insertions s.tokens := by
    rw [← List.drop_eq_getElem_cons hk, List.take_append_drop]
  have hasc := Layout.ascending_insertions hs
  rw [← hsplit] at hasc
  obtain ⟨-, hrest, hbefore⟩ := List.pairwise_append.1 hasc
  have hafter : ∀ j ∈ (Layout.insertions s.tokens)[k] :: (Layout.insertions s.tokens).drop (k + 1),
      (Layout.insertions s.tokens)[k].1 ≤ j.1 :=
    List.forall_mem_cons.2 ⟨Nat.le_refl _, (List.pairwise_cons.1 hrest).1⟩
  have hwritten := sourceOffset_written (l := ofScanned source s) (congrArg (Layout.markerOffsetsFrom 0) hsplit.symm)
    (fun j hj => hbefore j hj _ List.mem_cons_self) hafter
  rwa [List.length_take_of_le (Nat.le_of_lt hk)] at hwritten

omit hs in
theorem exists_insertion {o : Nat} (ho : o ∈ (ofScanned source s).markers) :
    ∃ k i, (Layout.insertions s.tokens)[k]? = some i ∧ o = i.1 + k := by
  obtain ⟨k, hk⟩ := List.mem_iff_getElem?.1 ho
  rw [ofScanned, Layout.getElem?_markerOffsets] at hk
  obtain ⟨i, hi, rfl⟩ := Option.map_eq_some_iff.1 hk
  exact ⟨k, i, hi, rfl⟩

omit hs in
/-- What holds of each marker and its offset holds of them in their order. -/
theorem map_markers {β : Type} {f : Nat → β} {g : Nat × Marker → β}
    (h : ∀ k i, (Layout.insertions s.tokens)[k]? = some i → f (i.1 + k) = g i) :
    (ofScanned source s).markers.map f = (Layout.insertions s.tokens).map g := by
  refine List.ext_getElem? fun k => ?_
  rw [List.getElem?_map, ofScanned, Layout.getElem?_markerOffsets, List.getElem?_map]
  cases hk : (Layout.insertions s.tokens)[k]? with
  | none => rfl
  | some i => exact congrArg some (h k i hk)

/-- The characters at the offsets of the markers are the markers, in the order in which they were inserted. -/
theorem inserted_ofScanned : (ofScanned source s).inserted = (Layout.insertions s.tokens).map (·.2.char) := by
  have hat : (ofScanned source s).markers.map ((ofScanned source s).text[·]?) =
      (Layout.insertions s.tokens).map fun i => some i.2.char :=
    map_markers fun _ _ hi => getElem?_insertion hs hi
  calc (ofScanned source s).inserted
    _ = ((ofScanned source s).markers.map ((ofScanned source s).text[·]?)).filterMap id := by
      rw [List.filterMap_map]
      rfl
    _ = (Layout.insertions s.tokens).filterMap fun i => some i.2.char := by
      rw [hat, List.filterMap_map]
      rfl
    _ = (Layout.insertions s.tokens).map (·.2.char) := congrFun List.filterMap_eq_map _

/-- Every character of the source is one of the laid-out text, at an offset without a marker. -/
theorem exists_offset {n : Nat} (hn : n < source.length) : ∃ e, e < (ofScanned source s).text.length ∧
    e ∉ (ofScanned source s).markers ∧ (ofScanned source s).sourceOffset e = n := by
  obtain ⟨written, rest, hsplit, hwritten, hrest⟩ := Layout.exists_split n (Layout.ascending_insertions hs)
  have hmarkers : (ofScanned source s).markers = Layout.markerOffsetsFrom 0 (written ++ rest) :=
    congrArg (Layout.markerOffsetsFrom 0) hsplit
  refine ⟨n + written.length, ?_, ?_, ?_⟩
  · have hlength := (Layout.perm_insertFrom s.text 0 (Layout.insertions s.tokens)).length_eq
    rw [List.length_append, List.length_map, Scanned.length_text hs, hsplit, List.length_append] at hlength
    rw [ofScanned, hsplit, hlength]
    omega
  · rw [hmarkers, Layout.markerOffsetsFrom_append, List.mem_append]
    rintro (hmem | hmem)
    · exact absurd (Layout.lt_of_mem_markerOffsetsFrom hwritten _ hmem) (Nat.lt_irrefl _)
    · have := Layout.le_of_mem_markerOffsetsFrom hrest _ hmem
      omega
  · exact sourceOffset_written hmarkers hwritten fun i hi => Nat.le_of_succ_le (hrest i hi)

/-- The source offsets of what is no marker are those of the source. -/
theorem bijOn_sourceOffset : Set.BijOn (ofScanned source s).sourceOffset
    {o | o < (ofScanned source s).text.length ∧ o ∉ (ofScanned source s).markers} {n | n < source.length} := by
  have hmarked := wellMarked_ofSource (ofSource_ok_iff.2 ⟨s, hs, rfl⟩)
  refine ⟨fun o ho => ?_, fun o ho o' ho' heq => ?_, fun n hn => ?_⟩
  · rcases hmarked.char_at o _ (List.getElem?_eq_getElem ho.1) with ⟨hmem, -⟩ | ⟨-, hlt⟩
    · exact absurd hmem ho.2
    · exact hlt
  · rcases Nat.lt_trichotomy o o' with hlt | rfl | hlt
    · exact absurd heq (Nat.ne_of_lt (hmarked.sourceOffset_lt ho.2 hlt))
    · rfl
    · exact absurd heq.symm (Nat.ne_of_lt (hmarked.sourceOffset_lt ho'.2 hlt))
  · obtain ⟨e, he, hmem, rfl⟩ := exists_offset hs hn
    exact ⟨e, ⟨he, hmem⟩, rfl⟩

/-- Every marker stands before a token, or closes a block after the last one. -/
theorem beforeToken_or_afterTokens {o : Nat} (ho : o ∈ (ofScanned source s).markers) :
    (ofScanned source s).BeforeToken s.tokens o ∨ (ofScanned source s).AfterTokens s.tokens o := by
  have hmarked := wellMarked_ofSource (ofSource_ok_iff.2 ⟨s, hs, rfl⟩)
  obtain ⟨k, i, hi, rfl⟩ := exists_insertion ho
  have hoffset := sourceOffset_insertion hs hi
  have hplace := List.mem_of_getElem? hi
  rw [Layout.insertions_eq, List.mem_append] at hplace
  rcases hplace with hbefore | hafter
  · left
    obtain ⟨t, ht, hstart⟩ := Layout.mem_beforeTokens hbefore
    have hbounds := Scanned.token_bounds hs t ht
    obtain ⟨e, he, hmem, hsame⟩ := exists_offset hs (n := t.start) (by omega)
    have hlt : i.1 + k < e := by
      rcases Nat.lt_trichotomy (i.1 + k) e with hlt | rfl | hlt
      · exact hlt
      · exact absurd ho hmem
      · have := hmarked.sourceOffset_lt hmem hlt
        omega
    refine ⟨t, ht, hoffset.trans hstart, e, hlt, fun x hox hxe => ?_, hmem, hsame, ?_⟩
    · -- What is no marker would have a source offset between two that are equal.
      by_contra hx
      have := hmarked.sourceOffset_le (Nat.le_of_lt hox)
      have := hmarked.sourceOffset_lt hx hxe
      omega
    · rcases getElem?_sourceOffset hs (List.getElem?_eq_getElem he) with ⟨habs, -⟩ | ⟨-, hchar⟩
      · exact absurd habs hmem
      · rw [List.getElem?_eq_getElem he, ← hchar, hsame, Scanned.getElem?_start hs ht]
  · right
    obtain ⟨t, ht, hit⟩ := Layout.mem_afterTokens hafter
    have hstop : i.1 = t.stop := congrArg Prod.fst hit
    have hbounds := Scanned.token_bounds hs t (List.mem_of_getLast? ht)
    obtain ⟨e, -, hmem, hsame⟩ := exists_offset hs (n := t.stop - 1) (by omega)
    have hlt : e < i.1 + k := by
      by_contra hle
      have := hmarked.sourceOffset_le (Nat.le_of_not_lt hle)
      omega
    have hclosing : i.2 = .closing := congrArg Prod.snd hit
    refine ⟨hclosing ▸ getElem?_insertion hs hi, t, ht, hoffset.trans hstop, e, hlt, fun x hex hxo => ?_, hmem, by omega⟩
    -- What is no marker would have a source offset between two that follow each other.
    by_contra hx
    have := hmarked.sourceOffset_lt hmem hex
    have := hmarked.sourceOffset_lt hx hxo
    omega

end Scanned

/-- **Layout only inserts nested markers, and offsets lead back.** Take any source that can be scanned. It is laid out, and

* the offsets of its markers ascend strictly, and the characters at them are markers;
* without them the text is the scanned text;
* every marker is followed by other markers and then the first character of a token, or it closes a block right after the last
  token;
* read from left to right the markers never close more blocks than they have opened, and in the end all of them are closed;
* source offsets take the offsets without markers to those of the source, one to one and in order, and the offset of a marker
  to where it was inserted. -/
theorem inserts_nested_markers {source : List Char} {s : Scanned} (hs : Scanned.ofSource source = .ok s) :
    ∃ l, ofSource source = .ok l ∧ l.markers.Pairwise (· < ·) ∧
      (∀ o ∈ l.markers, ∃ m : Marker, l.text[o]? = some m.char) ∧
      (l.text.zipIdx.filter (·.2 ∉ l.markers)).map Prod.fst = s.text ∧
      (∀ o ∈ l.markers, l.BeforeToken s.tokens o ∨ l.AfterTokens s.tokens o) ∧
      (∀ n, (l.inserted.take n).count Marker.closing.char ≤ (l.inserted.take n).count Marker.opening.char) ∧
      l.inserted.count Marker.closing.char = l.inserted.count Marker.opening.char ∧
      Set.BijOn l.sourceOffset {o | o < l.text.length ∧ o ∉ l.markers} {n | n < source.length} ∧
      StrictMonoOn l.sourceOffset {o | o < l.text.length ∧ o ∉ l.markers} ∧
      l.markers.map l.sourceOffset = (Layout.insertions s.tokens).map Prod.fst := by
  have hlaid : ofSource source = .ok (ofScanned source s) := ofSource_ok_iff.2 ⟨s, hs, rfl⟩
  have hmarked := wellMarked_ofSource hlaid
  have hnests := Layout.nests_insertions s.tokens
  have hinserted : (ofScanned source s).inserted = ((Layout.insertions s.tokens).map (·.2)).map Marker.char := by
    rw [inserted_ofScanned hs, List.map_map]
    rfl
  have hcount : ∀ (ms : List Marker) (m : Marker), (ms.map Marker.char).count m.char = ms.count m :=
    fun ms m => List.count_map_of_injective ms _ Marker.char_injective m
  refine ⟨_, hlaid, hmarked.pairwise_markers, fun o ho => ?_, ?_, fun o ho => beforeToken_or_afterTokens hs ho, fun n => ?_, ?_,
    bijOn_sourceOffset hs, fun o ho o' _ hlt => hmarked.sourceOffset_lt ho.2 hlt,
    map_markers fun _ _ hi => sourceOffset_insertion hs hi⟩
  · obtain ⟨k, i, hi, rfl⟩ := exists_insertion ho
    exact ⟨i.2, getElem?_insertion hs hi⟩
  · exact Layout.erase_insertFrom s.text _ 0 (Layout.ascending_insertions hs) (insertions_bounds hs) 0
  · rw [hinserted, ← List.map_take, hcount, hcount]
    have := hnests.count_take_le n
    omega
  · rw [hinserted, hcount, hcount]
    have := hnests.count_eq
    omega

/-- One block is closed by a bracket and one by the end, and an `in` has no `let`. -/
theorem inserts_nested_markers_unmatched :
    ∃ s l, Scanned.ofSource "x = (case a of\n  b) in case c of\n  d".toList = .ok s ∧
      ofSource "x = (case a of\n  b) in case c of\n  d".toList = .ok l ∧
      (∀ o ∈ l.markers, l.BeforeToken s.tokens o ∨ l.AfterTokens s.tokens o) ∧
      l.inserted.count Marker.closing.char = l.inserted.count Marker.opening.char := by
  have hscans : ∃ s, Scanned.ofSource "x = (case a of\n  b) in case c of\n  d".toList = .ok s := ⟨_, rfl⟩
  obtain ⟨s, hs⟩ := hscans
  obtain ⟨l, hl, -, -, -, hplaced, -, htotal, -⟩ := inserts_nested_markers hs
  exact ⟨s, l, hs, hl, hplaced, htotal⟩

end LaidOut

end ElmLint
