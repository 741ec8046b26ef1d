import ElmLint.Proofs.SeenOrder
import Mathlib.Data.List.DropRight

/-!
# Ranges select text

The characters of a laid-out text up to an offset are, without the inserted markers, the characters of the scanned text up to its
source offset (`LaidOut.unmarked_take`). So a stretch of the laid-out text is a stretch of the scanned text with markers in it
(`LaidOut.unmarked_drop_take`), and a range, which runs from the first to the last character that is neither a blank nor a marker,
leads back to it.

* `LaidOut.range_selects_text`: the offsets of a range select the text that it was made for, without blanks and markers around it
  and without the inserted markers in it.
-/

namespace ElmLint

namespace LaidOut

/-- The characters of a laid-out text from `start` to `stop` with their offsets. -/
def slice (l : LaidOut) (start stop : Nat) : List (Char × Nat) := (l.text.zipIdx.drop start).take (stop - start)

/-- The same characters without the blanks and markers at both ends. -/
def stripped (l : LaidOut) (start stop : Nat) : List (Char × Nat) :=
  ((l.slice start stop).dropWhile fun c => isFiller c.1).rdropWhile fun c => isFiller c.1

/-- Some characters of a laid-out text, given with their offsets, without the inserted markers among them. -/
def unmarked (l : LaidOut) (cs : List (Char × Nat)) : List Char := (cs.filter (·.2 ∉ l.markers)).map Prod.fst

theorem unmarked_append (l : LaidOut) (as bs : List (Char × Nat)) : l.unmarked (as ++ bs) = l.unmarked as ++ l.unmarked bs := by
  rw [unmarked, List.filter_append, List.map_append]
  rfl

theorem map_fst_slice (l : LaidOut) (start stop : Nat) :
    (l.slice start stop).map Prod.fst = (l.text.drop start).take (stop - start) := by
  rw [slice, List.map_take, List.map_drop, List.zipIdx_map_fst]

/-! ## Stretches of the scanned text -/

section Scanned

variable {source : List Char} {s : Scanned} (hs : Scanned.ofSource source = .ok s)

include hs

/-- What comes before an offset is, without the markers, what comes before its source offset. -/
theorem unmarked_take : ∀ {n : Nat}, n ≤ (ofScanned source s).text.length →
    (ofScanned source s).unmarked ((ofScanned source s).text.zipIdx.take n) = s.text.take ((ofScanned source s).sourceOffset n)
  | 0, _ => by
    have hzero : (ofScanned source s).sourceOffset 0 = 0 := Nat.zero_sub _
    rw [hzero]
    rfl
  | n + 1, hn => by
    have hmarked := wellMarked_ofSource (ofSource_ok_iff.2 ⟨s, hs, rfl⟩)
    have ih := unmarked_take (Nat.le_of_succ_le hn)
    have hat : (ofScanned source s).text.zipIdx[n]? = some ((ofScanned source s).text[n], n) := by
      rw [List.getElem?_zipIdx, List.getElem?_eq_getElem hn, Nat.zero_add]
      rfl
    have htake : (ofScanned source s).text.zipIdx.take (n + 1) =
        (ofScanned source s).text.zipIdx.take n ++ [((ofScanned source s).text[n], n)] := by
      rw [List.take_add_one, hat]
      rfl
    rw [htake, unmarked_append, ih, hmarked.sourceOffset_succ]
    rcases getElem?_sourceOffset hs (List.getElem?_eq_getElem hn) with ⟨hmem, -⟩ | ⟨hmem, hchar⟩
    · simp [unmarked, hmem]
    · rw [if_neg hmem, List.take_add_one, hchar]
      simp [unmarked, hmem]

/-- A stretch of the laid-out text is, without the markers, a stretch of the scanned text. -/
theorem unmarked_drop_take {a n : Nat} (ha : (ofScanned source s).sourceOffset a < source.length)
    (h : a + n ≤ (ofScanned source s).text.length) :
    (ofScanned source s).unmarked (((ofScanned source s).text.zipIdx.drop a).take n) =
      (s.text.take ((ofScanned source s).sourceOffset (a + n))).drop ((ofScanned source s).sourceOffset a) := by
  have hcut : (s.text.take ((ofScanned source s).sourceOffset a)).length = (ofScanned source s).sourceOffset a :=
    List.length_take_of_le (by rw [Scanned.length_text hs]; exact Nat.le_of_lt ha)
  have hall := unmarked_take hs h
  rw [List.take_add, unmarked_append, unmarked_take hs (Nat.le_of_add_right_le h)] at hall
  rw [← hall, List.drop_append_of_le_length (Nat.le_of_eq hcut.symm), List.drop_eq_nil_of_le (Nat.le_of_eq hcut), List.nil_append]

end Scanned

/-! ## Ranges -/

variable {l : LaidOut} {start stop : Nat}

/-- Around what is left of a slice there are blanks and markers only. -/
theorem slice_eq (l : LaidOut) (start stop : Nat) : ∃ before after, l.slice start stop = before ++ l.stripped start stop ++ after ∧
    (∀ c ∈ before, isFiller c.1 = true) ∧ ∀ c ∈ after, isFiller c.1 = true := by
  have hsplit : ∀ (p : Char × Nat → Bool) (cs : List (Char × Nat)), ∃ before after,
      cs = before ++ (cs.dropWhile p).rdropWhile p ++ after ∧ (∀ c ∈ before, p c = true) ∧ ∀ c ∈ after, p c = true := by
    intro p cs
    refine ⟨cs.takeWhile p, (cs.dropWhile p).rtakeWhile p, ?_, List.all_eq_true.1 List.all_takeWhile, fun _ => List.mem_rtakeWhile_imp⟩
    rw [List.append_assoc, List.rdropWhile_append_rtakeWhile, List.takeWhile_append_dropWhile]
  exact hsplit _ _

/-- What is left of a slice begins with a character that is neither a blank nor a marker. -/
theorem isFiller_head_stripped {c : Char × Nat} (h : (l.stripped start stop).head? = some c) : isFiller c.1 = false := by
  obtain ⟨rest, hrest⟩ := List.rdropWhile_prefix (fun c => isFiller c.1) (l := (l.slice start stop).dropWhile fun c => isFiller c.1)
  have hhead := List.head?_dropWhile_not (fun c => isFiller c.1) (l.slice start stop)
  rw [← hrest, List.head?_append, ← stripped, h] at hhead
  simpa using hhead

/-- It ends with one, too. -/
theorem isFiller_getLast_stripped {c : Char × Nat} (h : (l.stripped start stop).getLast? = some c) : isFiller c.1 = false := by
  have hne : l.stripped start stop ≠ [] := by
    rintro hnil
    rw [hnil] at h
    cases h
  rw [List.getLast?_eq_some_getLast hne, Option.some.injEq] at h
  rw [← h, ← Bool.not_eq_true]
  exact List.rdropWhile_last_not _ _ hne

/-- The range of blanks and markers only is a point. -/
theorem range_of_fillers (hle : start ≤ stop) (h : ∀ c ∈ (l.text.drop start).take (stop - start), isFiller c = true) :
    (l.range start stop).start = (l.range start stop).stop := by
  have hnone : ((l.text.drop start).take (stop - start)).dropWhile isFiller = [] := List.dropWhile_eq_nil_iff.2 h
  simp [range, hnone, Nat.not_lt.2 hle]

/-- What is left of a slice stands in the text somewhere. -/
theorem exists_stretch (hstop : stop ≤ l.text.length) (hne : l.stripped start stop ≠ []) :
    ∃ a n, start ≤ a ∧ a + (n + 1) ≤ stop ∧ l.stripped start stop = (l.text.zipIdx.drop a).take (n + 1) ∧
      l.range start stop = ⟨l.position a, (l.position (a + n)).next⟩ := by
  obtain ⟨before, after, hslice, hbefore, hafter⟩ := l.slice_eq start stop
  have hsize : (l.stripped start stop).length = (l.stripped start stop).length - 1 + 1 := by
    have := List.length_pos_iff.2 hne
    omega
  have hlength : before.length + (l.stripped start stop).length + after.length = stop - start := by
    rw [← List.length_append, ← List.length_append, ← hslice, slice, List.length_take, List.length_drop, List.length_zipIdx]
    omega
  have hchars : (l.text.drop start).take (stop - start) =
      before.map Prod.fst ++ (l.stripped start stop).map Prod.fst ++ after.map Prod.fst := by
    rw [← map_fst_slice, hslice, List.map_append, List.map_append]
  have hstretch : l.stripped start stop = (l.text.zipIdx.drop (start + before.length)).take (l.stripped start stop).length := by
    obtain ⟨rest, hrest⟩ := List.take_prefix (stop - start) (l.text.zipIdx.drop start)
    rw [← List.drop_drop, ← hrest, ← slice, hslice, List.append_assoc, List.append_assoc, List.drop_left, List.take_left]
  obtain ⟨first, hfirst⟩ : ∃ first, (l.stripped start stop).head? = some first := ⟨_, List.head?_eq_some_head hne⟩
  obtain ⟨last, hlast⟩ : ∃ last, (l.stripped start stop).getLast? = some last := ⟨_, List.getLast?_eq_some_getLast hne⟩
  have hfiller : ∀ cs : List (Char × Nat), (∀ c ∈ cs, isFiller c.1 = true) → ∀ c ∈ cs.map Prod.fst, isFiller c = true := by
    intro cs hcs c hc
    obtain ⟨d, hd, rfl⟩ := List.mem_map.1 hc
    exact hcs d hd
  have hrange := range_of_slice hchars (by omega) (hfiller before hbefore) (hfiller after hafter)
    (by rw [List.head?_map, hfirst]; rfl) (by rw [List.getLast?_map, hlast]; rfl) (isFiller_head_stripped hfirst)
    (isFiller_getLast_stripped hlast)
  rw [List.length_map, List.length_map] at hrange
  refine ⟨start + before.length, (l.stripped start stop).length - 1, by omega, by omega, ?_, ?_⟩
  · rw [← hsize]
    exact hstretch
  · rw [hrange, Nat.add_sub_assoc (by omega)]

/-- The first and the last character of what is left of a slice are characters of the text that are neither blanks nor markers. -/
theorem exists_ends {a n : Nat} (hend : a + (n + 1) ≤ l.text.length)
    (hstretch : l.stripped start stop = (l.text.zipIdx.drop a).take (n + 1)) :
    (∃ c, l.text[a]? = some c ∧ isFiller c = false) ∧ ∃ c, l.text[a + n]? = some c ∧ isFiller c = false := by
  have hat : ∀ k, a + k < l.text.length → ∃ c, l.text[a + k]? = some c ∧ l.text.zipIdx[a + k]? = some (c, a + k) := by
    intro k hk
    refine ⟨_, List.getElem?_eq_getElem hk, ?_⟩
    rw [List.getElem?_zipIdx, List.getElem?_eq_getElem hk, Nat.zero_add]
    rfl
  obtain ⟨first, hfirst, hfirst'⟩ := hat 0 (by omega)
  obtain ⟨last, hlast, hlast'⟩ := hat n (by omega)
  have hhead : (l.stripped start stop).head? = some (first, a) := by
    rw [hstretch, List.head?_take, if_neg (Nat.succ_ne_zero n), List.head?_drop]
    exact hfirst'
  have hgetLast : (l.stripped start stop).getLast? = some (last, a + n) := by
    have hlength : ((l.text.zipIdx.drop a).take (n + 1)).length = n + 1 := by
      rw [List.length_take, List.length_drop, List.length_zipIdx]
      omega
    rw [hstretch, List.getLast?_eq_getElem?, hlength, Nat.add_sub_cancel, List.getElem?_take_of_lt (Nat.lt_succ_self n),
      List.getElem?_drop, hlast']
  exact ⟨⟨first, hfirst, isFiller_head_stripped hhead⟩, last, hlast, isFiller_getLast_stripped hgetLast⟩

/-- The position of a character that is neither a blank nor a marker is that of its source offset. -/
theorem WellMarked.position_of_seen (hmarked : l.WellMarked) {o : Nat} {c : Char} (hc : l.text[o]? = some c)
    (hfiller : isFiller c = false) : l.position o = Position.ofOffset (lineStarts l.source) (l.sourceOffset o) ∧
      l.sourceOffset o < l.source.length ∧ l.sourceOffset (o + 1) = l.sourceOffset o + 1 := by
  rw [isFiller, Bool.or_eq_false_iff] at hfiller
  obtain ⟨hmem, hlt⟩ := hmarked.of_not_isMarker hc hfiller.2
  refine ⟨?_, hlt, ?_⟩
  · rw [position, hmarked.starts_eq, Nat.min_eq_left (by omega)]
  · rw [hmarked.sourceOffset_succ, if_neg hmem]

/-- The positions of a range ascend, and they lead to the source offsets at which what is left of its slice begins and ends. -/
theorem WellMarked.range_of_stretch (hmarked : l.WellMarked) (hstop : stop ≤ l.text.length) (hne : l.stripped start stop ≠ []) :
    ∃ a n, a + n ≤ l.text.length ∧ l.stripped start stop = (l.text.zipIdx.drop a).take n ∧ l.sourceOffset a < l.source.length ∧
      (l.range start stop).start.toOffset l.starts = l.sourceOffset a ∧
      (l.range start stop).stop.toOffset l.starts = l.sourceOffset (a + n) ∧
      l.sourceOffset a < l.sourceOffset (a + n) ∧ (l.range start stop).start < (l.range start stop).stop := by
  obtain ⟨a, n, -, hend, hstretch, hrange⟩ := exists_stretch hstop hne
  obtain ⟨⟨c, hc, hc'⟩, d, hd, hd'⟩ := exists_ends (by omega) hstretch
  obtain ⟨hfirst, hbound, -⟩ := hmarked.position_of_seen hc hc'
  obtain ⟨hlast, hbound', hnext⟩ := hmarked.position_of_seen hd hd'
  have horder := hmarked.sourceOffset_le (Nat.le_add_right a n)
  rw [hrange, hmarked.starts_eq, hfirst, hlast, Position.toOffset_ofOffset, Position.toOffset_next]
  refine ⟨a, n + 1, by omega, hstretch, hbound, rfl, hnext.symm, by rw [← Nat.add_assoc, hnext]; omega, ?_⟩
  rcases Nat.lt_or_eq_of_le horder with hlt | heq
  · exact lt_trans (Position.ofOffset_lt hlt (Nat.le_of_lt hbound')) (Position.lt_next _)
  · rw [heq]
    exact Position.lt_next _

/-- **A range selects its text.** Take any laid-out source and any part of its text.

* If more is left of the part than blanks and markers around it, then the positions of its range lead to two offsets, one
  before the other, between which the scanned text is what is left, without the inserted markers in it.
* Otherwise the range starts where it stops.

The position of an offset leads back to the offset, and positions ascend with offsets. -/
theorem range_selects_text {source : List Char} (hl : ofSource source = .ok l) : ∃ s, Scanned.ofSource source = .ok s ∧
    (∀ start stop, start ≤ stop → stop ≤ l.text.length →
      (l.stripped start stop ≠ [] → (l.range start stop).start < (l.range start stop).stop ∧
        (l.range start stop).start.toOffset l.starts < (l.range start stop).stop.toOffset l.starts ∧
        (s.text.take ((l.range start stop).stop.toOffset l.starts)).drop ((l.range start stop).start.toOffset l.starts) =
          l.unmarked (l.stripped start stop)) ∧
      (l.stripped start stop = [] → (l.range start stop).start = (l.range start stop).stop)) ∧
    (∀ o < source.length, (Position.ofOffset l.starts o).toOffset l.starts = o) ∧
    ∀ o o', o < o' → o' ≤ source.length → Position.ofOffset l.starts o < Position.ofOffset l.starts o' := by
  obtain ⟨s, hs, rfl⟩ := ofSource_ok_iff.1 hl
  have hmarked := wellMarked_ofSource hl
  refine ⟨s, hs, fun start stop hle hstop => ⟨fun hne => ?_, fun hnil => ?_⟩, fun o _ => Position.toOffset_ofOffset source o,
    fun o o' hlt ho' => Position.ofOffset_lt hlt ho'⟩
  · obtain ⟨a, n, hend, hstretch, hbound, hfrom, hto, hlt, horder⟩ := hmarked.range_of_stretch hstop hne
    rw [hfrom, hto, hstretch, unmarked_drop_take hs hbound hend]
    exact ⟨horder, hlt, rfl⟩
  · obtain ⟨before, after, hslice, hbefore, hafter⟩ := (ofScanned source s).slice_eq start stop
    refine range_of_fillers hle fun c hc => ?_
    rw [← map_fst_slice, hslice, hnil, List.append_nil] at hc
    obtain ⟨d, hd, rfl⟩ := List.mem_map.1 hc
    exact (List.mem_append.1 hd).elim (hbefore d) (hafter d)

/-- A marker inside the part is left out, and so are a marker, blanks and half a comment after it. -/
theorem range_selects_case : ∃ l s, ofSource "x = case a of\n  b -> c -- d".toList = .ok l ∧
    Scanned.ofSource "x = case a of\n  b -> c -- d".toList = .ok s ∧ (l.range 4 27).start < (l.range 4 27).stop ∧
    (s.text.take ((l.range 4 27).stop.toOffset l.starts)).drop ((l.range 4 27).start.toOffset l.starts) =
      "case a of\n  b -> c".toList := by
  have hlaid : ∃ l, ofSource "x = case a of\n  b -> c -- d".toList = .ok l ∧ 27 ≤ l.text.length ∧ l.stripped 4 27 ≠ [] ∧
      l.unmarked (l.stripped 4 27) = "case a of\n  b -> c".toList := ⟨_, rfl, by decide, by decide, by decide⟩
  obtain ⟨l, hl, hstop, hne, htext⟩ := hlaid
  obtain ⟨s, hs, hranges, -⟩ := range_selects_text hl
  obtain ⟨horder, -, hselected⟩ := (hranges 4 27 (by decide) hstop).1 hne
  exact ⟨l, s, hl, hs, horder, hselected.trans htext⟩

end LaidOut

end ElmLint
