import ElmLint.Proofs.GrammarReferences
import ElmLint.Proofs.IgnoredError
import Mathlib.Data.List.Flatten
import Mathlib.Data.List.Perm.Basic

/-!
# Findings point at the text of ignored errors

The pattern of an ignored error is read from the name `Err`, perhaps with a qualifier, then blanks, then a wildcard
(`isIgnoredError_of_read`). The places of such patterns account for the text that the grammar reads, each by a stretch of its own
(`ledger_stretches`). No marker stands in such a stretch, so it is a stretch of the scanned source too
(`take_drop_sourceOffset`), and every finding in a parsed module points at one (`ignoredErrors_point_at_text`).
-/

namespace ElmLint

/-- The text of an ignored error: capitalised segments, each followed by a dot, then `Err`, blanks and an underscore. -/
def IsIgnoredError (text : List Char) : Prop :=
  ∃ (segments : List (List Char)) (blanks : List Char), (∀ s ∈ segments, Capitalised s) ∧ blanks ≠ [] ∧
    (∀ c ∈ blanks, isBlank c = true) ∧
    text = segments.flatMap (· ++ ['.']) ++ errorConstructor.toList ++ blanks ++ ['_']

/-! ## Names and wildcards -/

theorem ne_dot_of_isNameChar {c : Char} (h : isNameChar c = true) : c ≠ '.' := by
  rintro rfl
  revert h
  decide

theorem Capitalised.dot_notMem {segment : List Char} (h : Capitalised segment) : '.' ∉ segment := by
  obtain ⟨c, rest, rfl, hc, hrest⟩ := h
  rintro hdot
  rcases List.mem_cons.1 hdot with rfl | hdot
  · revert hc
    decide
  · exact ne_dot_of_isNameChar (hrest _ hdot) rfl

/-- Segments joined by dots, the last one apart. -/
theorem intercalate_append_singleton (segments : List (List Char)) (last : List Char) :
    ['.'].intercalate (segments ++ [last]) = segments.flatMap (· ++ ['.']) ++ last := by
  induction segments with
  | nil => simp
  | cons first more ih =>
    obtain ⟨next, rest, hmore⟩ : ∃ next rest, more ++ [last] = next :: rest :=
      List.exists_cons_of_ne_nil (by simp)
    rw [List.cons_append, hmore, List.intercalate_cons_cons, ← hmore, ih, List.flatMap_cons]
    simp

namespace Grammar

variable {l : LaidOut} {call : (r : Rule) → Cursor → Outcome r.Sem}

/-- The text of a capitalised name: its qualifier with dots, and the name itself. No name character follows. -/
theorem read_qualifiedUpper {c c' : Cursor} {v : ModuleName × String} (h : qualifiedUpper.read call c = .ok v c') :
    ∃ (segments : List (List Char)) (n : Nat), (∀ s ∈ segments, Capitalised s) ∧ c' = c.advance n ∧
      c.rest.take n = segments.flatMap (· ++ ['.']) ++ v.2.toList ∧ c'.rest.head?.any isNameChar = false := by
  obtain ⟨text, htext, rfl⟩ := Peg.read_node_ok.1 h
  obtain ⟨n, hn, rfl, rfl⟩ := Peg.read_lexeme_ok.1 htext
  obtain ⟨segments, hne, hsegments, htake, hend, -⟩ := dottedLength?_spec hn
  replace hsegments : ∀ s ∈ segments, Capitalised s := hsegments
  have hsplit : ModuleName.ofDotted (c.rest.take n) = segments.map String.ofList := by
    rw [ModuleName.ofDotted, htake, List.splitOn_intercalate _ (fun s hs => (hsegments s hs).dot_notMem) hne]
  obtain ⟨init, last, rfl⟩ : ∃ init last, segments = init ++ [last] :=
    ⟨_, _, (List.dropLast_append_getLast hne).symm⟩
  have hlast : (qualified (c.rest.take n)).2 = String.ofList last := by simp [qualified, hsplit]
  refine ⟨init, n, fun s hs => hsegments s (List.mem_append_left _ hs), rfl, ?_, hend⟩
  rw [hlast, htake, intercalate_append_singleton, String.toList_ofList]

/-- A pattern that needs no parentheses is a wildcard only when it was read from one. -/
theorem read_patternAtom_wildcard {c c' : Cursor} {r : SourceRange}
    (h : (patternAtom l.range).read call c = .ok (.wildcard r) c') : c.rest.head? = some '_' ∧ c' = c.advance 1 := by
  rcases Peg.read_alt_ok.1 h with h | ⟨-, h⟩
  · obtain ⟨text, h, -⟩ := Peg.read_node_ok.1 h
    obtain ⟨n, hn, -, rfl⟩ := Peg.read_lexeme_ok.1 h
    obtain ⟨⟨rest, hrest⟩, -, rfl⟩ := wordLength?_eq_some_iff.1 hn
    exact ⟨by rw [← hrest]; rfl, rfl⟩
  -- None of the other alternatives builds a wildcard.
  · exfalso
    repeat' rcases Peg.read_alt_ok.1 h with h | ⟨-, h⟩
    all_goals
      obtain ⟨v, -, hv⟩ := Peg.read_node_ok.1 h
      try split at hv
      all_goals cases hv

/-- A repetition that gives nothing stays where it is. -/
theorem read_many_nil {α : Type} {p : Phrase α} {c c' : Cursor} (h : (Peg.many p).read call c = .ok [] c') : c' = c := by
  rw [Peg.read_many] at h
  exact (Peg.repeated_gives (Q := fun _ _ _ => True) (R := fun c as c' => as = [] → c' = c)
    (fun _ _ _ _ => trivial) (fun _ _ => rfl) (fun _ _ _ _ _ _ _ h => absurd h (List.cons_ne_nil _ _)) _ _ _ _ h) rfl

/-- The only argument of a constructor, if it is a wildcard, is read from blanks and an underscore. -/
theorem read_wildcardArgument (hcall : Known l call) {c c' : Cursor} {r : SourceRange}
    (h : (Peg.atLeastOne (gap *> rule .patternAtom)).read call c = .ok [.wildcard r] c') :
    ∃ blanks rest, (∀ ch ∈ blanks, isBlank ch = true) ∧ c.rest = blanks ++ '_' :: rest ∧ c' = c.advance (blanks.length + 1) := by
  obtain ⟨⟨first, more⟩, hboth, hlist⟩ := Peg.read_node_ok.1 h
  obtain ⟨rfl, rfl⟩ := List.cons_eq_cons.1 hlist
  obtain ⟨c₁, hfirst, hmore⟩ := Peg.read_seq_ok.1 hboth
  obtain rfl := read_many_nil hmore
  obtain ⟨⟨_, w⟩, hargument, hw⟩ := Peg.read_node_ok.1 hfirst
  obtain ⟨c₂, hblanks, hatom⟩ := Peg.read_seq_ok.1 hargument
  obtain ⟨k, hk, -, rfl⟩ := Peg.read_lexeme_ok.1 hblanks
  obtain ⟨call', hread⟩ := hcall.reading .patternAtom _ _ _ hatom
  cases hw
  obtain ⟨hhead, rfl⟩ := read_patternAtom_wildcard hread
  obtain rfl : (c.rest.takeWhile isBlank).length = k := by simpa [Lexeme.length?, runLength] using hk
  obtain ⟨rest, hrest⟩ := List.head?_eq_some_iff.1 hhead
  refine ⟨c.rest.takeWhile isBlank, rest, fun ch hch => ?_, ?_, Cursor.advance_advance c _ 1⟩
  · exact List.all_eq_true.1 List.all_takeWhile ch hch
  · change c.rest.drop _ = _ at hrest
    rw [← hrest]
    nth_rewrite 1 [← List.take_append_drop (c.rest.takeWhile isBlank).length c.rest]
    rw [← List.prefix_iff_eq_take.1 (List.takeWhile_prefix _)]

/-- The pattern of an ignored error is read from the text of one. -/
theorem isIgnoredError_of_read (hcall : Known l call) {c c₁ c' : Cursor} {v : ModuleName × String} {r : SourceRange}
    (hname : qualifiedUpper.read call c = .ok v c₁) (herror : v.2 = errorConstructor)
    (hargument : (Peg.atLeastOne (gap *> rule .patternAtom)).read call c₁ = .ok [.wildcard r] c') :
    ∃ text rest, IsIgnoredError text ∧ c.rest = text ++ rest ∧ c' = c.advance text.length := by
  obtain ⟨segments, n, hsegments, rfl, htake, hend⟩ := read_qualifiedUpper hname
  obtain ⟨blanks, rest, hblanks, hrest, rfl⟩ := read_wildcardArgument hcall hargument
  change c.rest.drop n = _ at hrest
  have hne : blanks ≠ [] := by
    -- Otherwise the underscore would belong to the name.
    rintro rfl
    change (c.rest.drop n).head?.any isNameChar = false at hend
    rw [hrest] at hend
    simp [isNameChar] at hend
  have hlength : (c.rest.take n).length = n := by
    refine List.length_take_of_le (Nat.le_of_not_le fun hle => ?_)
    rw [List.drop_eq_nil_of_le hle] at hrest
    simp at hrest
  refine ⟨c.rest.take n ++ blanks ++ ['_'], rest, ⟨segments, blanks, hsegments, hne, hblanks, ?_⟩, ?_, ?_⟩
  · rw [htake, herror]
  · nth_rewrite 1 [← List.take_append_drop n c.rest]
    rw [hrest]
    simp
  · rw [Cursor.advance_advance, List.length_append, List.length_append, hlength, List.length_singleton, Nat.add_assoc]

end Grammar

/-! ## Stretches of text -/

/-- Weights that count the patterns that look like ignored errors by their places. -/
def Weights.ignoringErrors : Weights (Multiset SourceRange) where
  pattern p := if p.ignoresError then {p.range} else 0
  expr _ := 0
  marker _ := 0

theorem Weights.lawful_ignoringErrors : ignoringErrors.Lawful where
  pattern_eq_zero p hp := by
    cases p with
    | named => cases hp
    | _ => rfl
  expr_eq_zero _ _ _ := rfl
  expr_literal _ _ := rfl
  expr_of_opensBlock _ _ := rfl
  marker_separating := rfl

/-- The weight of a module is the places of its patterns that look like ignored errors. -/
theorem Weights.ofModule_ignoringErrors (m : Module) :
    ignoringErrors.ofModule m = ↑((m.patterns.filter Pattern.ignoresError).map Pattern.range) := by
  rw [ofModule_eq]
  have hexpressions : (m.expressions.map ignoringErrors.expr).sum = 0 := List.sum_map_zero
  rw [hexpressions, add_zero]
  induction m.patterns with
  | nil => rfl
  | cons p ps ih =>
    rw [List.map_cons, List.sum_cons, ih, List.filter_cons]
    cases hp : p.ignoresError <;> simp [ignoringErrors, hp]

/-- The ranges of stretches of the laid-out text between two offsets, one after another, each the text of an ignored error. -/
def LaidOut.Stretches (l : LaidOut) (i j : Nat) (ranges : Multiset SourceRange) : Prop :=
  ∃ stretches : List (Nat × List Char), ranges = ↑(stretches.map fun s => l.range s.1 (s.1 + s.2.length)) ∧
    stretches.Pairwise (fun s t => s.1 + s.2.length ≤ t.1) ∧
    ∀ s ∈ stretches, i ≤ s.1 ∧ s.1 + s.2.length ≤ j ∧ s.2 <+: l.text.drop s.1 ∧ IsIgnoredError s.2

theorem LaidOut.Stretches.append {l : LaidOut} {i j k : Nat} {ranges ranges' : Multiset SourceRange} (hij : i ≤ j)
    (hjk : j ≤ k) (h : l.Stretches i j ranges) (h' : l.Stretches j k ranges') : l.Stretches i k (ranges + ranges') := by
  obtain ⟨stretches, rfl, hpairwise, hbounds⟩ := h
  obtain ⟨stretches', rfl, hpairwise', hbounds'⟩ := h'
  refine ⟨stretches ++ stretches', by simp, List.pairwise_append.2 ⟨hpairwise, hpairwise', fun s hs t ht => ?_⟩, fun s hs => ?_⟩
  · exact Nat.le_trans (hbounds s hs).2.1 (hbounds' t ht).1
  · rcases List.mem_append.1 hs with hs | hs
    · obtain ⟨hi, hj, htext⟩ := hbounds s hs
      exact ⟨hi, Nat.le_trans hj hjk, htext⟩
    · obtain ⟨hj, hk, htext⟩ := hbounds' s hs
      exact ⟨Nat.le_trans hij hj, hk, htext⟩

namespace Grammar

variable {l : LaidOut}

/-- The places are those of stretches between two cursors of the laid-out text. -/
def Stretched (l : LaidOut) (c : Cursor) (places : Multiset SourceRange) (c' : Cursor) : Prop :=
  c.On l.text → c.Ahead c' ∧ l.Stretches c.offset c'.offset places

theorem Stretched.zero {c c' : Cursor} (h : c.Ahead c') : Stretched l c 0 c' :=
  fun _ => ⟨h, [], rfl, List.Pairwise.nil, nofun⟩

theorem additive_stretched : Additive (Stretched l) where
  refl c := .zero (.refl c)
  trans {c m c' m' c''} h h' hc := by
    obtain ⟨hahead, hstretches⟩ := h hc
    obtain ⟨hahead', hstretches'⟩ := h' (hc.ahead hahead)
    exact ⟨hahead.trans hahead', hstretches.append hahead.offset_le hahead'.offset_le hstretches'⟩

/-- Patterns that look like ignored errors account for the text that the grammar reads by their stretches. -/
theorem ledger_stretched : Ledger l .ignoringErrors (Stretched l) where
  toAdditive := additive_stretched
  toLawful := Weights.lawful_ignoringErrors
  lexeme lex _ c n _ := .zero ⟨n, rfl⟩
  marker m c n _ := .zero ⟨n, rfl⟩
  settings call hcall c v c' h := .zero (Peg.read_ahead hcall.ahead _ h)
  quoted call hcall c v c' h := .zero (Peg.read_ahead hcall.ahead _ h)
  bare call hcall c v c' h := .zero (Peg.read_ahead hcall.ahead _ h)
  applied call hcall c v c₁ arguments c' hname harguments hstretched := by
    by_cases hignores : (Pattern.named v.1 v.2 arguments (l.range c.offset c'.offset)).ignoresError
    · obtain ⟨_, _, _, heq⟩ := Pattern.exists_of_ignoresError hignores
      obtain ⟨-, herror, rfl, -⟩ := Pattern.named.inj heq
      obtain ⟨text, rest, htext, hrest, rfl⟩ := isIgnoredError_of_read hcall hname herror harguments
      refine fun hc => ⟨⟨_, rfl⟩, [(c.offset, text)], ?_, List.pairwise_singleton _ _, ?_⟩
      · rw [Weights.ignoringErrors]
        simp only [hignores, if_true]
        rfl
      · intro s hs
        rw [List.mem_singleton.1 hs]
        exact ⟨Nat.le_refl _, Nat.le_refl _, ⟨rest, by rw [← hc, hrest]⟩, htext⟩
    · have hown : Weights.ignoringErrors.pattern (.named v.1 v.2 arguments (l.range c.offset c'.offset)) = 0 := if_neg hignores
      rw [hown]
      exact additive_stretched.trans (.zero (Peg.read_ahead hcall.ahead _ hname)) hstretched
  reference call hcall c v c' h := .zero (Peg.read_ahead hcall.ahead _ h)

end Grammar

/-! ## Stretches of the source -/

theorem isMarker_of_isNameChar {c : Char} (h : isNameChar c = true) : isMarker c = false := by
  rw [← Bool.not_eq_true]
  intro hmarker
  simp only [isMarker, Bool.or_eq_true, beq_iff_eq] at hmarker
  obtain (rfl | rfl) | rfl := hmarker <;> revert h <;> decide

namespace IsIgnoredError

variable {text : List Char} (h : IsIgnoredError text)

include h

/-- No marker stands in the text of an ignored error. -/
theorem isMarker_eq_false : ∀ c ∈ text, isMarker c = false := by
  obtain ⟨segments, blanks, hsegments, -, hblanks, rfl⟩ := h
  intro c hc
  simp only [List.mem_append, List.mem_flatMap, List.mem_singleton] at hc
  rcases hc with ((⟨s, hs, hc | rfl⟩ | hc) | hc) | rfl
  · obtain ⟨u, rest, rfl, hu, hrest⟩ := hsegments s hs
    rcases List.mem_cons.1 hc with rfl | hc
    · exact isMarker_of_isNameChar (isNameChar_of_isUpper hu)
    · exact isMarker_of_isNameChar (hrest c hc)
  · rfl
  · have hname : ("Err".toList.all fun c => !isMarker c) = true := rfl
    simpa using List.all_eq_true.1 hname c hc
  · exact isMarker_of_isBlank (hblanks c hc)
  · rfl

/-- The text of an ignored error begins with a capital. -/
theorem exists_head : ∃ c, text.head? = some c ∧ LaidOut.isFiller c = false := by
  obtain ⟨segments, blanks, hsegments, -, -, rfl⟩ := h
  cases segments with
  | nil => exact ⟨'E', rfl, rfl⟩
  | cons s segments =>
    obtain ⟨u, rest, rfl, hu, -⟩ := hsegments _ List.mem_cons_self
    exact ⟨u, rfl, Grammar.isFiller_of_isLetter (by rw [isLetter, hu, Bool.or_true])⟩

/-- The text of an ignored error ends with an underscore. -/
theorem getLast?_eq : text.getLast? = some '_' := by
  obtain ⟨segments, blanks, -, -, -, rfl⟩ := h
  simp

end IsIgnoredError

namespace LaidOut

variable {source : List Char} {s : Scanned}

/-- A stretch of the laid-out text without markers is a stretch of the scanned source. -/
theorem stretch_sourceOffset (hs : Scanned.ofSource source = .ok s) {i : Nat} {text : List Char}
    (htext : text <+: (ofScanned source s).text.drop i) (hmarkers : ∀ ch ∈ text, isMarker ch = false) :
    (∀ k ≤ text.length, (ofScanned source s).sourceOffset (i + k) = (ofScanned source s).sourceOffset i + k) ∧
      text <+: s.text.drop ((ofScanned source s).sourceOffset i) := by
  have hl := wellMarked_ofSource (ofSource_ok_iff.2 ⟨s, hs, rfl⟩)
  have hat : ∀ k ch, text[k]? = some ch → (ofScanned source s).text[i + k]? = some ch := by
    intro k ch hch
    obtain ⟨rest, hrest⟩ := htext
    rw [← List.getElem?_drop, ← hrest, List.getElem?_append_left (List.getElem?_eq_some_iff.1 hch).1]
    exact hch
  have hoffset : ∀ k ≤ text.length,
      (ofScanned source s).sourceOffset (i + k) = (ofScanned source s).sourceOffset i + k := by
    intro k hk
    induction k with
    | zero => rfl
    | succ k ih =>
      have hmarker := (hl.of_not_isMarker (hat k _ (List.getElem?_eq_getElem hk)) (hmarkers _ (List.getElem_mem hk))).1
      rw [← Nat.add_assoc, hl.sourceOffset_succ, if_neg hmarker, ih (by omega)]
      omega
  refine ⟨hoffset, List.prefix_iff_getElem?.2 fun k hk => ?_⟩
  rw [List.getElem?_drop]
  rcases getElem?_sourceOffset hs (hat k _ (List.getElem?_eq_getElem hk)) with ⟨-, hm⟩ | ⟨-, hsource⟩
  · rw [hmarkers _ (List.getElem_mem hk)] at hm
    cases hm
  · rwa [hoffset k (Nat.le_of_lt hk)] at hsource

/-- A stretch without markers that neither begins nor ends with a blank has the range that it has in the source. -/
theorem range_of_unmarked (hs : Scanned.ofSource source = .ok s) {i : Nat} {text : List Char} {first last : Char}
    (htext : text <+: (ofScanned source s).text.drop i) (hmarkers : ∀ ch ∈ text, isMarker ch = false)
    (hfirst : text.head? = some first) (hlast : text.getLast? = some last) (hfirst' : isFiller first = false)
    (hlast' : isFiller last = false) : (ofScanned source s).range i (i + text.length) =
      ⟨Position.ofOffset (lineStarts source) ((ofScanned source s).sourceOffset i),
        (Position.ofOffset (lineStarts source) ((ofScanned source s).sourceOffset i + text.length - 1)).next⟩ := by
  obtain ⟨hoffset, hbegins⟩ := stretch_sourceOffset hs htext hmarkers
  have hpos : 0 < text.length := List.length_pos_iff.2 (by rintro rfl; cases hfirst)
  have hfits : (ofScanned source s).sourceOffset i + text.length ≤ source.length := by
    have hle := hbegins.length_le
    rw [List.length_drop, Scanned.length_text hs] at hle
    omega
  have hslice : ((ofScanned source s).text.drop i).take (i + text.length - i) = [] ++ text ++ [] := by
    rw [Nat.add_sub_cancel_left, ← List.prefix_iff_eq_take.1 htext]
    simp
  have hposition : ∀ k < text.length, (ofScanned source s).position (i + k) =
      Position.ofOffset (lineStarts source) ((ofScanned source s).sourceOffset i + k) := by
    intro k hk
    rw [position, hoffset k (Nat.le_of_lt hk)]
    exact congrArg _ (Nat.min_eq_left (by change _ ≤ source.length - 1; omega))
  have hlastOffset : i + ([] : List Char).length + text.length - 1 = i + (text.length - 1) := by simp; omega
  rw [range_of_slice hslice (Nat.le_add_right i _) nofun nofun hfirst hlast hfirst' hlast', hlastOffset,
    hposition _ (Nat.sub_lt hpos Nat.one_pos), Nat.add_sub_assoc hpos]
  exact congrArg (SourceRange.mk · _) (hposition 0 hpos)

/-- The range of a stretch that is the text of an ignored error leads to that text in the scanned source. -/
theorem range_of_isIgnoredError (hs : Scanned.ofSource source = .ok s) {i : Nat} {text : List Char}
    (htext : text <+: (ofScanned source s).text.drop i) (h : IsIgnoredError text) :
    ((ofScanned source s).range i (i + text.length)).start.toOffset (lineStarts source) =
        (ofScanned source s).sourceOffset i ∧
      ((ofScanned source s).range i (i + text.length)).stop.toOffset (lineStarts source) =
        (ofScanned source s).sourceOffset i + text.length := by
  obtain ⟨first, hfirst, hfiller⟩ := h.exists_head
  have hpos : 0 < text.length := List.length_pos_iff.2 (by rintro rfl; cases hfirst)
  rw [range_of_unmarked hs htext h.isMarker_eq_false hfirst h.getLast?_eq hfiller rfl]
  refine ⟨Position.toOffset_ofOffset source _, ?_⟩
  simp only [Position.toOffset_next]
  omega

end LaidOut

/-! ## Findings -/

namespace Module

/-- The places of findings are places of patterns of the module that look like ignored errors, in the same order. -/
theorem sublist_ranges_ignoredErrors (m : Module) (resolver : Option Resolver) (check : OriginCheck) :
    ((m.ignoredErrors resolver check).map Finding.range).Sublist
      ((m.patterns.filter Pattern.ignoresError).map Pattern.range) := by
  have hfindings : (m.ignoredErrors resolver check).map Finding.range =
      ((m.expressions.flatMap Expr.armPatterns).flatMap Pattern.subpatterns |>.filter (check.reports resolver)).map
        Pattern.range := by
    rw [ignoredErrors]
    induction m.expressions with
    | nil => rfl
    | cons e es ih =>
      rw [List.flatMap_cons, List.map_append, ih, findings_classify, Pattern.subpatternsOf_eq, List.map_map,
        List.flatMap_cons, List.flatMap_append, List.filter_append, List.map_append]
      rfl
  have harms : (m.expressions.flatMap Expr.armPatterns).Sublist (m.functions.flatMap FunctionDecl.boundPatterns) := by
    rw [expressions, List.flatMap_assoc]
    refine List.Sublist.flatMap_right _ fun f _ => List.Sublist.trans (List.Sublist.flatMap_right _ fun e _ => ?_)
      (List.sublist_append_right _ _)
    cases e with
    | caseOf => exact List.Sublist.refl _
    | _ => exact List.nil_sublist _
  have hpatterns : ((m.expressions.flatMap Expr.armPatterns).flatMap Pattern.subpatterns).Sublist m.patterns := by
    rw [patterns, ← List.flatMap_assoc]
    exact harms.flatMap _
  rw [hfindings]
  refine List.Sublist.map _ (List.Sublist.trans ?_ (hpatterns.filter Pattern.ignoresError))
  refine List.monotone_filter_right _ fun p hp => ?_
  rw [OriginCheck.reports, Bool.and_eq_true] at hp
  exact hp.1

end Module

/-- Ranges that share no offset of a text whose lines start at `starts`. -/
def SourceRange.Disjoint (starts : List Nat) (r r' : SourceRange) : Prop :=
  r.stop.toOffset starts ≤ r'.start.toOffset starts ∨ r'.stop.toOffset starts ≤ r.start.toOffset starts

namespace Module

/-- Every finding points at the text of an ignored error. In a source that is read as a module, whatever resolves its
constructors and whichever of them count, the range of each finding leads through the line starts to offsets between which the
scanned source has the text of an ignored error, and the ranges of different findings share no offset. -/
theorem ignoredErrors_point_at_text {source file : String} {m : Module} (h : parse source file = .ok m)
    (resolver : Option Resolver) (check : OriginCheck) :
    ∃ s, Scanned.ofSource source.toList = .ok s ∧
      (∀ f ∈ m.ignoredErrors resolver check,
        f.range.stop.toOffset (lineStarts source.toList) ≤ s.text.length ∧
        IsIgnoredError ((s.text.take (f.range.stop.toOffset (lineStarts source.toList))).drop
          (f.range.start.toOffset (lineStarts source.toList)))) ∧
      (m.ignoredErrors resolver check).Pairwise fun f g => f.range.Disjoint (lineStarts source.toList) g.range := by
  obtain ⟨l, items, hlaid, hread, rfl, -⟩ := parse_ok_iff.1 h
  obtain ⟨next, hread, -⟩ := LaidOut.readPhrase_ok_iff.1 hread
  obtain ⟨s, hs, rfl⟩ := LaidOut.ofSource_ok_iff.1 hlaid
  have hl := LaidOut.wellMarked_ofSource hlaid
  have haccount := (Grammar.accounts_readText Grammar.ledger_stretched hread (Cursor.on_start _)).2
  obtain ⟨stretches, hweight, hpairwise, hbounds⟩ := haccount
  rw [← Weights.ofModule_ofItems _ items (LaidOut.ofScanned source.toList s).comments file,
    Weights.ofModule_ignoringErrors, Multiset.coe_eq_coe] at hweight
  have hsublist := sublist_ranges_ignoredErrors (.ofItems items (LaidOut.ofScanned source.toList s).comments file)
    resolver check
  refine ⟨s, hs, fun f hf => ?_, ?_⟩
  · have hmem := hweight.subset (hsublist.subset (List.mem_map_of_mem hf))
    obtain ⟨⟨i, text⟩, hstretch, hrange⟩ := List.mem_map.1 hmem
    obtain ⟨-, -, hbegins, htext⟩ := hbounds _ hstretch
    simp only at hbegins htext hrange
    obtain ⟨hstart, hstop⟩ := LaidOut.range_of_isIgnoredError hs hbegins htext
    obtain ⟨-, hsource⟩ := LaidOut.stretch_sourceOffset hs hbegins htext.isMarker_eq_false
    rw [← hrange, hstart, hstop]
    have hslice : (s.text.take ((LaidOut.ofScanned source.toList s).sourceOffset i + text.length)).drop
        ((LaidOut.ofScanned source.toList s).sourceOffset i) = text := by
      rw [List.drop_take, Nat.add_sub_cancel_left, ← List.prefix_iff_eq_take.1 hsource]
    have hle := hsource.length_le
    obtain ⟨first, hfirst, -⟩ := htext.exists_head
    have hpos : 0 < text.length := List.length_pos_iff.2 (by rintro rfl; cases hfirst)
    rw [List.length_drop] at hle
    exact ⟨by omega, hslice.symm ▸ htext⟩
  · have hdisjoint : (stretches.map fun t => (LaidOut.ofScanned source.toList s).range t.1 (t.1 + t.2.length)).Pairwise
        (SourceRange.Disjoint (lineStarts source.toList)) := by
      rw [List.pairwise_map]
      refine hpairwise.imp_of_mem fun {t u} ht hu hle => .inl ?_
      obtain ⟨-, -, hbegins, htext⟩ := hbounds t ht
      obtain ⟨-, -, hbegins', htext'⟩ := hbounds u hu
      obtain ⟨hoffset, -⟩ := LaidOut.stretch_sourceOffset hs hbegins htext.isMarker_eq_false
      rw [(LaidOut.range_of_isIgnoredError hs hbegins htext).2, (LaidOut.range_of_isIgnoredError hs hbegins' htext').1,
        ← hoffset _ (Nat.le_refl _)]
      exact hl.sourceOffset_le hle
    have hfindings := (hweight.pairwise_iff fun h => h.symm).2 hdisjoint
    exact List.pairwise_map.1 (hfindings.sublist hsublist)

set_option maxRecDepth 100000 in
/-- Two ignored errors, one with a qualifier before a comment and one right after it, are found at their texts. -/
theorem ignoredErrors_point_at_two_texts :
    ∃ source m s, source = "f r =\n    case r of\n        ( Result.Err\t_, \x7b- x -\x7d Err _ ) -> 0\n" ∧
      parse source "F.elm" = .ok m ∧ Scanned.ofSource source.toList = .ok s ∧ (m.ignoredErrors none .any).length = 2 ∧
      ∀ f ∈ m.ignoredErrors none .any, IsIgnoredError ((s.text.take (f.range.stop.toOffset (lineStarts source.toList))).drop
        (f.range.start.toOffset (lineStarts source.toList))) := by
  obtain ⟨m, hparse, hcount⟩ := exists_parse_of_any
    "f r =\n    case r of\n        ( Result.Err\t_, \x7b- x -\x7d Err _ ) -> 0\n" "F.elm"
    (fun m => (m.ignoredErrors none .any).length == 2) (by decide +kernel)
  obtain ⟨s, hs, htext, -⟩ := ignoredErrors_point_at_text hparse none .any
  exact ⟨_, m, s, rfl, hparse, hs, beq_iff_eq.1 hcount, fun f hf => (htext f hf).2⟩

end Module

end ElmLint
