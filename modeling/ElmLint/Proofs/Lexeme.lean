import ElmLint.Lexeme

/-!
# Words that are never empty

Every class of words but blanks, the text before a brace and the empty text has only words with at least one character
(`Lexeme.length?_pos`). A dotted name begins like its last segment
(`head?_of_dottedLength?`), and is made of segments, as many as there are (`dottedLength?_spec`).
-/

namespace ElmLint

/-- A length that tells of at least one character, and of no more than there are. -/
def Reads (length? : List Char → Option Nat) : Prop := ∀ cs n, length? cs = some n → 0 < n ∧ n ≤ cs.length

theorem isNameChar_of_isLower {c : Char} (h : isLower c = true) : isNameChar c = true := by simp [isNameChar, isLetter, h]

theorem isNameChar_of_isUpper {c : Char} (h : isUpper c = true) : isNameChar c = true := by simp [isNameChar, isLetter, h]

/-! ## Combinations -/

theorem runLength_le (p : Char → Bool) (cs : List Char) : runLength p cs ≤ cs.length :=
  (List.takeWhile_prefix p).length_le

theorem drop_runLength (p : Char → Bool) (cs : List Char) : cs.drop (runLength p cs) = cs.dropWhile p := by
  have h : (cs.takeWhile p ++ cs.dropWhile p).drop (cs.takeWhile p).length = cs.dropWhile p := List.drop_left
  rwa [List.takeWhile_append_dropWhile] at h

theorem someRun?_eq_some_iff {p : Char → Bool} {cs : List Char} {n : Nat} :
    someRun? p cs = some n ↔ n = runLength p cs ∧ 0 < n := by
  unfold someRun?
  split
  · next hzero =>
    rw [beq_iff_eq] at hzero
    simp +contextual [hzero]
  · next hne =>
    rw [beq_iff_eq] at hne
    rw [Option.some.injEq, eq_comm, iff_self_and]
    rintro rfl
    exact Nat.pos_of_ne_zero hne

theorem reads_someRun? (p : Char → Bool) : Reads (someRun? p) := by
  intro cs n h
  obtain ⟨rfl, hpos⟩ := someRun?_eq_some_iff.1 h
  exact ⟨hpos, runLength_le p cs⟩

/-- A run of characters goes on as long as it can. -/
theorem runLength_append_iff {p : Char → Bool} {w u : List Char} :
    runLength p (w ++ u) = w.length ↔ (∀ c ∈ w, p c = true) ∧ u.head?.any p = false := by
  have hpos : ∀ {w : List Char}, (∀ c ∈ w, p c = true) → runLength p (w ++ u) = w.length + runLength p u := by
    intro w hw
    rw [runLength, List.takeWhile_append_of_pos hw, List.length_append, runLength]
  have hzero : runLength p u = 0 ↔ u.head?.any p = false := by
    cases u with
    | nil => simp [runLength]
    | cons c u => cases hc : p c <;> simp [runLength, hc]
  constructor
  · intro h
    have hall : (w ++ u).takeWhile p = w := by
      have hcut := List.prefix_iff_eq_take.1 (List.takeWhile_prefix p (l := w ++ u))
      rwa [← runLength, h, List.take_left] at hcut
    have hw : ∀ c ∈ w, p c = true := by
      rw [← hall]
      exact List.all_eq_true.1 List.all_takeWhile
    exact ⟨hw, hzero.1 (by rw [hpos hw] at h; omega)⟩
  · rintro ⟨hw, hu⟩
    rw [hpos hw, hzero.2 hu, Nat.add_zero]

/-- What makes up a whole run. -/
theorem someRun?_append_iff {p : Char → Bool} {w u : List Char} :
    someRun? p (w ++ u) = some w.length ↔ w ≠ [] ∧ (∀ c ∈ w, p c = true) ∧ u.head?.any p = false := by
  rw [← runLength_append_iff, someRun?]
  cases w with
  | nil => simp
  | cons c w => simp +contextual [List.length_cons]

theorem someRun?_eq_none_iff {p : Char → Bool} {cs : List Char} : someRun? p cs = none ↔ cs.head?.any p = false := by
  have hrun := runLength_append_iff (p := p) (w := []) (u := cs)
  rw [someRun?]
  simp only [List.nil_append, List.length_nil, List.not_mem_nil, false_implies, implies_true, true_and] at hrun
  simp [← hrun]

theorem exists_append_of_le {n : Nat} {w : List Char} (h : n ≤ w.length) : ∃ w₁ w₂, w = w₁ ++ w₂ ∧ n = w₁.length :=
  ⟨w.take n, w.drop n, (List.take_append_drop n w).symm, (List.length_take_of_le h).symm⟩

/-- A word after a given text. -/
theorem exists_of_after (text : List Char) {f g : List Char → Option Nat} (hg : ∀ rest, g (text ++ rest) = (f rest).map (· + text.length))
    (hnone : ∀ cs, ¬ text <+: cs → g cs = none) {w u : List Char} (h : g (w ++ u) = some w.length) :
    ∃ w', w = text ++ w' ∧ f (w' ++ u) = some w'.length := by
  have hbegins : text <+: w ++ u := by
    refine Decidable.by_contra fun hnot => ?_
    rw [hnone _ hnot] at h
    cases h
  obtain ⟨rest, hrest⟩ := hbegins
  rw [← hrest, hg] at h
  obtain ⟨k, hk, hlength⟩ := Option.map_eq_some_iff.1 h
  obtain ⟨w', rfl⟩ : text <+: w := List.prefix_of_prefix_length_le ⟨rest, hrest⟩ (List.prefix_append _ _) (by omega)
  rw [List.append_assoc, List.append_cancel_left_eq] at hrest
  obtain rfl : k = w'.length := by rw [List.length_append] at hlength; omega
  exact ⟨w', rfl, hrest ▸ hk⟩

theorem exactLength?_eq_some_iff {text cs : List Char} {n : Nat} :
    exactLength? text cs = some n ↔ text <+: cs ∧ n = text.length := by
  rw [exactLength?, Option.ite_none_right_eq_some, List.isPrefixOf_iff_prefix, Option.some.injEq, eq_comm (a := n)]

theorem wordLength?_eq_some_iff {word cs : List Char} {n : Nat} :
    wordLength? word cs = some n ↔
      word <+: cs ∧ (cs.drop word.length).head?.any isNameChar = false ∧ n = word.length := by
  rw [wordLength?, Option.ite_none_right_eq_some, Bool.and_eq_true, Bool.not_eq_true', List.isPrefixOf_iff_prefix,
    Option.some.injEq, eq_comm (a := n), and_assoc]

theorem reads_exactLength? {text : List Char} (htext : text ≠ []) : Reads (exactLength? text) := by
  intro cs n h
  obtain ⟨hbegins, rfl⟩ := exactLength?_eq_some_iff.1 h
  exact ⟨List.length_pos_iff.2 htext, hbegins.length_le⟩

theorem reads_wordLength? {word : List Char} (hword : word ≠ []) : Reads (wordLength? word) := by
  intro cs n h
  obtain ⟨hbegins, -, rfl⟩ := wordLength?_eq_some_iff.1 h
  exact ⟨List.length_pos_iff.2 hword, hbegins.length_le⟩

/-- The first of some lengths tells of a character when all of them do. -/
theorem reads_findSome? {words : List String} (length? : String → List Char → Option Nat)
    (h : ∀ w ∈ words, Reads (length? w)) : Reads fun cs => words.findSome? (length? · cs) := by
  intro cs n hn
  obtain ⟨w, hw, hl⟩ := List.exists_of_findSome?_eq_some hn
  exact h w hw cs n hl

/-- A first character before what another length tells of. -/
theorem reads_cons {length? : List Char → Option Nat} (h : Reads length?) {c : Char} {cs : List Char} {n : Nat}
    (hn : (length? cs).map (· + 1) = some n) : 0 < n ∧ n ≤ (c :: cs).length := by
  obtain ⟨k, hk, rfl⟩ := Option.map_eq_some_iff.1 hn
  have := (h cs k hk).2
  exact ⟨by omega, by rw [List.length_cons]; omega⟩

theorem nameLength?_cons_eq_some_iff {first : Char → Bool} {c : Char} {cs : List Char} {n : Nat} :
    nameLength? first (c :: cs) = some n ↔ first c = true ∧ n = runLength isNameChar cs + 1 := by
  rw [nameLength?, Option.ite_none_right_eq_some, Option.some.injEq, eq_comm (a := n)]

/-- What makes up a whole name. -/
theorem nameLength?_append_iff {first : Char → Bool} {c : Char} {w u : List Char} :
    nameLength? first (c :: w ++ u) = some (c :: w).length ↔
      first c = true ∧ (∀ d ∈ w, isNameChar d = true) ∧ u.head?.any isNameChar = false := by
  rw [List.cons_append, nameLength?_cons_eq_some_iff, List.length_cons, Nat.succ_inj, eq_comm (a := w.length),
    runLength_append_iff]

theorem reads_nameLength? (first : Char → Bool) : Reads (nameLength? first) := by
  intro cs n h
  cases cs with
  | nil => cases h
  | cons c cs =>
    obtain ⟨-, rfl⟩ := nameLength?_cons_eq_some_iff.1 h
    exact ⟨by omega, Nat.succ_le_succ (runLength_le isNameChar cs)⟩

theorem dottedTail_le (last : Char → Bool) (capitalised : Bool) (cs : List Char) :
    dottedTail last capitalised cs ≤ cs.length := by
  fun_induction dottedTail last capitalised cs <;> simp <;> omega

theorem reads_dottedLength? (last : Char → Bool) : Reads (dottedLength? last) := by
  intro cs n h
  cases cs with
  | nil => cases h
  | cons c cs =>
    simp only [dottedLength?] at h
    split at h
    · cases h
      exact ⟨by omega, Nat.succ_le_succ (dottedTail_le last (isUpper c) cs)⟩
    · cases h

theorem hexLength?_eq_none {cs : List Char} (h : ¬ ['0', 'x'] <+: cs) : hexLength? cs = none := by
  unfold hexLength?
  split
  · next rest => exact absurd ⟨rest, rfl⟩ h
  · rfl

theorem fractionLength?_eq_none (digit : Char → Bool) {cs : List Char} (h : ¬ ['.'] <+: cs) : fractionLength? digit cs = none := by
  unfold fractionLength?
  split
  · next rest => exact absurd ⟨rest, rfl⟩ h
  · rfl

theorem reads_hexLength? : Reads hexLength? := by
  intro cs n h
  unfold hexLength? at h
  split at h
  · obtain ⟨k, hk, rfl⟩ := Option.map_eq_some_iff.1 h
    have := (reads_someRun? isHexDigit _ k hk).2
    exact ⟨by omega, by simp only [List.length_cons]; omega⟩
  · cases h

theorem reads_orElse {f g : List Char → Option Nat} (hf : Reads f) (hg : Reads g) : Reads fun cs => f cs <|> g cs := by
  intro cs n h
  simp only [Option.orElse_eq_orElse, Option.orElse_eq_or, Option.or_eq_some_iff] at h
  rcases h with h | ⟨-, h⟩
  · exact hf cs n h
  · exact hg cs n h

theorem reads_fractionLength? (digit : Char → Bool) : Reads (fractionLength? digit) := by
  intro cs n h
  unfold fractionLength? at h
  split at h
  · exact reads_cons (reads_someRun? digit) h
  · cases h

theorem reads_exponentLength? (digit : Char → Bool) : Reads (exponentLength? digit) := by
  intro cs n h
  unfold exponentLength? at h
  split at h
  · split at h
    · split at h
      · obtain ⟨k, hk, rfl⟩ := Option.map_eq_some_iff.1 h
        have := (reads_someRun? digit _ k hk).2
        exact ⟨by omega, by simp only [List.length_cons]; omega⟩
      · exact reads_cons (reads_someRun? digit) h
    · cases h
  · cases h

/-- An exponent is more than its letter. -/
theorem exponentLength?_ne_one (digit : Char → Bool) (cs : List Char) : exponentLength? digit cs ≠ some 1 := by
  intro h
  unfold exponentLength? at h
  split at h
  · split at h
    · split at h
      · obtain ⟨k, -, hk⟩ := Option.map_eq_some_iff.1 h
        omega
      · obtain ⟨k, hrun, hk⟩ := Option.map_eq_some_iff.1 h
        have := (reads_someRun? digit _ k hrun).1
        omega
    · cases h
  · cases h

theorem reads_floatLength? (digit : Char → Bool) : Reads (floatLength? digit) := by
  intro cs n h
  obtain ⟨whole, hw, h⟩ := Option.bind_eq_some_iff.1 h
  obtain ⟨hpos, hle⟩ := reads_someRun? digit cs whole hw
  have hexponent : ∀ k m, exponentLength? digit (cs.drop k) = some m → m ≤ cs.length - k := by
    intro k m hm
    have := (reads_exponentLength? digit _ m hm).2
    rwa [List.length_drop] at this
  split at h
  · next fraction hfraction =>
    cases h
    have hle' := (reads_fractionLength? digit _ fraction hfraction).2
    rw [List.length_drop] at hle'
    refine ⟨by omega, ?_⟩
    cases hm : exponentLength? digit (cs.drop (whole + fraction)) with
    | none => simp only [Option.getD_none]; omega
    | some m =>
      have := hexponent _ m hm
      simp only [Option.getD_some]
      omega
  · obtain ⟨k, hk, rfl⟩ := Option.map_eq_some_iff.1 h
    have := hexponent whole k hk
    exact ⟨by omega, by omega⟩

section Scale

variable (digit : Char → Bool)

/-- The length of a fraction with an exponent, or of either. -/
def scaleLength? (cs : List Char) : Option Nat :=
  match fractionLength? digit cs with
  | some fraction => some (fraction + (exponentLength? digit (cs.drop fraction)).getD 0)
  | none => exponentLength? digit cs

theorem floatLength?_eq (cs : List Char) : floatLength? digit cs =
    (someRun? digit cs).bind fun whole => (scaleLength? digit (cs.drop whole)).map (whole + ·) := by
  unfold floatLength? scaleLength?
  congr 1
  funext whole
  cases fractionLength? digit (cs.drop whole) with
  | none => rfl
  | some fraction => simp [List.drop_drop, Nat.add_assoc]

/-- A scale is a fraction, perhaps with an exponent, or an exponent. -/
theorem exists_of_scaleLength? {w u : List Char} (h : scaleLength? digit (w ++ u) = some w.length) :
    (fractionLength? digit (w ++ u) = none ∧ exponentLength? digit (w ++ u) = some w.length) ∨
    ∃ w₁ w₂, w = w₁ ++ w₂ ∧ fractionLength? digit (w₁ ++ (w₂ ++ u)) = some w₁.length ∧
      (exponentLength? digit (w₂ ++ u) = some w₂.length ∨ (w₂ = [] ∧ exponentLength? digit u = none)) := by
  unfold scaleLength? at h
  split at h
  · next fraction hfraction =>
    have hlength := Option.some.inj h
    obtain ⟨w₁, w₂, rfl, rfl⟩ := exists_append_of_le (n := fraction) (w := w) (by omega)
    rw [List.append_assoc] at hfraction
    rw [List.append_assoc, List.drop_left, List.length_append, Nat.add_left_cancel_iff] at hlength
    refine .inr ⟨w₁, w₂, rfl, hfraction, ?_⟩
    cases hexponent : exponentLength? digit (w₂ ++ u) with
    | none =>
      rw [hexponent] at hlength
      obtain rfl := List.eq_nil_of_length_eq_zero hlength.symm
      exact .inr ⟨rfl, hexponent⟩
    | some exponent =>
      rw [hexponent] at hlength
      exact .inl (congrArg some hlength)
  · next hfraction => exact .inl ⟨hfraction, h⟩

/-- A number with a scale is digits and the scale. -/
theorem exists_of_floatLength? {w u : List Char} (h : floatLength? digit (w ++ u) = some w.length) :
    ∃ w₁ w₂, w = w₁ ++ w₂ ∧ someRun? digit (w₁ ++ (w₂ ++ u)) = some w₁.length ∧ scaleLength? digit (w₂ ++ u) = some w₂.length := by
  rw [floatLength?_eq] at h
  obtain ⟨whole, hwhole, h⟩ := Option.bind_eq_some_iff.1 h
  obtain ⟨scale, hscale, hlength⟩ := Option.map_eq_some_iff.1 h
  obtain ⟨w₁, w₂, rfl, rfl⟩ := exists_append_of_le (n := whole) (w := w) (by omega)
  obtain rfl : scale = w₂.length := by rw [List.length_append] at hlength; omega
  rw [List.append_assoc] at hwhole
  rw [List.append_assoc, List.drop_left] at hscale
  exact ⟨w₁, w₂, rfl, hwhole, hscale⟩

end Scale

theorem reads_quotedEnd? (quote : Char) (acrossLines : Bool) : Reads (quotedEnd? quote acrossLines) := by
  intro cs
  fun_induction quotedEnd? quote acrossLines cs with
  | case1 => nofun
  | case2 => nofun
  | case3 c cs h ih =>
    intro n hn
    obtain ⟨k, hk, rfl⟩ := Option.map_eq_some_iff.1 hn
    have := ih k hk
    exact ⟨by omega, by simp only [List.length_cons]; omega⟩
  | case4 c cs =>
    intro n hn
    cases hn
    exact ⟨Nat.one_pos, by simp⟩
  | case5 => nofun
  | case6 c cs _ _ _ ih =>
    intro n hn
    obtain ⟨k, hk, rfl⟩ := Option.map_eq_some_iff.1 hn
    have := ih k hk
    exact ⟨by omega, by simp only [List.length_cons]; omega⟩

theorem reads_blockStringEnd? : Reads blockStringEnd? := by
  intro cs
  fun_induction blockStringEnd? cs with
  | case1 => nofun
  | case2 =>
    intro n hn
    cases hn
    exact ⟨by omega, by simp⟩
  | case3 c cs ih =>
    intro n hn
    obtain ⟨k, hk, rfl⟩ := Option.map_eq_some_iff.1 hn
    have := ih k hk
    exact ⟨by omega, by simp only [List.length_cons]; omega⟩
  | case4 => nofun
  | case5 c cs _ _ _ ih =>
    intro n hn
    obtain ⟨k, hk, rfl⟩ := Option.map_eq_some_iff.1 hn
    have := ih k hk
    exact ⟨by omega, by simp only [List.length_cons]; omega⟩

theorem reads_stringLength? (acrossLines : Bool) : Reads (stringLength? acrossLines) := by
  intro cs n h
  unfold stringLength? at h
  split at h
  · split at h
    · next k hk =>
      cases h
      have := (reads_blockStringEnd? _ k hk).2
      exact ⟨by omega, by simp only [List.length_cons]; omega⟩
    · cases h
      exact ⟨by omega, by simp⟩
  · exact reads_cons (reads_quotedEnd? _ _) h
  · cases h

theorem reads_charLength? (acrossLines : Bool) : Reads (charLength? acrossLines) := by
  intro cs n h
  unfold charLength? at h
  split at h
  · cases h
  · exact reads_cons (reads_quotedEnd? _ _) h
  · cases h

/-! ## Lexemes -/

namespace Lexeme

/-- Whether a class of words may have an empty one. -/
def isNullable : Lexeme → Bool
  | exact text | word text => text.toList.isEmpty
  | blanks | untilBrace => true
  | _ => false

theorem keywords_ne_nil : ∀ w ∈ keywords, w.toList ≠ [] := by decide

theorem operators_ne_nil : ∀ w ∈ operators, w.toList ≠ [] := by decide

theorem reads_operatorLength? : Reads operatorLength? := by
  refine reads_findSome? (fun operator cs =>
    if operator == "-" && (cs.drop 1).head?.any (fun c => c == '>' || c == '-') then none
    else exactLength? operator.toList cs) fun w hw cs n h => ?_
  simp only at h
  split at h
  · cases h
  · exact reads_exactLength? (operators_ne_nil w hw) cs n h

/-- The words of a class that has no empty one have a character at least. -/
theorem length?_pos {l : Lexeme} (hl : l.isNullable = false) : Reads l.length? := by
  cases l with
  | exact text => exact reads_exactLength? (by simpa [isNullable] using hl)
  | word text => exact reads_wordLength? (by simpa [isNullable] using hl)
  | keyword => exact reads_findSome? (fun word => wordLength? word.toList) fun w hw => reads_wordLength? (keywords_ne_nil w hw)
  | lowerName => exact reads_nameLength? _
  | upperName => exact reads_nameLength? _
  | upperPath => exact reads_dottedLength? _
  | path => exact reads_dottedLength? _
  | field =>
    intro cs n h
    simp only [length?] at h
    split at h
    · exact reads_cons (reads_nameLength? _) h
    · cases h
  | wildcard => exact reads_wordLength? (by simp)
  | float => exact reads_floatLength? _
  | int => exact reads_orElse reads_hexLength? (reads_someRun? _)
  | string => exact reads_stringLength? _
  | char => exact reads_charLength? _
  | operator => exact reads_operatorLength?
  | blanks => cases hl
  | someBlanks => exact reads_someRun? _
  | marker m => exact reads_exactLength? (by simp)
  | untilBrace => cases hl

end Lexeme

/-- A dotted name begins with a character that can begin a last segment. -/
theorem head?_of_dottedLength? {last : Char → Bool} {cs : List Char} {n : Nat} (h : dottedLength? last cs = some n) :
    ∃ c, cs.head? = some c ∧ last c = true := by
  cases cs with
  | nil => cases h
  | cons c cs =>
    simp only [dottedLength?] at h
    split at h
    · next hc => exact ⟨c, rfl, hc⟩
    · cases h

/-! ## Segments of dotted names -/

/-- A capitalised segment of a dotted name. -/
def Capitalised (segment : List Char) : Prop :=
  ∃ c rest, segment = c :: rest ∧ isUpper c = true ∧ ∀ d ∈ rest, isNameChar d = true

/-- A dotted name goes on with the rest of its segment, then with segments after dots, as far as there are name characters. After a
capitalised segment no dot follows with the beginning of another one. -/
theorem dottedTail_spec (last : Char → Bool) (capitalised : Bool) (cs : List Char) :
    ∃ (rest : List Char) (segments : List (List Char)),
      cs.take (dottedTail last capitalised cs) = rest ++ segments.flatMap (['.'] ++ ·) ∧
      (∀ d ∈ rest, isNameChar d = true) ∧
      (∀ s ∈ segments, ∃ c rest, s = c :: rest ∧ last c = true ∧ ∀ d ∈ rest, isNameChar d = true) ∧
      (cs.drop (dottedTail last capitalised cs)).head?.any isNameChar = false ∧
      (segments.getLast?.elim capitalised (·.head?.any isUpper) = true →
        ∀ c after, cs.drop (dottedTail last capitalised cs) = '.' :: c :: after → last c = false) := by
  fun_induction dottedTail last capitalised cs with
  | case1 => exact ⟨[], [], rfl, nofun, nofun, rfl, nofun⟩
  | case2 capitalised c cs h ih =>
    obtain ⟨rest, segments, htake, hrest, hsegments, hend, hstop⟩ := ih
    simp only [Bool.and_eq_true] at h
    refine ⟨[], (c :: rest) :: segments, ?_, nofun, ?_, hend, ?_⟩
    · simp [List.take_succ_cons, htake]
    · intro s hs
      rcases List.mem_cons.1 hs with rfl | hs
      · exact ⟨c, rest, rfl, h.2, hrest⟩
      · exact hsegments s hs
    · intro hlast
      refine hstop ?_
      cases segments with
      | nil => simpa using hlast
      | cons s segments => simpa [List.getLast?_cons] using hlast
  | case3 capitalised c cs h =>
    refine ⟨[], [], rfl, nofun, nofun, rfl, ?_⟩
    intro hlast d after heq
    cases heq
    simpa [show capitalised = true from hlast] using h
  | case4 capitalised c cs hdot hc ih =>
    obtain ⟨rest, segments, htake, hrest, hsegments, hend, hstop⟩ := ih
    refine ⟨c :: rest, segments, ?_, ?_, hsegments, hend, hstop⟩
    · simp [List.take_succ_cons, htake]
    · intro d hd
      rcases List.mem_cons.1 hd with rfl | hd
      · exact hc
      · exact hrest d hd
  | case5 capitalised c cs hdot hc =>
    refine ⟨[], [], rfl, nofun, nofun, by simpa using hc, ?_⟩
    intro _ d after heq
    cases heq
    exact (hdot d after rfl rfl).elim

/-- A dotted name is made of segments joined by dots, and no name character follows it; if its last segment is capitalised, no dot
follows with the beginning of another one. -/
theorem dottedLength?_spec {last : Char → Bool} {cs : List Char} {n : Nat} (h : dottedLength? last cs = some n) :
    ∃ segments, segments ≠ [] ∧
      (∀ s ∈ segments, ∃ c rest, s = c :: rest ∧ last c = true ∧ ∀ d ∈ rest, isNameChar d = true) ∧
      cs.take n = ['.'].intercalate segments ∧ (cs.drop n).head?.any isNameChar = false ∧
      ∀ s ∈ segments.getLast?, s.head?.any isUpper = true → ∀ c after, cs.drop n = '.' :: c :: after → last c = false := by
  cases cs with
  | nil => cases h
  | cons c cs =>
    simp only [dottedLength?] at h
    split at h
    · next hc =>
      cases h
      obtain ⟨rest, segments, htake, hrest, hsegments, hend, hstop⟩ := dottedTail_spec last (isUpper c) cs
      refine ⟨(c :: rest) :: segments, List.cons_ne_nil _ _, ?_, ?_, hend, ?_⟩
      · intro s hs
        rcases List.mem_cons.1 hs with rfl | hs
        · exact ⟨c, rest, rfl, hc, hrest⟩
        · exact hsegments s hs
      · rw [List.take_succ_cons, htake]
        have hjoin : ∀ (first : List Char) (more : List (List Char)),
            ['.'].intercalate (first :: more) = first ++ more.flatMap (['.'] ++ ·) := by
          intro first more
          induction more generalizing first with
          | nil => simp
          | cons next more ih => rw [List.intercalate_cons_cons, ih, List.flatMap_cons, List.append_assoc, List.append_assoc]
        rw [hjoin, List.cons_append]
      · intro s hs hupper
        refine hstop ?_
        cases segments with
        | nil =>
          cases hs
          exact hupper
        | cons next segments =>
          rw [List.getLast?_cons_cons] at hs
          rw [Option.mem_def.1 hs]
          exact hupper
    · cases h

end ElmLint
