import ElmLint.Proofs.Skeleton

/-!
# Texts that differ in their gaps

Two texts are alike when they render one skeleton (`Alike`). A word of the grammar is read alike in both: it is there in both or
in neither, and what comes after it is alike again (`Alike.reads`, `Alike.reads_marker`, `Alike.reads_literal`). There are two
exceptions. At the end one text may have blanks where the other one has none (`Alike.reads_someBlanks`). And the text before the
next closing brace may end inside a literal; then the reading goes on inside it, in both texts astray (`Alike.untilBrace`,
`Astray.reads`).
-/

namespace ElmLint

variable {words : List (Token.Kind × List Char)}

/-! ## What a text with a skeleton begins with -/

theorem isSolid_iff {c : Char} : isSolid c = true ↔ isBlank c = false ∧ isMarker c = false ∧ isQuote c = false := by
  simp only [isSolid, LaidOut.isFiller, isQuote, Bool.and_eq_true, Bool.not_eq_true', Bool.or_eq_false_iff, bne_iff_ne,
    beq_eq_false_iff_ne, ne_eq, and_assoc]

theorem takeWhile_isSolid_eq_nil {cs : List Char} (h : ∀ c ∈ cs.head?, isBlank c = true ∨ isQuote c = true) :
    cs.takeWhile isSolid = [] := by
  cases cs with
  | nil => rfl
  | cons c cs =>
    refine List.takeWhile_cons_of_neg fun hc => ?_
    obtain ⟨hblank, -, hquote⟩ := isSolid_iff.1 hc
    rcases h c rfl with h | h
    · rw [hblank] at h
      cases h
    · rw [hquote] at h
      cases h

namespace Renders

variable {sk : List Chunk} {cs cs' : List Char}

theorem exists_char {c : Char} (h : Renders words sk (c :: cs)) (hblank : isBlank c = false) (hquote : isQuote c = false) :
    ∃ sk', sk = .char c :: sk' ∧ Renders words sk' cs := by
  generalize hcs : c :: cs = text at h
  cases h with
  | done hall =>
    have := hall c (hcs ▸ List.mem_cons_self)
    rw [hblank] at this
    cases this
  | @gap bs cs' sk hne hall _ _ _ =>
    obtain ⟨b, bs, rfl⟩ := List.exists_cons_of_ne_nil hne
    have := hall b List.mem_cons_self
    rw [← (List.cons_eq_cons.1 hcs).1, hblank] at this
    cases this
  | char _ _ h =>
    cases hcs
    exact ⟨_, rfl, h⟩
  | @token kind text cs' sk _ hhead _ _ =>
    cases text with
    | nil => cases hhead
    | cons d text =>
      rw [← (List.cons_eq_cons.1 hcs).1, List.head?_cons, Option.any_some, hquote] at hhead
      cases hhead

/-- The solid characters at the start of a text stand in its skeleton. -/
theorem drop_isSolid : ∀ {n : Nat} {sk : List Chunk} {cs : List Char}, Renders words sk cs → n ≤ (cs.takeWhile isSolid).length →
    Renders words (sk.drop n) (cs.drop n)
  | 0, _, _, h, _ => h
  | n + 1, _, [], _, hn => by cases hn
  | n + 1, sk, c :: cs, h, hn => by
    by_cases hc : isSolid c = true
    · rw [takeWhile_isSolid_cons hc] at hn
      obtain ⟨hblank, -, hquote⟩ := isSolid_iff.1 hc
      obtain ⟨sk', rfl, h'⟩ := h.exists_char hblank hquote
      exact h'.drop_isSolid (Nat.le_of_succ_le_succ hn)
    · rw [List.takeWhile_cons_of_neg hc] at hn
      cases hn

theorem head?_isBlank {bs rest : List Char} (hne : bs ≠ []) (h : ∀ c ∈ bs, isBlank c = true) :
    ∀ c ∈ (bs ++ rest).head?, isBlank c = true := by
  obtain ⟨b, bs, rfl⟩ := List.exists_cons_of_ne_nil hne
  intro c hc
  rw [← Option.some.inj hc]
  exact h b List.mem_cons_self

/-- Texts with one skeleton begin with the same solid characters. -/
theorem takeWhile_isSolid_eq (h : Renders words sk cs) (h' : Renders words sk cs') :
    cs.takeWhile isSolid = cs'.takeWhile isSolid := by
  induction h generalizing cs' with
  | done hall =>
    cases h' with
    | done hall' =>
      rw [takeWhile_isSolid_eq_nil fun c hc => .inl (hall c (List.mem_of_mem_head? hc)),
        takeWhile_isSolid_eq_nil fun c hc => .inl (hall' c (List.mem_of_mem_head? hc))]
  | gap hne hall _ _ _ _ =>
    cases h' with
    | gap hne' hall' _ _ _ =>
      rw [takeWhile_isSolid_eq_nil fun c hc => .inl (head?_isBlank hne hall c hc),
        takeWhile_isSolid_eq_nil fun c hc => .inl (head?_isBlank hne' hall' c hc)]
  | @char c cs sk _ _ _ ih =>
    cases h' with
    | char _ _ h' =>
      rw [List.takeWhile_cons, List.takeWhile_cons, ih h']
  | @token kind text cs sk _ hhead _ _ _ =>
    cases h' with
    | token _ _ _ _ =>
      cases text with
      | nil => cases hhead
      | cons c text =>
        have hc : ¬ isSolid c = true := fun hc => by
          rw [List.head?_cons, Option.any_some, (isSolid_iff.1 hc).2.2] at hhead
          cases hhead
        rw [List.cons_append, List.cons_append, List.takeWhile_cons_of_neg hc, List.takeWhile_cons_of_neg hc]

/-- A skeleton without the gap it begins with. -/
def afterGap : List Chunk → List Chunk
  | .gap :: sk => sk
  | sk => sk

/-- After the blanks at its start a text has the skeleton without the gap. -/
theorem dropWhile_isBlank (h : Renders words sk cs) : Renders words (afterGap sk) (cs.dropWhile isBlank) := by
  cases h with
  | done hall =>
    rw [List.dropWhile_eq_nil_iff.2 hall]
    exact .done (List.forall_mem_nil _)
  | @gap bs cs sk _ hall hnext _ h =>
    obtain ⟨c, hc, hblank⟩ := hnext
    obtain ⟨rest, rfl⟩ := List.head?_eq_some_iff.1 hc
    rw [List.dropWhile_append_of_pos hall, List.dropWhile_cons_of_neg (by simp [hblank])]
    exact h
  | @char c cs sk hblank hquote h =>
    rw [List.dropWhile_cons_of_neg (by simp [hblank])]
    exact .char hblank hquote h
  | @token kind text cs sk hmem hhead hwhole h =>
    cases text with
    | nil => cases hhead
    | cons c text =>
      rw [List.cons_append, List.dropWhile_cons_of_neg (by simp [(isBlank_of_isQuote hhead).1])]
      exact (Renders.token hmem hhead hwhole h :)

/-- A text of blanks has no skeleton. -/
theorem eq_nil_of_isBlank (h : Renders words sk cs) (hall : ∀ c ∈ cs, isBlank c = true) : sk = [] := by
  cases h with
  | done => rfl
  | gap _ _ hnext _ _ =>
    obtain ⟨c, hc, hblank⟩ := hnext
    rw [hall c (List.mem_append_right _ (List.mem_of_mem_head? hc))] at hblank
    cases hblank
  | char hblank _ _ =>
    rw [hall _ List.mem_cons_self] at hblank
    cases hblank
  | @token kind text rest sk _ hhead _ _ =>
    cases text with
    | nil => cases hhead
    | cons c text =>
      cases (isBlank_of_isQuote hhead).1.symm.trans (hall c List.mem_cons_self)

/-- A string or a character that is read is one of the words. -/
theorem exists_literal (h : Renders words sk cs) {l : Lexeme} (hl : l = .string ∨ l = .char) {n : Nat} (hn : l.length? cs = some n) :
    ∃ kind text rest sk', cs = text ++ rest ∧ sk = .token text :: sk' ∧ (kind, text) ∈ words ∧ n = text.length ∧
      l.length? text = some n ∧ Renders words sk' rest := by
  obtain ⟨q, after, rfl, hquote⟩ := Lexeme.exists_quote hl hn
  have hblank := (isBlank_of_isQuote hquote).1
  generalize hcs : q :: after = text at h hn
  cases h with
  | done hall =>
    rw [hall q (hcs ▸ List.mem_cons_self)] at hblank
    cases hblank
  | @gap bs rest sk hne hall _ _ _ =>
    have hhead : q ∈ (bs ++ rest).head? := by rw [← hcs]; rfl
    rw [head?_isBlank hne hall q hhead] at hblank
    cases hblank
  | char _ hnot _ =>
    obtain rfl := (List.cons_eq_cons.1 hcs).1
    cases hnot.symm.trans hquote
  | @token kind text rest sk hmem _ hwhole h =>
    obtain ⟨hlength, heq⟩ := hwhole.of_length? hl hn
    exact ⟨kind, text, rest, sk, rfl, rfl, hmem, heq, hlength, h⟩

end Renders

/-! ## Words in two texts -/

/-- Whether the words of a class are blanks. -/
def Lexeme.isGap : Lexeme → Bool
  | blanks | someBlanks => true
  | _ => false

/-- A word is read alike in two texts: it is in neither, or it is in both, and what comes after it is related again. Of blanks
it does not matter which they are. -/
def Lexeme.ReadsAlike (T : List Char → List Char → Prop) (l : Lexeme) (cs cs' : List Char) : Prop :=
  (l.length? cs = none ∧ l.length? cs' = none) ∨
    ∃ n n', l.length? cs = some n ∧ l.length? cs' = some n' ∧ (l.isGap = false → cs.take n = cs'.take n') ∧
      T (cs.drop n) (cs'.drop n')

theorem take_takeWhile {p : Char → Bool} {n : Nat} {cs : List Char} (h : n ≤ (cs.takeWhile p).length) :
    (cs.takeWhile p).take n = cs.take n := by
  rw [List.prefix_iff_eq_take.1 (List.takeWhile_prefix p (l := cs)), List.take_take, Nat.min_eq_left h]

/-- The words of a class of solid characters are the same in texts that begin with the same solid characters. -/
theorem Lexeme.length?_of_takeWhile {l : Lexeme} (hl : l.isWord = true) {cs cs' : List Char}
    (h : cs.takeWhile isSolid = cs'.takeWhile isSolid) :
    (l.length? cs = none ∧ l.length? cs' = none) ∨ ∃ n, l.length? cs = some n ∧ l.length? cs' = some n ∧
      n ≤ (cs.takeWhile isSolid).length ∧ cs.take n = cs'.take n := by
  rw [isWord, Bool.and_eq_true, Bool.not_eq_true'] at hl
  have hsame : l.length? cs = l.length? cs' := by rw [← contained hl.1 cs, ← contained hl.1 cs', h]
  rw [← hsame]
  cases hn : l.length? cs with
  | none => exact .inl ⟨rfl, rfl⟩
  | some n =>
    have hle : n ≤ (cs.takeWhile isSolid).length := (length?_pos hl.2 _ n ((contained hl.1 cs).trans hn)).2
    exact .inr ⟨n, rfl, rfl, hle, by rw [← take_takeWhile hle, h, take_takeWhile (h ▸ hle)]⟩

theorem Lexeme.length?_marker (m : Marker) (cs : List Char) :
    (marker m).length? cs = if cs.head? = some m.char then some 1 else none := by
  cases cs with
  | nil => rfl
  | cons c cs =>
    have hcomm : m.char = c ↔ c = m.char := eq_comm
    simp [length?, exactLength?, List.isPrefixOf, hcomm]

/-- Two texts with one skeleton. -/
def Alike (words : List (Token.Kind × List Char)) (cs cs' : List Char) : Prop :=
  ∃ sk, Renders words sk cs ∧ Renders words sk cs'

namespace Alike

variable {cs cs' : List Char}

theorem visibleCount_eq (h : Alike words cs cs') : visibleCount cs = visibleCount cs' := by
  obtain ⟨sk, h, h'⟩ := h
  exact h.visibleCount_eq h'

/-- One text is of blanks just when the other one is. -/
theorem dropWhile_eq_nil_iff (h : Alike words cs cs') : cs.dropWhile isBlank = [] ↔ cs'.dropWhile isBlank = [] := by
  have himp : ∀ {sk : List Chunk} {cs cs' : List Char}, Renders words sk cs → Renders words sk cs' → cs.dropWhile isBlank = [] →
      cs'.dropWhile isBlank = [] := by
    intro sk cs cs' h h' hnil
    obtain rfl := h.eq_nil_of_isBlank (List.dropWhile_eq_nil_iff.1 hnil)
    cases h' with
    | done hall => exact List.dropWhile_eq_nil_iff.2 hall
  obtain ⟨sk, h, h'⟩ := h
  exact ⟨himp h h', himp h' h⟩

/-- Blanks and words of solid characters are read alike. -/
theorem reads (h : Alike words cs cs') {l : Lexeme} (hl : l.isWord = true ∨ l = .blanks) :
    l.ReadsAlike (Alike words) cs cs' := by
  obtain ⟨sk, h, h'⟩ := h
  rcases hl with hl | rfl
  · have hsame := h.takeWhile_isSolid_eq h'
    rcases l.length?_of_takeWhile hl hsame with hnone | ⟨n, hn, hn', hle, htake⟩
    · exact .inl hnone
    · exact .inr ⟨n, n, hn, hn', fun _ => htake, sk.drop n, h.drop_isSolid hle, h'.drop_isSolid (hsame ▸ hle)⟩
  · refine .inr ⟨_, _, rfl, rfl, (fun hgap => by cases hgap), Renders.afterGap sk, ?_, ?_⟩
    · rw [drop_runLength]
      exact h.dropWhile_isBlank
    · rw [drop_runLength]
      exact h'.dropWhile_isBlank

/-- Markers are read alike. -/
theorem reads_marker (h : Alike words cs cs') (m : Marker) : (Lexeme.marker m).ReadsAlike (Alike words) cs cs' := by
  have hplain : isBlank m.char = false ∧ isQuote m.char = false := by cases m <;> exact ⟨rfl, rfl⟩
  have hhead : ∀ {cs cs' sk}, Renders words sk cs → Renders words sk cs' → cs.head? = some m.char → cs'.head? = some m.char := by
    intro cs cs' sk h h' hcs
    obtain ⟨rest, rfl⟩ := List.head?_eq_some_iff.1 hcs
    obtain ⟨sk', rfl, -⟩ := h.exists_char hplain.1 hplain.2
    cases h' with
    | char => rfl
  obtain ⟨sk, h, h'⟩ := h
  rw [Lexeme.ReadsAlike, Lexeme.length?_marker, Lexeme.length?_marker]
  by_cases hcs : cs.head? = some m.char
  · have hcs' := hhead h h' hcs
    obtain ⟨rest, rfl⟩ := List.head?_eq_some_iff.1 hcs
    obtain ⟨rest', rfl⟩ := List.head?_eq_some_iff.1 hcs'
    obtain ⟨sk', rfl, hrest⟩ := h.exists_char hplain.1 hplain.2
    cases h' with
    | char _ _ hrest' => exact .inr ⟨1, 1, if_pos rfl, if_pos rfl, fun _ => rfl, sk', hrest, hrest'⟩
  · exact .inl ⟨if_neg hcs, if_neg fun hcs' => hcs (hhead h' h hcs')⟩

/-- Strings and characters are read alike. -/
theorem reads_literal (h : Alike words cs cs') {l : Lexeme} (hl : l = .string ∨ l = .char) :
    l.ReadsAlike (Alike words) cs cs' := by
  obtain ⟨sk, h, h'⟩ := h
  have hsame : ∀ {cs cs' : List Char} {n : Nat}, Renders words sk cs → Renders words sk cs' → l.length? cs = some n →
      l.length? cs' = some n ∧ cs.take n = cs'.take n ∧ Alike words (cs.drop n) (cs'.drop n) := by
    intro cs cs' n h h' hn
    obtain ⟨kind, text, rest, sk', rfl, rfl, -, rfl, htext, hrest⟩ := h.exists_literal hl hn
    cases h' with
    | @token _ _ rest' _ _ _ hwhole' hrest' =>
      rw [List.take_left, List.take_left, List.drop_left, List.drop_left]
      refine ⟨?_, rfl, sk', hrest, hrest'⟩
      rcases hl with rfl | rfl
      · exact hwhole'.string.trans htext
      · exact hwhole'.char.trans htext
  cases hn : l.length? cs with
  | none =>
    refine .inl ⟨hn, ?_⟩
    by_contra hsome
    obtain ⟨n, hn'⟩ := Option.ne_none_iff_exists'.1 hsome
    cases hn.symm.trans (hsame h' h hn').1
  | some n =>
    obtain ⟨hn', htake, hrest⟩ := hsame h h' hn
    exact .inr ⟨n, n, hn, hn', fun _ => htake, hrest⟩

/-- Blanks that must be there are read alike, but at the end one text may have some where the other one has none. -/
theorem reads_someBlanks (h : Alike words cs cs') : Lexeme.someBlanks.ReadsAlike (Alike words) cs cs' ∨
    ((∀ c ∈ cs, isBlank c = true) ∧ ∀ c ∈ cs', isBlank c = true) := by
  have hsome : ∀ {bs rest : List Char}, bs ≠ [] → (∀ c ∈ bs, isBlank c = true) →
      Lexeme.someBlanks.length? (bs ++ rest) = some (runLength isBlank (bs ++ rest)) := by
    intro bs rest hne hall
    obtain ⟨b, bs, rfl⟩ := List.exists_cons_of_ne_nil hne
    simp [Lexeme.length?, someRun?, runLength, hall b List.mem_cons_self]
  have hnone : ∀ {cs : List Char}, (∀ c ∈ cs.head?, isBlank c = false) → Lexeme.someBlanks.length? cs = none := by
    intro cs hcs
    cases cs with
    | nil => rfl
    | cons c cs => simp [Lexeme.length?, someRun?, runLength, hcs c rfl]
  obtain ⟨sk, h, h'⟩ := h
  have hblanks := h.dropWhile_isBlank
  have hblanks' := h'.dropWhile_isBlank
  cases h with
  | done hall =>
    cases h' with
    | done hall' => exact .inr ⟨hall, hall'⟩
  | @gap _ _ sk hne hall _ _ _ =>
    cases h' with
    | gap hne' hall' _ _ _ =>
      refine .inl (.inr ⟨_, _, hsome hne hall, hsome hne' hall', (fun hgap => by cases hgap), sk, ?_, ?_⟩)
      · rw [drop_runLength]
        exact hblanks
      · rw [drop_runLength]
        exact hblanks'
  | char hblank _ _ =>
    cases h' with
    | char => exact .inl (.inl ⟨hnone fun d hd => Option.some.inj hd ▸ hblank, hnone fun d hd => Option.some.inj hd ▸ hblank⟩)
  | @token kind text rest sk hmem hhead hwhole h =>
    cases h' with
    | token =>
      have hblank : ∀ rest, ∀ c ∈ (text ++ rest).head?, isBlank c = false := by
        intro rest c hc
        cases text with
        | nil => cases hhead
        | cons d text =>
          obtain rfl := Option.some.inj hc
          exact (isBlank_of_isQuote hhead).1
      exact .inl (.inl ⟨hnone (hblank _), hnone (hblank _)⟩)

end Alike

/-- A name that is read after blanks is one of the words. -/
theorem Renders.mem_of_word {cs : List Char} {sk : List Chunk} (h : Renders words sk cs) (word : String)
    (hword : word.toList.all isNameChar = true) (hfirst : word.toList.head?.any isLetter = true) {n m : Nat}
    (hblanks : Lexeme.someBlanks.length? cs = some n) (hlength : (Lexeme.word word).length? (cs.drop n) = some m) :
    (.name, word.toList) ∈ words := by
  obtain ⟨hn, hpos⟩ := someRun?_eq_some_iff.1 hblanks
  rw [hn, drop_runLength] at hlength
  obtain ⟨⟨rest, hrest⟩, hnext, -⟩ := wordLength?_eq_some_iff.1 hlength
  rw [← hrest, List.drop_left] at hnext
  have hrun : (cs.dropWhile isBlank).takeWhile isNameChar = word.toList := by
    rw [← hrest, List.takeWhile_append_of_pos (List.all_eq_true.1 hword)]
    cases rest with
    | nil => exact List.append_nil _
    | cons d rest => rw [List.takeWhile_cons_of_neg (by simpa using hnext), List.append_nil]
  have hhead : (cs.dropWhile isBlank).head?.any isLetter = true := by
    rw [← hrest]
    cases hchars : word.toList with
    | nil =>
      rw [hchars] at hfirst
      cases hfirst
    | cons c text =>
      rw [hchars] at hfirst
      exact hfirst
  cases h with
  | done hall =>
    rw [List.dropWhile_eq_nil_iff.2 hall] at hhead
    cases hhead
  | @gap bs after sk _ hall hnonblank hname _ =>
    obtain ⟨c, hc, hcblank⟩ := hnonblank
    obtain ⟨after, rfl⟩ := List.head?_eq_some_iff.1 hc
    rw [List.dropWhile_append_of_pos hall, List.dropWhile_cons_of_neg (by simp [hcblank])] at hrun hhead
    rw [← hrun]
    exact hname hhead
  | char hblank _ _ => simp [hn, runLength, hblank] at hpos
  | @token kind text after sk _ hquote _ _ =>
    cases text with
    | nil => cases hquote
    | cons c text =>
      have hblank : isBlank c = false := (isBlank_of_isQuote hquote).1
      simp [hn, runLength, hblank] at hpos

/-! ## Texts read from inside a literal -/

/-- Two texts that begin with the same rest of a literal: it has the closing quote, and no marker between two items. -/
def Astray (cs cs' : List Char) : Prop :=
  ∃ inside after after', cs = inside ++ after ∧ cs' = inside ++ after' ∧ (∃ q ∈ inside, isQuote q = true) ∧
    Marker.separating.char ∉ inside ∧ visibleCount after = visibleCount after'

namespace Astray

variable {cs cs' : List Char}

theorem visibleCount_eq (h : Astray cs cs') : visibleCount cs = visibleCount cs' := by
  obtain ⟨inside, after, after', rfl, rfl, -, -, hafter⟩ := h
  rw [visibleCount_append, visibleCount_append, hafter]

/-- Inside a literal something comes after the blanks. -/
theorem dropWhile_ne_nil (h : Astray cs cs') : cs.dropWhile isBlank ≠ [] ∧ cs'.dropWhile isBlank ≠ [] := by
  obtain ⟨inside, after, after', rfl, rfl, ⟨q, hq, hquote⟩, -⟩ := h
  have hblank : ¬ isBlank q = true := by simp [(isBlank_of_isQuote hquote).1]
  exact ⟨fun hnil => hblank (List.dropWhile_eq_nil_iff.1 hnil q (List.mem_append_left _ hq)),
    fun hnil => hblank (List.dropWhile_eq_nil_iff.1 hnil q (List.mem_append_left _ hq))⟩

/-- Inside a literal both texts have the same characters of a class without quotes. -/
theorem takeWhile_eq {p : Char → Bool} (hp : ∀ c, isQuote c = true → p c = false) (h : Astray cs cs') :
    cs.takeWhile p = cs'.takeWhile p ∧ ∀ n ≤ (cs.takeWhile p).length, Astray (cs.drop n) (cs'.drop n) := by
  obtain ⟨inside, after, after', rfl, rfl, ⟨q, hq, hquote⟩, hmarker, hafter⟩ := h
  have hrun : ∀ rest, (inside ++ rest).takeWhile p = inside.takeWhile p := by
    intro rest
    rw [List.takeWhile_append, if_neg]
    intro hall
    have hsame : inside.takeWhile p = inside := (List.takeWhile_prefix p).eq_of_length hall
    have hpq := List.all_eq_true.1 (List.all_takeWhile (p := p)) q (hsame.symm ▸ hq)
    rw [hp q hquote] at hpq
    cases hpq
  refine ⟨by rw [hrun, hrun], fun n hn => ?_⟩
  rw [hrun] at hn
  have hle : n ≤ inside.length := Nat.le_trans hn (List.takeWhile_prefix p).length_le
  refine ⟨inside.drop n, after, after', List.drop_append_of_le_length hle, List.drop_append_of_le_length hle, ⟨q, ?_, hquote⟩,
    fun hmem => hmarker (List.mem_of_mem_drop hmem), hafter⟩
  -- The quote is not among the characters that are dropped.
  rw [← List.take_append_drop n inside, List.mem_append] at hq
  refine hq.resolve_left fun htake => ?_
  rw [← take_takeWhile hn] at htake
  have hpq := List.all_eq_true.1 List.all_takeWhile q (List.mem_of_mem_take htake)
  rw [hp q hquote] at hpq
  cases hpq

/-- Blanks and words of solid characters are read alike inside a literal. -/
theorem reads (h : Astray cs cs') {l : Lexeme} (hl : l.isWord = true ∨ l = .blanks) : l.ReadsAlike Astray cs cs' := by
  rcases hl with hl | rfl
  · have hp : ∀ c, isQuote c = true → isSolid c = false := by
      intro c hc
      rw [← Bool.not_eq_true]
      intro hsolid
      rw [(isSolid_iff.1 hsolid).2.2] at hc
      cases hc
    obtain ⟨hsame, hdrop⟩ := h.takeWhile_eq hp
    rcases l.length?_of_takeWhile hl hsame with hnone | ⟨n, hn, hn', hle, htake⟩
    · exact .inl hnone
    · exact .inr ⟨n, n, hn, hn', fun _ => htake, hdrop n hle⟩
  · obtain ⟨hsame, hdrop⟩ := h.takeWhile_eq fun _ hc => (isBlank_of_isQuote hc).1
    have hlength : runLength isBlank cs = runLength isBlank cs' := by rw [runLength, hsame, runLength]
    refine .inr ⟨_, _, rfl, rfl, (fun hgap => by cases hgap), ?_⟩
    rw [← hlength]
    exact hdrop _ (Nat.le_refl _)

/-- Inside a literal there is no marker between two items. -/
theorem reads_separating (h : Astray cs cs') :
    (Lexeme.marker .separating).length? cs = none ∧ (Lexeme.marker .separating).length? cs' = none := by
  obtain ⟨inside, after, after', rfl, rfl, ⟨q, hq, -⟩, hmarker, -⟩ := h
  obtain ⟨c, inside, rfl⟩ := List.exists_cons_of_ne_nil (List.ne_nil_of_mem hq)
  have hne : ¬ some c = some Marker.separating.char := fun h => hmarker (Option.some.inj h ▸ List.mem_cons_self)
  exact ⟨(Lexeme.length?_marker _ _).trans (if_neg hne), (Lexeme.length?_marker _ _).trans (if_neg hne)⟩

end Astray

/-- The next closing brace is in neither text, or it is at the same place of the skeleton, or inside a literal. -/
theorem Alike.untilBrace {cs cs' : List Char} (h : Alike words cs cs')
    (hwords : ∀ w ∈ words, Marker.separating.char ∉ w.2.dropWhile (· != '}')) :
    (cs.dropWhile (· != '}') = [] ∧ cs'.dropWhile (· != '}') = []) ∨
      Alike words (cs.dropWhile (· != '}')) (cs'.dropWhile (· != '}')) ∨ Astray (cs.dropWhile (· != '}')) (cs'.dropWhile (· != '}')) := by
  obtain ⟨sk, h, h'⟩ := h
  have hblanks : ∀ {bs : List Char}, (∀ c ∈ bs, isBlank c = true) → ∀ c ∈ bs, (c != '}') = true := by
    intro bs hall c hc
    rw [bne_iff_ne]
    rintro rfl
    cases hall _ hc
  induction h generalizing cs' with
  | done hall =>
    cases h' with
    | done hall' => exact .inl ⟨List.dropWhile_eq_nil_iff.2 (hblanks hall), List.dropWhile_eq_nil_iff.2 (hblanks hall')⟩
  | gap _ hall _ _ _ ih =>
    cases h' with
    | gap _ hall' _ _ h' =>
      rw [List.dropWhile_append_of_pos (hblanks hall), List.dropWhile_append_of_pos (hblanks hall')]
      exact ih h'
  | @char c cs sk hblank hquote h ih =>
    cases h' with
    | char _ _ h' =>
      by_cases hc : (c != '}') = true
      · rw [List.dropWhile_cons_of_pos (p := (· != '}')) hc, List.dropWhile_cons_of_pos (p := (· != '}')) hc]
        exact ih h'
      · rw [List.dropWhile_cons_of_neg (p := (· != '}')) hc, List.dropWhile_cons_of_neg (p := (· != '}')) hc]
        exact .inr (.inl ⟨.char c :: sk, .char hblank hquote h, .char hblank hquote h'⟩)
  | @token kind text cs sk hmem hhead hwhole h ih =>
    cases h' with
    | token _ _ hwhole' h' =>
      by_cases hbrace : ∀ c ∈ text, (c != '}') = true
      · rw [List.dropWhile_append_of_pos hbrace, List.dropWhile_append_of_pos hbrace]
        exact ih h'
      · -- What is left of the token has its last character, which is a quote.
        have hne : text.dropWhile (· != '}') ≠ [] := fun hnil => hbrace (List.dropWhile_eq_nil_iff.1 hnil)
        have hcut : ∀ rest, (text ++ rest).dropWhile (· != '}') = text.dropWhile (· != '}') ++ rest := by
          intro rest
          rw [List.dropWhile_append, if_neg (by simpa using hne)]
        have hquote : isQuote ((text.dropWhile (· != '}')).getLast hne) = true := by
          have hlast := hwhole.last
          have hsuffix := List.dropWhile_suffix (· != '}') (l := text)
          rwa [List.getLast?_eq_some_getLast (hsuffix.ne_nil hne), Option.any_some, ← hsuffix.getLast hne] at hlast
        rw [hcut, hcut]
        exact .inr (.inr ⟨_, _, _, rfl, rfl, ⟨_, List.getLast_mem hne, hquote⟩, hwords _ hmem, h.visibleCount_eq h'⟩)

end ElmLint
