import ElmLint.Proofs.Solid
import ElmLint.Proofs.Token

/-!
# Quotes

The scanner and the grammar both look for the end of a literal, the scanner in the source and the grammar in the laid-out text,
where comments are blanked out and markers are written. `Veil s l` says that `l` is `s` with such changes. Then a quote that is
left open in `s` is left open in `l` (`quotedEnd?_eq_none`, `blockStringEnd?_eq_none`). So a token that begins with a quote is read
by the grammar as a whole or not at all, and whatever comes after it makes no difference (`whole_of_token`).
-/

namespace ElmLint

/-- A quote of either kind. -/
def isQuote (c : Char) : Bool := c == '"' || c == '\''

theorem isQuote_iff {c : Char} : isQuote c = true ↔ c = '"' ∨ c = '\'' := by simp [isQuote]

theorem isBlank_of_isQuote {c : Char} (h : isQuote c = true) : isBlank c = false ∧ isMarker c = false := by
  rcases isQuote_iff.1 h with rfl | rfl <;> exact ⟨rfl, rfl⟩

/-- A character of a comment as layout sees it. -/
def blanked (c : Char) : Char := if c == '\n' then c else ' '

theorem blanked_cases (c : Char) : blanked c = ' ' ∨ (c = '\n' ∧ blanked c = '\n') := by
  by_cases hc : c = '\n'
  · subst hc
    exact .inr ⟨rfl, rfl⟩
  · exact .inl (if_neg (by simpa using hc))

/-- Induction over a text in which a backslash takes the next character along. -/
@[elab_as_elim]
theorem escapeInduction {motive : List Char → Prop} (nil : motive []) (lone : motive ['\\'])
    (escape : ∀ c t, motive t → motive ('\\' :: c :: t)) (char : ∀ c t, c ≠ '\\' → motive t → motive (c :: t)) :
    ∀ t, motive t
  | [] => nil
  | [c] => by
    by_cases hc : c = '\\'
    · rw [hc]
      exact lone
    · exact char c [] hc nil
  | c :: d :: t => by
    by_cases hc : c = '\\'
    · rw [hc]
      exact escape d t (escapeInduction nil lone escape char t)
    · exact char c (d :: t) hc (escapeInduction nil lone escape char (d :: t))

/-- What ends without a backslash does so without its first character. -/
theorem getLast?_ne_of_cons {c : Char} {t : List Char} (h : (c :: t).getLast? ≠ some '\\') : t.getLast? ≠ some '\\' := by
  cases t with
  | nil => simp
  | cons d t => simpa using h

/-! ## Steps through a literal -/

section Steps

variable {q : Char} {acrossLines : Bool}

theorem quotedEnd?_escape (c : Char) (cs : List Char) : quotedEnd? q acrossLines ('\\' :: c :: cs) =
    if c == '\n' && !acrossLines then none else (quotedEnd? q acrossLines cs).map (· + 2) := by
  rw [quotedEnd?]

theorem quotedEnd?_cons {c : Char} (hc : c ≠ '\\') (cs : List Char) : quotedEnd? q acrossLines (c :: cs) =
    if c == q then some 1 else if c == '\n' then none else (quotedEnd? q acrossLines cs).map (· + 1) := by
  rw [quotedEnd?]
  · simp [hc]
  · rintro _ _ rfl
    exact absurd rfl hc

theorem blockStringEnd?_escape (c : Char) (cs : List Char) :
    blockStringEnd? ('\\' :: c :: cs) = (blockStringEnd? cs).map (· + 2) := by
  rw [blockStringEnd?]

theorem blockStringEnd?_cons {c : Char} (hc : c ≠ '\\') {cs : List Char} (hcs : ¬ (['"', '"', '"'] <+: c :: cs)) :
    blockStringEnd? (c :: cs) = (blockStringEnd? cs).map (· + 1) := by
  rw [blockStringEnd?]
  · simp [hc]
  · rintro _ rfl rfl
    exact hcs ⟨_, rfl⟩
  · rintro _ _ rfl
    exact absurd rfl hc

theorem blockStringEnd?_of_quotes {cs : List Char} (h : ['"', '"', '"'] <+: cs) : blockStringEnd? cs = some 3 := by
  obtain ⟨rest, rfl⟩ := h
  rw [List.cons_append, List.cons_append, List.cons_append, blockStringEnd?]

end Steps

/-! ## Texts without quotes -/

/-- A literal has no end in a text without its quote. -/
theorem quotedEnd?_of_notMem {q : Char} {acrossLines : Bool} (cs : List Char) (h : q ∉ cs) :
    quotedEnd? q acrossLines cs = none := by
  fun_induction quotedEnd? q acrossLines cs with
  | case1 => rfl
  | case2 => rfl
  | case3 c cs _ ih => rw [ih fun hmem => h (by simp [hmem])]; rfl
  | case4 c cs _ hc => exact absurd (beq_iff_eq.1 hc ▸ List.mem_cons_self) h
  | case5 => rfl
  | case6 c cs _ _ _ ih => rw [ih fun hmem => h (by simp [hmem])]; rfl

theorem blockStringEnd?_of_notMem (cs : List Char) (h : '"' ∉ cs) : blockStringEnd? cs = none := by
  fun_induction blockStringEnd? cs with
  | case1 => rfl
  | case2 => simp at h
  | case3 c cs ih => rw [ih fun hmem => h (by simp [hmem])]; rfl
  | case4 => rfl
  | case5 c cs _ _ _ ih => rw [ih fun hmem => h (by simp [hmem])]; rfl

/-- What can be skipped before a text, with neither quotes nor backslashes, gives a literal no end. -/
theorem quotedEnd?_skip {q : Char} (hq : isQuote q = true) {acrossLines : Bool} {l : List Char}
    (hl : quotedEnd? q acrossLines l = none) {d : Char} (hd : isQuote d = false) (hback : d ≠ '\\') :
    quotedEnd? q acrossLines (d :: l) = none := by
  have hne : ¬ (d == q) = true := by
    rintro h
    rw [beq_iff_eq.1 h, hq] at hd
    cases hd
  rw [quotedEnd?_cons hback, if_neg hne, hl]
  split <;> rfl

theorem blockStringEnd?_skip {l : List Char} (hl : blockStringEnd? l = none) {d : Char} (hd : isQuote d = false)
    (hback : d ≠ '\\') : blockStringEnd? (d :: l) = none := by
  rw [blockStringEnd?_cons hback, hl]
  · rfl
  · rintro ⟨rest, hrest⟩
    have hquote : '"' = d := (List.cons_eq_cons.1 hrest).1
    rw [← hquote] at hd
    cases hd

/-! ## Comments -/

/-- A literal that has no end from before a comment on has none from after it on, or it meets the end of a line in it. -/
theorem quotedEnd?_after {q : Char} {s : List Char} (t : List Char) : quotedEnd? q true (t ++ s) = none →
    t.getLast? ≠ some '\\' → '\n' ∈ t ∨ quotedEnd? q true s = none := by
  induction t using escapeInduction with
  | nil => exact fun h _ => .inr h
  | lone => exact fun _ hlast => absurd rfl hlast
  | escape c t ih =>
    intro h hlast
    rw [List.cons_append, List.cons_append, quotedEnd?_escape, if_neg (by simp), Option.map_eq_none_iff] at h
    rcases ih h (getLast?_ne_of_cons (getLast?_ne_of_cons hlast)) with hmem | hnone
    · exact .inl (by simp [hmem])
    · exact .inr hnone
  | char c t hc ih =>
    intro h hlast
    rw [List.cons_append, quotedEnd?_cons hc] at h
    split at h
    · cases h
    · split at h
      · next hline => exact .inl (by simp [beq_iff_eq.1 hline])
      · rcases ih (Option.map_eq_none_iff.1 h) (getLast?_ne_of_cons hlast) with hmem | hnone
        · exact .inl (by simp [hmem])
        · exact .inr hnone

theorem blockStringEnd?_after {s : List Char} (t : List Char) : blockStringEnd? (t ++ s) = none →
    t.getLast? ≠ some '\\' → blockStringEnd? s = none := by
  induction t using escapeInduction with
  | nil => exact fun h _ => h
  | lone => exact fun _ hlast => absurd rfl hlast
  | escape c t ih =>
    intro h hlast
    rw [List.cons_append, List.cons_append, blockStringEnd?_escape, Option.map_eq_none_iff] at h
    exact ih h (getLast?_ne_of_cons (getLast?_ne_of_cons hlast))
  | char c t hc ih =>
    intro h hlast
    rw [List.cons_append] at h
    by_cases hquotes : ['"', '"', '"'] <+: c :: (t ++ s)
    · rw [blockStringEnd?_of_quotes hquotes] at h
      cases h
    · rw [blockStringEnd?_cons hc hquotes, Option.map_eq_none_iff] at h
      exact ih h (getLast?_ne_of_cons hlast)

/-- A blanked-out comment gives a literal no end, when it holds the end of a line or when what comes after it gives none. -/
theorem quotedEnd?_blanked {q : Char} (hq : isQuote q = true) {acrossLines : Bool} {l : List Char} : ∀ {t : List Char},
    '\n' ∈ t ∨ quotedEnd? q acrossLines l = none → quotedEnd? q acrossLines (t.map blanked ++ l) = none
  | [], h => by simpa using h
  | c :: t, h => by
    rw [List.map_cons, List.cons_append]
    rcases blanked_cases c with hc | ⟨-, hc⟩
    · rw [hc]
      refine quotedEnd?_skip hq (quotedEnd?_blanked hq ?_) rfl (by decide)
      refine h.imp_left fun hmem => (List.mem_cons.1 hmem).resolve_left ?_
      rintro rfl
      cases hc
    · have hne : ¬ ('\n' == q) = true := by
        intro heq
        rw [← beq_iff_eq.1 heq] at hq
        cases hq
      rw [hc, quotedEnd?_cons (by decide), if_neg hne]
      rfl

theorem blockStringEnd?_blanked {l : List Char} (hl : blockStringEnd? l = none) : ∀ t : List Char,
    blockStringEnd? (t.map blanked ++ l) = none
  | [] => hl
  | c :: t => by
    rw [List.map_cons, List.cons_append]
    rcases blanked_cases c with hc | ⟨-, hc⟩ <;> rw [hc] <;>
      exact blockStringEnd?_skip (blockStringEnd?_blanked hl t) rfl (by decide)

/-! ## Veils -/

/-- The second text is the first one with comments blanked out and markers written: characters stay or, where they are neither
quotes nor backslashes, are added; a backslash may take along another character; and a comment is blanked out. At the end
all that counts is that there are no quotes. -/
inductive Veil : List Char → List Char → Prop
  | ending {s l : List Char} : (∀ c ∈ l, isQuote c = false) → Veil s l
  | same {c : Char} {s l : List Char} : c ≠ '\\' → Veil s l → Veil (c :: s) (c :: l)
  | escape (c d : Char) {s l : List Char} : Veil s l → Veil ('\\' :: c :: s) ('\\' :: d :: l)
  | skip {d : Char} {s l : List Char} : isQuote d = false → d ≠ '\\' → Veil s l → Veil s (d :: l)
  | comment {t s l : List Char} : t ≠ [] → t.getLast? ≠ some '\\' → Veil s l → Veil (t ++ s) (t.map blanked ++ l)

namespace Veil

variable {s l : List Char}

/-- Behind a veil, a quote is a quote of the source. -/
theorem exists_of_quote {q : Char} (hq : isQuote q = true) (h : Veil s (q :: l)) : ∃ s', s = q :: s' ∧ Veil s' l := by
  generalize hl : q :: l = l' at h
  cases h with
  | ending hnone =>
    rw [hnone q (hl ▸ List.mem_cons_self)] at hq
    cases hq
  | same _ h =>
    cases hl
    exact ⟨_, rfl, h⟩
  | escape c d h =>
    cases hl
    cases hq
  | skip hd _ h =>
    cases hl
    rw [hd] at hq
    cases hq
  | @comment t s l' hne hlast h =>
    cases t with
    | nil => exact absurd rfl hne
    | cons c t =>
      rw [List.map_cons, List.cons_append] at hl
      have hc := (List.cons_eq_cons.1 hl).1
      rw [hc] at hq
      rcases blanked_cases c with hc | ⟨-, hc⟩ <;> rw [hc] at hq <;> cases hq

/-- A quote that is left open in the source is left open behind a veil. -/
theorem quotedEnd?_eq_none {q : Char} (hq : isQuote q = true) {acrossLines : Bool} (h : Veil s l) :
    quotedEnd? q true s = none → quotedEnd? q acrossLines l = none := by
  induction h with
  | ending hnone =>
    refine fun _ => quotedEnd?_of_notMem _ fun hmem => ?_
    rw [hnone q hmem] at hq
    cases hq
  | @same c s l hc _ ih =>
    intro hs
    rw [quotedEnd?_cons hc] at hs ⊢
    split at hs
    · cases hs
    · next hne =>
      rw [if_neg hne]
      split at hs
      · next hline => rw [if_pos hline]
      · next hline => rw [if_neg hline, ih (Option.map_eq_none_iff.1 hs)]; rfl
  | escape c d _ ih =>
    intro hs
    rw [quotedEnd?_escape, if_neg (by simp), Option.map_eq_none_iff] at hs
    rw [quotedEnd?_escape, ih hs]
    split <;> rfl
  | skip hd hback _ ih => exact fun hs => quotedEnd?_skip hq (ih hs) hd hback
  | comment _ hlast _ ih => exact fun hs => quotedEnd?_blanked hq ((quotedEnd?_after _ hs hlast).imp_right ih)

/-- Three quotes that are not answered in the source are not answered behind a veil. -/
theorem blockStringEnd?_eq_none (h : Veil s l) : blockStringEnd? s = none → blockStringEnd? l = none := by
  induction h with
  | ending hnone => exact fun _ => blockStringEnd?_of_notMem _ fun hmem => by cases hnone _ hmem
  | @same c s l hc h ih =>
    intro hs
    have hquotes : ¬ ['"', '"', '"'] <+: c :: s := by
      intro hbegins
      rw [blockStringEnd?_of_quotes hbegins] at hs
      cases hs
    rw [blockStringEnd?_cons hc hquotes, Option.map_eq_none_iff] at hs
    rw [blockStringEnd?_cons hc, ih hs]
    · rfl
    · rintro ⟨rest, hrest⟩
      obtain ⟨rfl, hl⟩ := List.cons_eq_cons.1 hrest
      rw [← hl] at h
      obtain ⟨s₁, rfl, h₁⟩ := exists_of_quote rfl h
      obtain ⟨s₂, rfl, -⟩ := exists_of_quote rfl h₁
      exact hquotes ⟨s₂, rfl⟩
  | escape c d _ ih =>
    intro hs
    rw [blockStringEnd?_escape, Option.map_eq_none_iff] at hs
    rw [blockStringEnd?_escape, ih hs]
    rfl
  | skip hd hback _ ih => exact fun hs => blockStringEnd?_skip (ih hs) hd hback
  | comment _ hlast _ ih => exact fun hs => blockStringEnd?_blanked (ih (blockStringEnd?_after _ hs hlast)) _

/-- The same text may stand before both, when a backslash at its end may too. -/
theorem append (h : Veil s l) (t : List Char) (hback : t.getLast? = some '\\' → Veil ('\\' :: s) ('\\' :: l)) :
    Veil (t ++ s) (t ++ l) := by
  induction t using escapeInduction with
  | nil => exact h
  | lone => exact hback rfl
  | escape c t ih =>
    refine .escape c c (ih fun hlast => hback ?_)
    cases t with
    | nil => cases hlast
    | cons d t => simpa using hlast
  | char c t hc ih =>
    refine .same hc (ih fun hlast => hback ?_)
    cases t with
    | nil => cases hlast
    | cons d t => simpa using hlast

/-- Markers and other characters may be added. -/
theorem skips (h : Veil s l) : ∀ {ds : List Char}, (∀ d ∈ ds, isQuote d = false ∧ d ≠ '\\') → Veil s (ds ++ l)
  | [], _ => h
  | d :: _, hds => .skip (hds d List.mem_cons_self).1 (hds d List.mem_cons_self).2
      (h.skips fun e he => hds e (List.mem_cons_of_mem d he))

end Veil

/-! ## Literals as a whole -/

theorem getLast?_cons_of_some {c d : Char} {b : List Char} (h : b.getLast? = some d) : (c :: b).getLast? = some d := by
  rw [List.getLast?_cons, h]
  rfl

/-- A literal that is found in a text ends with its quote, and where it ends, whatever comes after it. -/
theorem quotedEnd?_append {q : Char} (hq : isQuote q = true) (acrossLines : Bool) {s : List Char} (l : List Char) (b : List Char) :
    quotedEnd? q true (b ++ s) = some b.length → b.getLast? = some q ∧
      quotedEnd? q acrossLines (b ++ l) = quotedEnd? q acrossLines b ∧
      ∀ n, quotedEnd? q acrossLines b = some n → n = b.length := by
  induction b using escapeInduction with
  | nil => exact fun h => absurd (reads_quotedEnd? q true _ _ h).1 (Nat.lt_irrefl 0)
  | lone =>
    intro h
    cases s with
    | nil =>
      have hne : ¬ ('\\' == q) = true := by
        intro heq
        rw [← beq_iff_eq.1 heq] at hq
        cases hq
      change (if '\\' == q then some 1 else none) = _ at h
      rw [if_neg hne] at h
      cases h
    | cons c s =>
      rw [List.singleton_append, quotedEnd?_escape, if_neg (by simp)] at h
      obtain ⟨k, -, hk⟩ := Option.map_eq_some_iff.1 h
      simp at hk
  | escape c b ih =>
    intro h
    rw [List.cons_append, List.cons_append, quotedEnd?_escape, if_neg (by simp)] at h
    obtain ⟨k, hk, hlength⟩ := Option.map_eq_some_iff.1 h
    simp only [List.length_cons] at hlength ⊢
    obtain rfl : k = b.length := by omega
    obtain ⟨hlast, hsame, hend⟩ := ih hk
    rw [List.cons_append, List.cons_append, quotedEnd?_escape, quotedEnd?_escape, hsame]
    refine ⟨getLast?_cons_of_some (getLast?_cons_of_some hlast), rfl, fun n hn => ?_⟩
    split at hn
    · cases hn
    · obtain ⟨m, hm, rfl⟩ := Option.map_eq_some_iff.1 hn
      rw [hend m hm]
  | char c b hc ih =>
    intro h
    rw [List.cons_append, quotedEnd?_cons hc] at h
    rw [List.cons_append, quotedEnd?_cons hc, quotedEnd?_cons hc]
    split at h
    · next hend =>
      obtain rfl : b = [] := List.eq_nil_of_length_eq_zero (by simpa using (Option.some.inj h).symm)
      refine ⟨by rw [beq_iff_eq.1 hend]; rfl, by rw [if_pos hend, if_pos hend], fun n hn => ?_⟩
      rw [if_pos hend] at hn
      exact (Option.some.inj hn).symm.trans (Option.some.inj h)
    · next hnot =>
      split at h
      · cases h
      · next hline =>
        obtain ⟨k, hk, hlength⟩ := Option.map_eq_some_iff.1 h
        obtain rfl : k = b.length := by simpa using hlength
        obtain ⟨hlast, hsame, hend⟩ := ih hk
        rw [if_neg hnot, if_neg hline, if_neg hnot, if_neg hline, hsame]
        refine ⟨getLast?_cons_of_some hlast, rfl, fun n hn => ?_⟩
        obtain ⟨m, hm, rfl⟩ := Option.map_eq_some_iff.1 hn
        rw [hend m hm, List.length_cons]

theorem three_le_of_blockStringEnd? (cs : List Char) : ∀ {n : Nat}, blockStringEnd? cs = some n → 3 ≤ n := by
  fun_induction blockStringEnd? cs with
  | case1 =>
    intro n h
    cases h
  | case2 => exact fun h => (Option.some.inj h).le
  | case3 c cs ih =>
    intro n h
    obtain ⟨k, hk, rfl⟩ := Option.map_eq_some_iff.1 h
    exact Nat.le_add_right_of_le (ih hk)
  | case4 =>
    intro n h
    cases h
  | case5 c cs _ _ _ ih =>
    intro n h
    obtain ⟨k, hk, rfl⟩ := Option.map_eq_some_iff.1 h
    exact Nat.le_add_right_of_le (ih hk)

theorem blockStringEnd?_append {s : List Char} (l : List Char) (b : List Char) :
    blockStringEnd? (b ++ s) = some b.length → b.getLast? = some '"' ∧ blockStringEnd? (b ++ l) = some b.length := by
  induction b using escapeInduction with
  | nil => exact fun h => absurd (three_le_of_blockStringEnd? _ h) (by decide)
  | lone => exact fun h => absurd (three_le_of_blockStringEnd? _ h) (by decide)
  | escape c b ih =>
    intro h
    rw [List.cons_append, List.cons_append, blockStringEnd?_escape] at h ⊢
    obtain ⟨k, hk, hlength⟩ := Option.map_eq_some_iff.1 h
    obtain rfl : k = b.length := by simpa using hlength
    obtain ⟨hlast, hend⟩ := ih hk
    exact ⟨getLast?_cons_of_some (getLast?_cons_of_some hlast), by rw [hend]; rfl⟩
  | char c b hc ih =>
    intro h
    rw [List.cons_append] at h ⊢
    by_cases hquotes : ['"', '"', '"'] <+: c :: (b ++ s)
    · -- The quotes are the whole of the text.
      rw [blockStringEnd?_of_quotes hquotes] at h
      have hall : ['"', '"', '"'] = c :: b := by
        refine List.IsPrefix.eq_of_length ?_ (Option.some.inj h)
        exact List.prefix_of_prefix_length_le hquotes ⟨s, rfl⟩ (Option.some.inj h).le
      rw [← List.cons_append, ← hall]
      exact ⟨rfl, blockStringEnd?_of_quotes (List.prefix_append _ _)⟩
    · rw [blockStringEnd?_cons hc hquotes] at h
      obtain ⟨k, hk, hlength⟩ := Option.map_eq_some_iff.1 h
      obtain rfl : k = b.length := by simpa using hlength
      obtain ⟨hlast, hend⟩ := ih hk
      refine ⟨getLast?_cons_of_some hlast, ?_⟩
      rw [blockStringEnd?_cons hc, hend]
      · rfl
      · have hlong := three_le_of_blockStringEnd? _ hk
        intro hbegins
        have hb : ['"', '"', '"'] <+: c :: b :=
          List.prefix_of_prefix_length_le hbegins ⟨l, rfl⟩ (by simp only [List.length_cons, List.length_nil]; omega)
        exact hquotes (hb.trans ⟨s, rfl⟩)

/-- A text that ends with a quote and that, when `l` comes after it, is read as a whole literal or as none, by the scanner and by
the grammar. -/
structure Whole (t l : List Char) : Prop where
  last : t.getLast?.any isQuote = true
  string : ∀ {acrossLines}, stringLength? acrossLines (t ++ l) = stringLength? acrossLines t
  char : ∀ {acrossLines}, charLength? acrossLines (t ++ l) = charLength? acrossLines t
  string_length : ∀ {acrossLines} n, stringLength? acrossLines t = some n → n = t.length
  char_length : ∀ {acrossLines} n, charLength? acrossLines t = some n → n = t.length

/-- A string begins with a double quote. -/
theorem exists_of_stringLength? {acrossLines : Bool} {cs : List Char} {n : Nat} (h : stringLength? acrossLines cs = some n) :
    ∃ rest, cs = '"' :: rest := by
  unfold stringLength? at h
  split at h
  · exact ⟨_, rfl⟩
  · exact ⟨_, rfl⟩
  · cases h

/-- A character begins with a single quote. -/
theorem exists_of_charLength? {acrossLines : Bool} {cs : List Char} {n : Nat} (h : charLength? acrossLines cs = some n) :
    ∃ rest, cs = '\'' :: rest := by
  unfold charLength? at h
  split at h
  · cases h
  · exact ⟨_, rfl⟩
  · cases h

/-- A literal that the grammar reads begins with a quote. -/
theorem Lexeme.exists_quote {l : Lexeme} (hl : l = .string ∨ l = .char) {cs : List Char} {n : Nat} (hn : l.length? cs = some n) :
    ∃ q rest, cs = q :: rest ∧ isQuote q = true := by
  rcases hl with rfl | rfl
  · obtain ⟨rest, hrest⟩ := exists_of_stringLength? hn
    exact ⟨_, rest, hrest, rfl⟩
  · obtain ⟨rest, hrest⟩ := exists_of_charLength? hn
    exact ⟨_, rest, hrest, rfl⟩

/-- Where a literal is read that begins with a whole text, the text is the literal. -/
theorem Whole.of_length? {t l : List Char} (h : Whole t l) {lex : Lexeme} (hlex : lex = .string ∨ lex = .char) {n : Nat}
    (hn : lex.length? (t ++ l) = some n) : lex.length? t = some n ∧ n = t.length := by
  rcases hlex with rfl | rfl
  · have ht : Lexeme.string.length? t = some n := h.string.symm.trans hn
    exact ⟨ht, h.string_length n ht⟩
  · have ht : Lexeme.char.length? t = some n := h.char.symm.trans hn
    exact ⟨ht, h.char_length n ht⟩

theorem stringLength?_cons {acrossLines : Bool} {cs : List Char} (h : ¬ ['"', '"'] <+: cs) :
    stringLength? acrossLines ('"' :: cs) = (quotedEnd? '"' acrossLines cs).map (· + 1) := by
  rw [stringLength?]
  rintro rest rfl
  exact h ⟨rest, rfl⟩

theorem charLength?_cons {acrossLines : Bool} {cs : List Char} (h : cs.head? ≠ some '\'') :
    charLength? acrossLines ('\'' :: cs) = (quotedEnd? '\'' acrossLines cs).map (· + 1) := by
  rw [charLength?]
  rintro rest rfl
  exact h rfl

/-- Three quotes begin a block string, or an empty string and one quote more. -/
theorem stringLength?_quotes (acrossLines : Bool) (cs : List Char) : stringLength? acrossLines ('"' :: '"' :: '"' :: cs) =
    (blockStringEnd? cs).elim (some 2) fun n => some (n + 3) := by
  rw [stringLength?]
  cases blockStringEnd? cs <;> rfl

/-- Behind a veil, two quotes are quotes of the source. -/
theorem Veil.prefix_of_quotes {s l : List Char} (h : Veil s l) (hl : ['"', '"'] <+: l) : ['"', '"'] <+: s := by
  obtain ⟨rest, rfl⟩ := hl
  obtain ⟨s₁, rfl, h₁⟩ := h.exists_of_quote rfl
  obtain ⟨s₂, rfl, -⟩ := h₁.exists_of_quote rfl
  exact ⟨s₂, rfl⟩

/-- A lone double quote stays alone. -/
theorem whole_of_lone_double {s l : List Char} (hveil : Veil s l) (hs : stringLength? true ('"' :: s) = none) :
    Whole ['"'] l := by
  have htriple : ¬ ['"', '"'] <+: s := by
    rintro ⟨rest, rfl⟩
    rw [List.cons_append, List.singleton_append, stringLength?_quotes] at hs
    cases hblock : blockStringEnd? rest <;> simp [hblock] at hs
  rw [stringLength?_cons htriple, Option.map_eq_none_iff] at hs
  refine ⟨rfl, fun {acrossLines} => ?_, rfl, (fun n hn => by cases hn), fun n hn => by cases hn⟩
  rw [List.singleton_append, stringLength?_cons fun h => htriple (hveil.prefix_of_quotes h), hveil.quotedEnd?_eq_none rfl hs]
  rfl

/-- A text that begins with a double quote is no character, so it is enough how it is read as a string. -/
theorem Whole.of_double {b l : List Char} (hlast : ('"' :: b).getLast? = some '"')
    (hsame : ∀ acrossLines, stringLength? acrossLines ('"' :: (b ++ l)) = stringLength? acrossLines ('"' :: b))
    (hlength : ∀ acrossLines n, stringLength? acrossLines ('"' :: b) = some n → n = b.length + 1) : Whole ('"' :: b) l where
  last := by rw [hlast]; rfl
  string := hsame _
  char := rfl
  string_length := hlength _
  char_length _ hn := nomatch hn

/-- A block string ends where it ends. -/
theorem whole_of_block {b s : List Char} (hblock : blockStringEnd? (b ++ s) = some b.length) (l : List Char) :
    Whole ('"' :: '"' :: '"' :: b) l := by
  have hread : ∀ acrossLines l, stringLength? acrossLines ('"' :: '"' :: '"' :: (b ++ l)) = some (b.length + 3) := by
    intro acrossLines l
    rw [stringLength?_quotes, (blockStringEnd?_append l b hblock).2]
    rfl
  have hnil : ∀ acrossLines, stringLength? acrossLines ('"' :: '"' :: '"' :: b) = some (b.length + 3) := by
    intro acrossLines
    have hempty := hread acrossLines []
    rwa [List.append_nil] at hempty
  have hlast := (blockStringEnd?_append l b hblock).1
  refine .of_double (getLast?_cons_of_some (getLast?_cons_of_some (getLast?_cons_of_some hlast))) (fun acrossLines => ?_)
    fun acrossLines n hn => ?_
  · exact (hread acrossLines l).trans (hnil acrossLines).symm
  · exact (Option.some.inj ((hnil acrossLines).symm.trans hn)).symm

/-- Two quotes before a third one that no three quotes answer are a string. -/
theorem whole_of_two_quotes {s l : List Char} (hveil : Veil ('"' :: s) l) (hblock : blockStringEnd? s = none) :
    Whole ['"', '"'] l := by
  refine .of_double rfl (fun acrossLines => ?_) fun _ n hn => (Option.some.inj hn).symm
  have htwo : stringLength? acrossLines ['"', '"'] = some 2 := rfl
  rw [htwo, List.singleton_append]
  by_cases hl : ['"', '"'] <+: '"' :: l
  · obtain ⟨l', hl'⟩ := hl
    obtain rfl : '"' :: l' = l := (List.cons_eq_cons.1 hl').2
    obtain ⟨s', hs', hveil'⟩ := hveil.exists_of_quote rfl
    obtain rfl := (List.cons_eq_cons.1 hs').2
    rw [stringLength?_quotes, hveil'.blockStringEnd?_eq_none hblock]
    rfl
  · rw [stringLength?_cons hl]
    rfl

/-- A one-line string ends where it ends; a third quote after two would be one of the source. -/
theorem whole_of_line {b s l : List Char} (hveil : Veil s l) (hquotes : ¬ ['"', '"'] <+: b ++ s)
    (hend : quotedEnd? '"' true (b ++ s) = some b.length) : Whole ('"' :: b) l := by
  have hno : ¬ ['"', '"'] <+: b ++ l := by
    intro hbegins
    cases b with
    | nil => exact absurd (reads_quotedEnd? '"' true _ _ hend).1 (Nat.lt_irrefl 0)
    | cons c b =>
      obtain ⟨rest, hrest⟩ := hbegins
      obtain ⟨rfl, hthird⟩ := List.cons_eq_cons.1 hrest
      rw [List.cons_append, quotedEnd?_cons (by decide), if_pos (beq_self_eq_true _)] at hend
      obtain rfl : b = [] := List.eq_nil_of_length_eq_zero (by simpa using hend.symm)
      obtain rfl : ['"'] ++ rest = l := hthird
      obtain ⟨s', rfl, -⟩ := hveil.exists_of_quote rfl
      exact hquotes ⟨s', rfl⟩
  have hno' : ¬ ['"', '"'] <+: b := fun h => hno (h.trans (List.prefix_append _ _))
  refine .of_double (getLast?_cons_of_some (quotedEnd?_append rfl true l b hend).1) (fun acrossLines => ?_)
    fun acrossLines n hn => ?_
  · rw [stringLength?_cons hno, stringLength?_cons hno', (quotedEnd?_append rfl acrossLines l b hend).2.1]
  · rw [stringLength?_cons hno'] at hn
    obtain ⟨m, hm, rfl⟩ := Option.map_eq_some_iff.1 hn
    rw [(quotedEnd?_append rfl acrossLines l b hend).2.2 m hm]

/-- A string that the scanner has cut off is read as a whole or not at all. -/
theorem whole_of_string {t s l : List Char} (hveil : Veil s l) (hs : stringLength? true (t ++ s) = some t.length) :
    Whole t l := by
  obtain ⟨b, rfl⟩ : ∃ b, t = '"' :: b := by
    obtain ⟨cs, hcs⟩ := exists_of_stringLength? hs
    cases t with
    | nil => exact absurd (reads_stringLength? true _ _ hs).1 (Nat.lt_irrefl 0)
    | cons c b => exact ⟨b, by rw [(List.cons_eq_cons.1 hcs).1]⟩
  rw [List.cons_append] at hs
  by_cases hquotes : ['"', '"'] <+: b ++ s
  · obtain ⟨cs, hcs⟩ := hquotes
    rw [← hcs, List.cons_append, List.singleton_append, stringLength?_quotes] at hs
    cases hblock : blockStringEnd? cs with
    | some n =>
      have hlength : n + 2 = b.length := by simpa [hblock] using hs
      obtain ⟨b', rfl⟩ : ['"', '"'] <+: b :=
        List.prefix_of_prefix_length_le ⟨cs, hcs⟩ ⟨s, rfl⟩ (by simp only [List.length_cons, List.length_nil]; omega)
      rw [List.append_assoc, List.append_cancel_left_eq] at hcs
      have hn : n = b'.length := by simpa using hlength
      rw [hcs, hn] at hblock
      exact whole_of_block hblock l
    | none =>
      have hlength : b.length = 1 := by simpa [hblock] using hs.symm
      obtain ⟨c, rfl⟩ := List.length_eq_one_iff.1 hlength
      obtain ⟨rfl, rfl⟩ := List.cons_eq_cons.1 hcs
      exact whole_of_two_quotes hveil hblock
  · rw [stringLength?_cons hquotes] at hs
    obtain ⟨k, hk, hlength⟩ := Option.map_eq_some_iff.1 hs
    obtain rfl : k = b.length := by simpa using hlength
    exact whole_of_line hveil hquotes hk

/-- A lone single quote stays alone, when no marker comes between it and a second one. -/
theorem whole_of_lone_single {s l : List Char} (hveil : Veil s l) (hs : charLength? true ('\'' :: s) = none)
    (hnext : s.head? = some '\'' → l.head? = some '\'') : Whole ['\''] l := by
  refine ⟨rfl, rfl, fun {acrossLines} => ?_, (fun n hn => by cases hn), fun n hn => by cases hn⟩
  have hnone : charLength? acrossLines ['\''] = none := rfl
  rw [List.singleton_append, hnone]
  by_cases hl : l.head? = some '\''
  · cases l with
    | nil => cases hl
    | cons c l =>
      obtain rfl : c = '\'' := Option.some.inj hl
      rfl
  · rw [charLength?_cons fun h => hl (hnext h), Option.map_eq_none_iff] at hs
    rw [charLength?_cons hl, hveil.quotedEnd?_eq_none rfl hs]
    rfl

/-- A character that the scanner has cut off is read as a whole or not at all. -/
theorem whole_of_char {t s l : List Char} (hs : charLength? true (t ++ s) = some t.length) : Whole t l := by
  obtain ⟨b, rfl⟩ : ∃ b, t = '\'' :: b := by
    obtain ⟨cs, hcs⟩ := exists_of_charLength? hs
    cases t with
    | nil => exact absurd (reads_charLength? true _ _ hs).1 (Nat.lt_irrefl 0)
    | cons c b => exact ⟨b, by rw [(List.cons_eq_cons.1 hcs).1]⟩
  rw [List.cons_append] at hs
  have hhead : (b ++ s).head? ≠ some '\'' := by
    intro hhead
    cases hrest : b ++ s with
    | nil =>
      rw [hrest] at hhead
      cases hhead
    | cons c rest =>
      rw [hrest] at hhead hs
      obtain rfl : c = '\'' := Option.some.inj hhead
      cases hs
  rw [charLength?_cons hhead] at hs
  obtain ⟨k, hk, hlength⟩ := Option.map_eq_some_iff.1 hs
  obtain rfl : k = b.length := by simpa using hlength
  have hlast := (quotedEnd?_append rfl true l b hk).1
  have hchar : ∀ acrossLines l,
      charLength? acrossLines ('\'' :: (b ++ l)) = (quotedEnd? '\'' acrossLines (b ++ l)).map (· + 1) := by
    intro acrossLines l
    refine charLength?_cons fun h => hhead ?_
    cases b with
    | nil => exact absurd (reads_quotedEnd? '\'' true _ _ hk).1 (Nat.lt_irrefl 0)
    | cons c b => exact h
  have hnil : ∀ acrossLines, charLength? acrossLines ('\'' :: b) = (quotedEnd? '\'' acrossLines b).map (· + 1) := by
    intro acrossLines
    have hempty := hchar acrossLines []
    rwa [List.append_nil] at hempty
  refine ⟨by rw [getLast?_cons_of_some hlast]; rfl, rfl, fun {acrossLines} => ?_, (fun n hn => by cases hn),
    fun {acrossLines} n hn => ?_⟩
  · rw [List.cons_append, hchar, hnil, (quotedEnd?_append rfl acrossLines l b hk).2.1]
  · rw [hnil] at hn
    obtain ⟨m, hm, rfl⟩ := Option.map_eq_some_iff.1 hn
    rw [(quotedEnd?_append rfl acrossLines l b hk).2.2 m hm, List.length_cons]

/-- A token has solid characters only, or it is a string, a character, or a single character of another kind. -/
theorem token_cases {t s : List Char} {kind : Token.Kind} (h : firstPiece? (t ++ s) = some (.token kind, t.length)) :
    (kind.isSolidKind = true ∧ ∀ c ∈ t, isSolid c = true) ∨ stringLength? true (t ++ s) = some t.length ∨
      charLength? true (t ++ s) = some t.length ∨ ∃ c, t = [c] ∧ isBlank c = false ∧ stringLength? true (c :: s) = none ∧
        charLength? true (c :: s) = none := by
  rcases firstPiece?_cases h with ⟨hcomment, -⟩ | ⟨hcomment, -⟩ | ⟨p, hp, hkind, hlength⟩ | ⟨-, hlength, hnone⟩
  · cases hcomment
  · cases hcomment
  · by_cases hsolid : kind.isSolidKind = true
    · have hall := (contained_pieceClasses hp hkind.symm hsolid).isSolid (reads_pieceClasses p hp) hlength
      rw [List.take_left] at hall
      exact .inl ⟨hsolid, hall⟩
    · simp only [pieceClasses, List.mem_cons, List.not_mem_nil, or_false] at hp
      rcases hp with rfl | rfl | rfl | rfl | rfl | rfl | rfl | rfl
      · exact .inr (.inl hlength)
      · exact .inr (.inr (.inl hlength))
      all_goals
        cases hkind
        try exact absurd rfl hsolid
  · obtain ⟨c, rfl⟩ := List.length_eq_one_iff.1 hlength
    have hstring := hnone (.token .string, stringLength? true) (by simp [pieceClasses])
    have hchar := hnone (.token .char, charLength? true) (by simp [pieceClasses])
    have hblank := hnone (.blank, someRun? isBlank) (by simp [pieceClasses])
    refine .inr (.inr (.inr ⟨c, rfl, ?_, hstring, hchar⟩))
    rw [← Bool.not_eq_true]
    intro hc
    simp [someRun?, runLength, hc] at hblank

/-- A token begins with no blank. -/
theorem isBlank_of_token {t s : List Char} {kind : Token.Kind} (h : firstPiece? (t ++ s) = some (.token kind, t.length)) :
    ∀ c ∈ t.head?, isBlank c = false := by
  intro c hc
  obtain ⟨rest, rfl⟩ : ∃ rest, t = c :: rest := List.head?_eq_some_iff.1 hc
  rcases token_cases h with ⟨-, hsolid⟩ | hstring | hchar | ⟨d, heq, hblank, -⟩
  · have := hsolid c List.mem_cons_self
    simp only [isSolid, LaidOut.isFiller, Bool.and_eq_true, Bool.not_eq_true', Bool.or_eq_false_iff] at this
    exact this.1.1.1
  · obtain ⟨rest, hrest⟩ := exists_of_stringLength? hstring
    rw [(List.cons_eq_cons.1 hrest).1]
    rfl
  · obtain ⟨rest, hrest⟩ := exists_of_charLength? hchar
    rw [(List.cons_eq_cons.1 hrest).1]
    rfl
  · rw [(List.cons_eq_cons.1 heq).1]
    exact hblank

/-- A token that begins with a quote is read by the grammar as a whole or not at all, whatever comes after it. -/
theorem whole_of_token {t s l : List Char} {kind : Token.Kind} (hquote : t.head?.any isQuote = true)
    (hfirst : firstPiece? (t ++ s) = some (.token kind, t.length)) (hveil : Veil s l)
    (hnext : t = ['\''] → s.head? = some '\'' → l.head? = some '\'') : Whole t l := by
  rcases token_cases hfirst with ⟨-, hsolid⟩ | hstring | hchar | ⟨c, rfl, -, hstring, hchar⟩
  · cases t with
    | nil => cases hquote
    | cons c t =>
      have hc := hsolid c List.mem_cons_self
      rcases isQuote_iff.1 hquote with rfl | rfl <;> cases hc
  · exact whole_of_string hveil hstring
  · exact whole_of_char hchar
  · rcases isQuote_iff.1 (by simpa using hquote) with rfl | rfl
    · exact whole_of_lone_double hveil hstring
    · exact whole_of_lone_single hveil hchar (hnext rfl)

end ElmLint
