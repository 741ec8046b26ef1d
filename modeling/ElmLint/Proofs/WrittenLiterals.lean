import ElmLint.Proofs.Digits
import ElmLint.Proofs.Quotes
import ElmLint.Proofs.WrittenNames

/-!
# Reading the literals of a rendering

The digits of a number are read as a word of its class. The escapes of a string or character literal are undone when it is read
(`unescape_flatMap_escapedPoint`), and it ends with its closing quote and no sooner (`quotedEnd?_escaped`). So each literal of a
rendering is read as a word of its class and has the value that it was written for.
-/

namespace ElmLint

/-! ## Numbers -/

section Numbers

variable (n : Nat)

theorem isAnyDigit_toDigits : ∀ c ∈ Nat.toDigits 10 n, isAnyDigit c = true := of_mem_toDigits (by decide) (by decide +kernel) n

theorem isLaterDigit_toDigits : ∀ c ∈ Nat.toDigits 10 n, isLaterDigit c = false := fun c hc => by
  simpa using of_mem_toDigits (p := fun c => !isLaterDigit c) (by decide) (by decide +kernel) n c hc

theorem someRun?_toDigits : someRun? isAnyDigit (Nat.toDigits 10 n) = some (Nat.toDigits 10 n).length := by
  rw [someRun?, runLength_eq_length (isAnyDigit_toDigits n), if_neg]
  simp [Nat.toDigits_ne_nil]

/-- Decimal digits are no hexadecimal number. -/
theorem toDigits_ne_hex (cs : List Char) : Nat.toDigits 10 n ≠ '0' :: 'x' :: cs := fun heq =>
  absurd (isAsciiDigit_toDigits n 'x' (by rw [heq]; simp)) (by decide)

theorem hexLength?_toDigits : hexLength? (Nat.toDigits 10 n) = none := by
  rw [hexLength?]
  exact toDigits_ne_hex n

theorem solid_toDigits : (Nat.toDigits 10 n).all isSolid = true :=
  List.all_eq_true.2 (of_mem_toDigits (by decide) (by decide) n)

theorem reads_toDigits : Lexeme.int.ReadsWord (Nat.toDigits 10 n) := by
  refine Lexeme.readsWord_of_solid (solid_toDigits n) rfl ?_
  rw [Lexeme.length?, intLength?, hexLength?_toDigits, someRun?_toDigits]
  rfl

/-- Digits alone are no number with a fraction. -/
theorem misses_float_toDigits : Lexeme.float.MissesWord (Nat.toDigits 10 n) := by
  refine Lexeme.missesWord_of_solid (solid_toDigits n) rfl ?_
  rw [Lexeme.length?, floatLength?, someRun?_toDigits, Option.bind_some, List.drop_length]
  rfl

/-- The digits of a number are read as the number, unless they are too many. -/
theorem ofInt_toDigits : Literal.ofInt (Nat.toDigits 10 n) =
    if n < 10 ^ Literal.maxDigits then .int n else .valueless (String.ofList (Nat.toDigits 10 n)) := by
  have hvalues : ¬ (Nat.toDigits 10 n).any isLaterDigit = true := by
    rw [List.any_eq_true]
    rintro ⟨c, hc, hlater⟩
    rw [isLaterDigit_toDigits n c hc] at hlater
    cases hlater
  have hlength : Literal.maxDigits < (Nat.toDigits 10 n).length ↔ ¬ n < 10 ^ Literal.maxDigits := by
    rw [← Nat.length_toDigits_le_iff (by decide) (by decide), Nat.not_le]
  rw [Literal.ofInt, Literal.ofNumber, if_neg hvalues]
  split
  · next heq => exact absurd heq (toDigits_ne_hex n _)
  · simp only [hlength, ite_not, decimalNumber_toDigits]

end Numbers

/-! ## Escapes -/

section Escapes

variable {q : Char} {acrossLines : Bool}

/-- Characters that mean nothing between quotes are passed over. -/
theorem quotedEnd?_plain {t : List Char} (ht : ∀ c ∈ t, c ≠ '\\' ∧ c ≠ q ∧ c ≠ '\n') (cs : List Char) :
    quotedEnd? q acrossLines (t ++ cs) = (quotedEnd? q acrossLines cs).map (· + t.length) := by
  induction t with
  | nil => simp
  | cons c t ih =>
    obtain ⟨⟨hback, hquote, hline⟩, ht⟩ := List.forall_mem_cons.1 ht
    rw [List.cons_append, quotedEnd?_cons hback, if_neg (by simpa using hquote), if_neg (by simpa using hline), ih ht, Option.map_map]
    congr 1

/-- A code point is written as itself, if it means nothing between quotes, or with an escape. -/
theorem escapedPoint_cases (p : Nat) :
    (∃ c, escapedPoint p = [c] ∧ c.toNat = p ∧ c ≠ '\\' ∧ isQuote c = false ∧ c ≠ '\n') ∨
      escapedPoint p = '\\' :: 'u' :: '{' :: (Nat.toDigits 16 p ++ ['}']) := by
  unfold escapedPoint
  split
  · next h =>
    refine .inl ⟨Char.ofNat p, rfl, ?_⟩
    simp only [Bool.and_eq_true, decide_eq_true_eq, bne_iff_ne] at h
    obtain ⟨⟨⟨⟨hlow, hhigh⟩, hdouble⟩, hsingle⟩, hback⟩ := h
    have hp : (Char.ofNat p).toNat = p := by
      rw [Char.ofNat, dif_pos (Or.inl (by omega))]
      rfl
    have hne : ∀ c : Char, p ≠ c.toNat → Char.ofNat p ≠ c := by
      rintro c hc rfl
      exact hc hp.symm
    refine ⟨hp, hne _ hback, ?_, hne _ fun hline => absurd (hline ▸ hlow) (by decide)⟩
    simp [isQuote, hne _ hdouble, hne _ hsingle]
  · exact .inr rfl

/-- Hexadecimal digits between braces mean nothing between quotes. -/
theorem plain_of_braced {digits : List Char} (hdigits : ∀ c ∈ digits, isHexDigit c = true) :
    ∀ c ∈ '{' :: (digits ++ ['}']), c ≠ '\\' ∧ isQuote c = false ∧ c ≠ '\n' := by
  intro c hc
  have hall : isHexDigit c = true ∨ c = '{' ∨ c = '}' := by
    simp only [List.mem_cons, List.mem_append, List.not_mem_nil, or_false] at hc
    rcases hc with rfl | hc | rfl
    · exact .inr (.inl rfl)
    · exact .inl (hdigits c hc)
    · exact .inr (.inr rfl)
  have hne : ∀ d : Char, ¬ (isHexDigit d = true ∨ d = '{' ∨ d = '}') → c ≠ d := by
    rintro d hd rfl
    exact hd hall
  refine ⟨hne _ (by decide), ?_, hne _ (by decide)⟩
  simp [isQuote, hne '"' (by decide), hne '\'' (by decide)]

/-- A code escape is passed over. -/
theorem quotedEnd?_code (hq : isQuote q = true) {digits : List Char} (hdigits : ∀ c ∈ digits, isHexDigit c = true) (cs : List Char) :
    quotedEnd? q acrossLines ('\\' :: 'u' :: '{' :: (digits ++ ['}']) ++ cs) =
      (quotedEnd? q acrossLines cs).map (· + ('\\' :: 'u' :: '{' :: (digits ++ ['}'])).length) := by
  have hplain : ∀ c ∈ '{' :: (digits ++ ['}']), c ≠ '\\' ∧ c ≠ q ∧ c ≠ '\n' := by
    intro c hc
    obtain ⟨hback, hquote, hline⟩ := plain_of_braced hdigits c hc
    refine ⟨hback, ?_, hline⟩
    rintro rfl
    rw [hq] at hquote
    cases hquote
  rw [List.cons_append, List.cons_append, quotedEnd?_escape, if_neg (by simp), quotedEnd?_plain hplain, Option.map_map]
  congr 1

theorem quotedEnd?_escapedPoint (hq : isQuote q = true) (p : Nat) (cs : List Char) :
    quotedEnd? q acrossLines (escapedPoint p ++ cs) = (quotedEnd? q acrossLines cs).map (· + (escapedPoint p).length) := by
  rcases escapedPoint_cases p with ⟨c, hc, -, hback, hquote, hline⟩ | hescape
  · rw [hc]
    refine quotedEnd?_plain (fun d hd => ?_) cs
    obtain rfl := List.mem_singleton.1 hd
    refine ⟨hback, ?_, hline⟩
    rintro rfl
    rw [hq] at hquote
    cases hquote
  · rw [hescape]
    exact quotedEnd?_code hq (isHexDigit_toDigits p) cs

/-- A quoted text ends with its closing quote and no sooner. -/
theorem quotedEnd?_escaped (hq : isQuote q = true) (ps : List Nat) (cs : List Char) :
    quotedEnd? q acrossLines (ps.flatMap escapedPoint ++ q :: cs) = some ((ps.flatMap escapedPoint).length + 1) := by
  induction ps with
  | nil =>
    have hback : q ≠ '\\' := by
      rintro rfl
      cases hq
    rw [List.flatMap_nil, List.nil_append, quotedEnd?_cons hback, if_pos (beq_self_eq_true q)]
    rfl
  | cons p ps ih =>
    rw [List.flatMap_cons, List.append_assoc, quotedEnd?_escapedPoint hq, ih, Option.map_some, List.length_append]
    congr 1
    omega

/-- The characters of an escape that have been taken account of are skipped. -/
theorem unescapeFrom_append (t cs : List Char) : Literal.unescapeFrom t.length (t ++ cs) = Literal.unescapeFrom 0 cs := by
  induction t with
  | nil => rfl
  | cons c t ih => rw [List.length_cons, List.cons_append, Literal.unescapeFrom, ih]

theorem codeEscape?_digits {digits : List Char} (hne : digits ≠ []) (hdigits : ∀ c ∈ digits, isHexDigit c = true)
    (cs : List Char) : Literal.codeEscape? ('{' :: (digits ++ '}' :: cs)) = some (hexNumber digits, digits.length + 2) := by
  have hrun : (digits ++ '}' :: cs).takeWhile isHexDigit = digits := by
    rw [List.takeWhile_append_of_pos hdigits, List.takeWhile_cons_of_neg (by decide), List.append_nil]
  simp [Literal.codeEscape?, hrun, hne]

/-- A code escape denotes its number. -/
theorem unescapeFrom_code {digits : List Char} (hne : digits ≠ []) (hdigits : ∀ c ∈ digits, isHexDigit c = true)
    (cs : List Char) : Literal.unescapeFrom 0 ('\\' :: 'u' :: '{' :: (digits ++ ['}']) ++ cs) =
      hexNumber digits :: Literal.unescapeFrom 0 cs := by
  have hskip := unescapeFrom_append (digits ++ ['}']) cs
  rw [List.append_assoc, List.singleton_append, List.length_append, List.length_singleton] at hskip
  simp [Literal.unescapeFrom, Literal.escape?, codeEscape?_digits hne hdigits, hskip]

/-- A code point is read back. -/
theorem unescapeFrom_escapedPoint (p : Nat) (cs : List Char) :
    Literal.unescapeFrom 0 (escapedPoint p ++ cs) = p :: Literal.unescapeFrom 0 cs := by
  rcases escapedPoint_cases p with ⟨c, hc, hp, hback, -⟩ | hescape
  · rw [hc, List.singleton_append, Literal.unescapeFrom, if_neg (by simpa using hback), hp]
  · rw [hescape, unescapeFrom_code Nat.toDigits_ne_nil (isHexDigit_toDigits p), hexNumber_toDigits]

theorem unescape_flatMap_escapedPoint (ps : List Nat) : Literal.unescape (ps.flatMap escapedPoint) = ps := by
  rw [Literal.unescape]
  induction ps with
  | nil => rfl
  | cons p ps ih => rw [List.flatMap_cons, unescapeFrom_escapedPoint, ih]

end Escapes

/-! ## Strings and characters -/

section Quoted

variable {q : Char} (ps : List Nat)

theorem inner_quotedPoints (q : Char) : Literal.inner 1 (quotedPoints q ps) = ps.flatMap escapedPoint := by
  simp [Literal.inner, quotedPoints]

/-- No quote stands at the beginning of escaped code points. -/
theorem head?_flatMap_escapedPoint : ∀ c ∈ (ps.flatMap escapedPoint).head?, isQuote c = false := by
  cases ps with
  | nil => simp
  | cons p ps =>
    rw [List.flatMap_cons]
    rcases escapedPoint_cases p with ⟨c, hc, -, -, hquote, -⟩ | hescape
    · simpa [hc] using hquote
    · simp [hescape, isQuote]

/-- What begins with one quote and escaped code points does not begin with three quotes. -/
theorem no_three_quotes {rest : List Char} (hrest : ∀ c ∈ rest.head?, LaidOut.isFiller c = true) :
    ¬ ['"', '"'] <+: ps.flatMap escapedPoint ++ '"' :: rest := by
  have hhead := head?_flatMap_escapedPoint ps
  generalize ps.flatMap escapedPoint = body at hhead
  rintro ⟨more, hmore⟩
  cases body with
  | nil =>
    obtain ⟨-, hthird⟩ := List.cons_eq_cons.1 hmore
    rw [← hthird] at hrest
    exact absurd (hrest '"' rfl) (by decide)
  | cons c body =>
    obtain ⟨rfl, -⟩ := List.cons_eq_cons.1 hmore
    exact absurd (hhead '"' rfl) (by decide)

theorem stringLength?_quotedPoints {acrossLines : Bool} {rest : List Char} (hrest : ∀ c ∈ rest.head?, LaidOut.isFiller c = true) :
    stringLength? acrossLines (quotedPoints '"' ps ++ rest) = some (quotedPoints '"' ps).length := by
  rw [quotedPoints, List.cons_append, List.append_assoc, List.singleton_append, stringLength?_cons (no_three_quotes ps hrest),
    quotedEnd?_escaped rfl]
  simp

theorem charLength?_quotedPoints {acrossLines : Bool} (hps : ps ≠ []) (rest : List Char) :
    charLength? acrossLines (quotedPoints '\'' ps ++ rest) = some (quotedPoints '\'' ps).length := by
  have hhead : (ps.flatMap escapedPoint ++ '\'' :: rest).head? ≠ some '\'' := by
    intro hquote
    have hnone := head?_flatMap_escapedPoint ps
    cases hbody : ps.flatMap escapedPoint with
    | nil =>
      obtain ⟨p, ps, rfl⟩ := List.exists_cons_of_ne_nil hps
      rw [List.flatMap_cons, List.append_eq_nil_iff] at hbody
      rcases escapedPoint_cases p with ⟨c, hc, -⟩ | hescape
      · rw [hc] at hbody
        cases hbody.1
      · rw [hescape] at hbody
        cases hbody.1
    | cons c body =>
      rw [hbody] at hquote hnone
      obtain rfl : c = '\'' := Option.some.inj hquote
      exact absurd (hnone '\'' rfl) (by decide)
  rw [quotedPoints, List.cons_append, List.append_assoc, List.singleton_append, charLength?_cons hhead, quotedEnd?_escaped rfl]
  simp

theorem ofString_quotedPoints : Literal.ofString (quotedPoints '"' ps) = .string ps := by
  have hthree : ¬ ((quotedPoints '"' ps).take 3 == ['"', '"', '"']) = true := by
    intro hquotes
    have hrest : ∀ c ∈ ([] : List Char).head?, LaidOut.isFiller c = true := fun _ hc => nomatch hc
    refine no_three_quotes ps hrest ?_
    have hprefix : ['"', '"', '"'] <+: quotedPoints '"' ps := beq_iff_eq.1 hquotes ▸ List.take_prefix _ _
    exact (List.prefix_cons_inj _).1 hprefix
  rw [Literal.ofString, if_neg hthree, inner_quotedPoints, unescape_flatMap_escapedPoint]

theorem ofChar_quotedPoints : Literal.ofChar (quotedPoints '\'' ps) = .char ps := by
  rw [Literal.ofChar, inner_quotedPoints, unescape_flatMap_escapedPoint]

end Quoted

/-- A number with a fraction has solid characters only. -/
theorem solid_of_floatLength? {w : List Char} (h : floatLength? isAnyDigit w = some w.length) : w.all isSolid = true := by
  have hsolid := (Lexeme.contained (l := .float) rfl).isSolid (reads_floatLength? isAnyDigit) h
  rw [List.take_length] at hsolid
  exact List.all_eq_true.2 hsolid

namespace Grammar

variable {locate : Locate} {signs : List Sign}

/-- The digits of a number are read as an integer, with a value or without. -/
theorem takes_toDigits {n : Nat} {value : Literal} (hvalue : Literal.ofInt (Nat.toDigits 10 n) = value) :
    Takes locate (Flush (.inr (Nat.toDigits 10 n) :: signs)) literal (· = value) (After signs) := by
  refine Misses.orElse (misses_lexeme_of_misses (misses_float_toDigits n)).map (Takes.orElse ?_)
  exact (takes_lexeme_of_reads (reads_toDigits n)).map fun _ heq => heq ▸ hvalue

/-- A literal is read back. -/
theorem takes_literal {style : Style} {value : Literal} (h : value.Renderable style) (hunit : value ≠ .unit) :
    Takes locate (Flush ((value.words style).map .inr ++ signs)) literal (· = value) (After signs) := by
  cases value with
  | int n => exact takes_toDigits ((ofInt_toDigits n).trans (if_pos h))
  | float x =>
    refine Takes.orElse ((takes_lexeme_of_reads ?_).map fun _ heq => heq ▸ h.2)
    exact Lexeme.readsWord_of_solid (solid_of_floatLength? h.1) rfl h.1
  | string ps =>
    refine Misses.orElse (misses_flush rfl ?_) (Misses.orElse (misses_flush rfl ?_) (Takes.orElse ?_))
    · exact fun c hc => by cases hc; decide
    · exact fun c hc => by cases hc; decide
    · have hreads : Lexeme.string.ReadsWord (quotedPoints '"' ps) := fun _ hrest => stringLength?_quotedPoints ps hrest
      exact (takes_lexeme_of_reads hreads).map fun _ heq => heq ▸ ofString_quotedPoints ps
  | char ps =>
    refine Misses.orElse (misses_flush rfl ?_) (Misses.orElse (misses_flush rfl ?_) (Misses.orElse (misses_flush rfl ?_) ?_))
    · exact fun c hc => by cases hc; decide
    · exact fun c hc => by cases hc; decide
    · exact fun c hc => by cases hc; decide
    · have hreads : Lexeme.char.ReadsWord (quotedPoints '\'' ps) := fun rest _ => charLength?_quotedPoints ps h rest
      exact (takes_lexeme_of_reads hreads).map fun _ heq => heq ▸ ofChar_quotedPoints ps
  | unit => exact absurd rfl hunit
  | valueless text =>
    obtain ⟨n, hn, htext⟩ := h
    have hvalue : Literal.ofInt (Nat.toDigits 10 n) = .valueless text := by
      rw [ofInt_toDigits, if_neg (Nat.not_lt_of_le hn), ← htext, String.ofList_toList]
    rw [Literal.words, htext]
    exact takes_toDigits hvalue

end Grammar

end ElmLint
