import ElmLint.Proofs.Parse
import ElmLint.Proofs.WordTokens

/-!
# However a literal is spelled, it is read as what was spelled

A code point can be written between quotes as a character, as an escape of one letter, or as an escape with its hexadecimal digits
(`Spells`). The scanner and the grammar pass over each of these without meeting a quote (`Spells.quotedEnd?_append`,
`Spells.blockStringEnd?_append`), and undoing escapes takes each of them for its code point (`Spells.unescapeFrom_append`). By
induction on the code points a text of them ends at its closing quotes and no sooner, and denotes them.

* `Literal.reads_spelled`: a spelled text between quotes is one token, it is laid out without a marker, and the grammar reads all of it
  as a literal with the code points that were spelled.
-/

namespace ElmLint

/-! ## Spellings -/

/-- What the code points of a literal are written between. -/
inductive Enclosure where
  /-- A string on one line, between double quotes. -/
  | line
  /-- A string between three double quotes on each side. -/
  | block
  /-- A character, between apostrophes. -/
  | char
deriving DecidableEq

namespace Enclosure

/-- The quote that may not stand between the delimiters. -/
def quote : Enclosure → Char
  | line | block => '"'
  | char => '\''

/-- The quotes on either side. -/
def delimiter : Enclosure → List Char
  | line => ['"']
  | block => ['"', '"', '"']
  | char => ['\'']

/-- A text between its quotes. -/
def enclose (e : Enclosure) (body : List Char) : List Char := e.delimiter ++ body ++ e.delimiter

/-- The kind of the token that a literal is. -/
def kind : Enclosure → Token.Kind
  | line | block => .string
  | char => .char

/-- A literal with these code points. -/
def literal : Enclosure → List Nat → Literal
  | line, ns | block, ns => .string ns
  | char, ns => .char ns

end Enclosure

/-- The letters of the escapes of one letter, with the code points that they stand for. -/
def escapeLetters : List (Char × Nat) := [('n', 10), ('t', 9), ('r', 13), ('"', 34), ('\'', 39), ('\\', 92)]

/-- A way to write a code point between quotes. -/
inductive Spells (e : Enclosure) : Nat → List Char → Prop
  /-- The character itself, when it is not the quote, no backslash and, on one line, no line feed. -/
  | raw {c : Char} : c ≠ e.quote → c ≠ '\\' → (c = '\n' → e = .block) → Spells e c.toNat [c]
  | letter {c : Char} {n : Nat} : (c, n) ∈ escapeLetters → Spells e n ['\\', c]
  /-- Its hexadecimal digits in either case, with any number of zeros before them. -/
  | code {n zeros : Nat} {digits : List Char} : n ≤ Literal.maxCodePoint →
      digits.map Char.toLower = List.replicate zeros '0' ++ Nat.toDigits 16 n →
      Spells e n ('\\' :: 'u' :: '{' :: (digits ++ ['}']))

/-! ## Digits in either case -/

theorem hexDigit_toLower (c : Char) : isHexDigit c.toLower = isHexDigit c ∧ hexValue c.toLower = hexValue c := by
  by_cases hupper : c.val ≥ 'A'.val ∧ c.val ≤ 'Z'.val
  · have hletters : ∀ n ∈ List.range' 65 26, isHexDigit (Char.ofNat n).toLower = isHexDigit (Char.ofNat n) ∧
        hexValue (Char.ofNat n).toLower = hexValue (Char.ofNat n) := by decide +kernel
    have hbounds : 65 ≤ c.toNat ∧ c.toNat ≤ 90 := by simpa [UInt32.le_iff_toNat_le] using hupper
    have hc := hletters c.toNat (List.mem_range'_1.2 (by omega))
    rwa [Char.ofNat_toNat] at hc
  · have hsame : c.toLower = c := dif_neg hupper
    rw [hsame]
    exact ⟨rfl, rfl⟩

theorem hexNumber_map_toLower (digits : List Char) : hexNumber (digits.map Char.toLower) = hexNumber digits := by
  simp only [hexNumber, List.foldl_map, hexDigit_toLower]

theorem hexNumber_zeros (zeros : Nat) (digits : List Char) : hexNumber (List.replicate zeros '0' ++ digits) = hexNumber digits := by
  induction zeros with
  | zero => rfl
  | succ zeros ih => exact ih

section Code

variable {n zeros : Nat} {digits : List Char} (h : digits.map Char.toLower = List.replicate zeros '0' ++ Nat.toDigits 16 n)
include h

theorem isHexDigit_of_spelled : ∀ c ∈ digits, isHexDigit c = true := by
  intro c hc
  have hmem := List.mem_map_of_mem (f := Char.toLower) hc
  rw [h, List.mem_append] at hmem
  rw [← (hexDigit_toLower c).1]
  rcases hmem with hzero | hdigit
  · rw [List.eq_of_mem_replicate hzero]
    rfl
  · exact isHexDigit_toDigits n _ hdigit

theorem hexNumber_of_spelled : hexNumber digits = n := by
  rw [← hexNumber_map_toLower, h, hexNumber_zeros, hexNumber_toDigits]

theorem ne_nil_of_spelled : digits ≠ [] := by
  rintro rfl
  have hnil := (List.append_eq_nil_iff.1 h.symm).2
  exact Nat.toDigits_ne_nil hnil

end Code

/-! ## One code point -/

theorem blockStringEnd?_plain {t : List Char} (ht : ∀ c ∈ t, c ≠ '\\' ∧ c ≠ '"') (cs : List Char) :
    blockStringEnd? (t ++ cs) = (blockStringEnd? cs).map (· + t.length) := by
  induction t with
  | nil => simp
  | cons c t ih =>
    obtain ⟨⟨hback, hquote⟩, ht⟩ := List.forall_mem_cons.1 ht
    have hnone : ¬ ['"', '"', '"'] <+: c :: (t ++ cs) := fun ⟨_, hrest⟩ => hquote (List.cons_eq_cons.1 hrest).1.symm
    rw [List.cons_append, blockStringEnd?_cons hback hnone, ih ht, Option.map_map]
    congr 1

namespace Spells

variable {e : Enclosure} {n : Nat} {t : List Char}

theorem isQuote_quote (e : Enclosure) : isQuote e.quote = true := by cases e <;> rfl

/-- A spelling does not begin with the quote. -/
theorem head?_ne (h : Spells e n t) : ∃ c rest, t = c :: rest ∧ c ≠ e.quote := by
  have hback : '\\' ≠ e.quote := by cases e <;> decide
  cases h with
  | raw hquote => exact ⟨_, [], rfl, hquote⟩
  | letter => exact ⟨_, _, rfl, hback⟩
  | code => exact ⟨_, _, rfl, hback⟩

/-- On one line, a spelling is passed over. -/
theorem quotedEnd?_append (h : Spells e n t) (hline : e ≠ .block) (acrossLines : Bool) (cs : List Char) :
    quotedEnd? e.quote acrossLines (t ++ cs) = (quotedEnd? e.quote acrossLines cs).map (· + t.length) := by
  cases h with
  | raw hquote hback hfeed =>
    refine quotedEnd?_plain (fun d hd => ?_) cs
    obtain rfl := List.mem_singleton.1 hd
    exact ⟨hback, hquote, fun heq => hline (hfeed heq)⟩
  | @letter c n hletter =>
    have hfeed : ∀ p ∈ escapeLetters, p.1 ≠ '\n' := by decide
    rw [List.cons_append, List.singleton_append, quotedEnd?_escape, if_neg (by simp [hfeed _ hletter])]
    rfl
  | code _ hdigits => exact quotedEnd?_code (isQuote_quote e) (isHexDigit_of_spelled hdigits) cs

/-- Between three quotes, a spelling is passed over. -/
theorem blockStringEnd?_append (h : Spells .block n t) (cs : List Char) :
    blockStringEnd? (t ++ cs) = (blockStringEnd? cs).map (· + t.length) := by
  cases h with
  | raw hquote hback =>
    refine blockStringEnd?_plain (fun d hd => ?_) cs
    obtain rfl := List.mem_singleton.1 hd
    exact ⟨hback, hquote⟩
  | letter => exact blockStringEnd?_escape _ cs
  | @code _ _ digits _ hdigits =>
    have hplain : ∀ c ∈ '{' :: (digits ++ ['}']), c ≠ '\\' ∧ c ≠ '"' := by
      intro c hc
      obtain ⟨hback, hquote, -⟩ := plain_of_braced (isHexDigit_of_spelled hdigits) c hc
      refine ⟨hback, ?_⟩
      rintro rfl
      cases hquote
    rw [List.cons_append, List.cons_append, blockStringEnd?_escape, blockStringEnd?_plain hplain, Option.map_map]
    congr 1

/-- A spelling denotes its code point. -/
theorem unescapeFrom_append (h : Spells e n t) (cs : List Char) :
    Literal.unescapeFrom 0 (t ++ cs) = n :: Literal.unescapeFrom 0 cs := by
  cases h with
  | raw _ hback => rw [List.singleton_append, Literal.unescapeFrom, if_neg (by simpa using hback)]
  | @letter c n hletter =>
    simp only [escapeLetters, List.mem_cons, Prod.mk.injEq, List.not_mem_nil, or_false] at hletter
    rcases hletter with ⟨rfl, rfl⟩ | ⟨rfl, rfl⟩ | ⟨rfl, rfl⟩ | ⟨rfl, rfl⟩ | ⟨rfl, rfl⟩ | ⟨rfl, rfl⟩ <;> rfl
  | code _ hdigits =>
    rw [unescapeFrom_code (ne_nil_of_spelled hdigits) (isHexDigit_of_spelled hdigits), hexNumber_of_spelled hdigits]

theorem le_maxCodePoint (h : Spells e n t) : n ≤ Literal.maxCodePoint := by
  cases h with
  | @raw c =>
    have hvalid : c.toNat < 0xd800 ∨ 0xdfff < c.toNat ∧ c.toNat < 0x110000 := c.valid
    unfold Literal.maxCodePoint
    omega
  | letter hletter =>
    have hall : ∀ p ∈ escapeLetters, p.2 ≤ Literal.maxCodePoint := by decide
    exact hall _ hletter
  | code hle => exact hle

end Spells

/-! ## All code points -/

section Spelled

variable {e : Enclosure} {ns : List Nat} {ts : List (List Char)}

/-- A spelled text ends with its closing quote and no sooner. -/
theorem quotedEnd?_spelled (h : List.Forall₂ (Spells e) ns ts) (hline : e ≠ .block) (acrossLines : Bool) :
    quotedEnd? e.quote acrossLines (ts.flatten ++ [e.quote]) = some (ts.flatten.length + 1) := by
  induction h with
  | nil =>
    have hback : e.quote ≠ '\\' := by cases e <;> decide
    rw [List.flatten_nil, List.nil_append, quotedEnd?_cons hback, if_pos (beq_self_eq_true _)]
    rfl
  | cons hfirst _ ih =>
    rw [List.flatten_cons, List.append_assoc, hfirst.quotedEnd?_append hline, ih, Option.map_some, List.length_append]
    congr 1
    omega

theorem blockStringEnd?_spelled (h : List.Forall₂ (Spells .block) ns ts) :
    blockStringEnd? (ts.flatten ++ ['"', '"', '"']) = some (ts.flatten.length + 3) := by
  induction h with
  | nil => rfl
  | cons hfirst _ ih =>
    rw [List.flatten_cons, List.append_assoc, hfirst.blockStringEnd?_append, ih, Option.map_some, List.length_append]
    congr 1
    omega

theorem unescape_spelled (h : List.Forall₂ (Spells e) ns ts) : Literal.unescape ts.flatten = ns := by
  rw [Literal.unescape]
  induction h with
  | nil => rfl
  | cons hfirst _ ih => rw [List.flatten_cons, hfirst.unescapeFrom_append, ih]

/-- A spelled text does not begin with the quote. -/
theorem head?_spelled (h : List.Forall₂ (Spells e) ns ts) : ∀ c ∈ ts.flatten.head?, c ≠ e.quote := by
  cases h with
  | nil => exact fun _ hc => nomatch hc
  | cons hfirst _ =>
    obtain ⟨c, rest, rfl, hne⟩ := hfirst.head?_ne
    exact fun d hd => Option.some.inj hd ▸ hne

/-- One double quote before a spelled text begins no block string. -/
theorem no_quotes_spelled (h : List.Forall₂ (Spells .line) ns ts) : ¬ ['"', '"'] <+: ts.flatten ++ ['"'] := by
  have hhead := head?_spelled h
  rintro ⟨rest, hrest⟩
  cases hbody : ts.flatten with
  | nil =>
    rw [hbody] at hrest
    cases hrest
  | cons c body =>
    rw [hbody] at hrest hhead
    exact hhead c rfl (List.cons_eq_cons.1 hrest).1.symm

/-! ## The whole literal -/

/-- The words that literals with these quotes are. -/
def Enclosure.length? (acrossLines : Bool) : Enclosure → List Char → Option Nat
  | .line | .block => stringLength? acrossLines
  | .char => charLength? acrossLines

/-- The value of a literal with its quotes. -/
def Enclosure.value : Enclosure → List Char → Literal
  | .line | .block => Literal.ofString
  | .char => Literal.ofChar

/-- A spelled text with its quotes is one word. -/
theorem length?_spelled (h : List.Forall₂ (Spells e) ns ts) (hchar : e = .char → ns ≠ []) (acrossLines : Bool) :
    e.length? acrossLines (e.enclose ts.flatten) = some (e.enclose ts.flatten).length := by
  cases e with
  | line =>
    have hend := quotedEnd?_spelled h nofun acrossLines
    change stringLength? acrossLines ('"' :: (ts.flatten ++ ['"'])) = _
    rw [stringLength?_cons (no_quotes_spelled h)]
    simpa [Enclosure.enclose, Enclosure.delimiter, Enclosure.quote] using hend
  | block =>
    change stringLength? acrossLines ('"' :: '"' :: '"' :: (ts.flatten ++ ['"', '"', '"'])) = _
    rw [stringLength?_quotes, blockStringEnd?_spelled h, Option.elim_some]
    simp [Enclosure.enclose, Enclosure.delimiter]
  | char =>
    have hend := quotedEnd?_spelled h nofun acrossLines
    have hne : (ts.flatten ++ ['\'']).head? ≠ some '\'' := by
      cases h with
      | nil => exact absurd rfl (hchar rfl)
      | cons hfirst _ =>
        obtain ⟨c, rest, rfl, hne⟩ := hfirst.head?_ne
        exact fun hc => hne (Option.some.inj hc)
    change charLength? acrossLines ('\'' :: (ts.flatten ++ ['\''])) = _
    rw [charLength?_cons hne]
    simpa [Enclosure.enclose, Enclosure.delimiter, Enclosure.quote] using hend

/-- The value of a body between quotes is told by the body, unless one quote and the body begin like three quotes. -/
theorem Enclosure.value_enclose (e : Enclosure) (body : List Char) (hline : e = .line → ¬ ['"', '"', '"'] <+: e.enclose body) :
    e.value (e.enclose body) = e.literal (Literal.unescape body) := by
  cases e with
  | line =>
    have hthree : ¬ ((line.enclose body).take 3 == ['"', '"', '"']) = true :=
      fun hquotes => hline rfl (beq_iff_eq.1 hquotes ▸ List.take_prefix _ _)
    have hinner : Literal.inner 1 (line.enclose body) = body := by simp [Literal.inner, enclose, delimiter]
    rw [value, Literal.ofString, if_neg hthree, hinner]
    rfl
  | block =>
    have hthree : ((block.enclose body).take 3 == ['"', '"', '"']) = true := rfl
    have hinner : Literal.inner 3 (block.enclose body) = body := by simp [Literal.inner, enclose, delimiter]
    rw [value, Literal.ofString, if_pos hthree, hinner]
    rfl
  | char =>
    have hinner : Literal.inner 1 (char.enclose body) = body := by simp [Literal.inner, enclose, delimiter]
    rw [value, Literal.ofChar, hinner]
    rfl

theorem value_spelled (h : List.Forall₂ (Spells e) ns ts) : e.value (e.enclose ts.flatten) = e.literal ns := by
  rw [Enclosure.value_enclose, unescape_spelled h]
  rintro rfl hbegins
  exact no_quotes_spelled h ((List.prefix_cons_inj _).1 hbegins)

theorem error?_spelled (h : List.Forall₂ (Spells e) ns ts) : (e.literal ns).error? = none := by
  have hle : ∀ n ∈ ns, n ≤ Literal.maxCodePoint := by
    induction h with
    | nil => exact fun _ hn => nomatch hn
    | cons hfirst _ ih => exact List.forall_mem_cons.2 ⟨hfirst.le_maxCodePoint, ih⟩
  have hnone : ns.find? (Literal.maxCodePoint < ·) = none := by simpa using hle
  cases e <;> simp [Enclosure.literal, Literal.error?, hnone]

/-- The first piece of a spelled literal is all of it. -/
theorem firstPiece?_spelled (h : List.Forall₂ (Spells e) ns ts) (hchar : e = .char → ns ≠ []) :
    firstPiece? (e.enclose ts.flatten) = some (.token e.kind, (e.enclose ts.flatten).length) := by
  have hlength := length?_spelled h hchar true
  cases e with
  | line | block =>
    exact firstPiece?_of_begins (stringLength? true) (by simp [pieceClasses, Enclosure.kind]) (by decide +kernel) (by decide)
      (by decide) hlength
  | char =>
    exact firstPiece?_of_begins (charLength? true) (by simp [pieceClasses, Enclosure.kind]) (by decide +kernel) (by decide)
      (by decide) hlength

end Spelled

/-! ## A token by itself -/

/-- The token that a text is, when it is one from its beginning to its end. -/
def Token.alone (kind : Token.Kind) (text : List Char) : Token :=
  ⟨kind, String.ofList text, 0, text.length, 1, 1, rowOf (lineStarts text) (text.length - 1)⟩

theorem Scanned.ofSource_alone {kind : Token.Kind} {text : List Char} (hne : text ≠ [])
    (h : firstPiece? text = some (.token kind, text.length)) : Scanned.ofSource text = .ok ⟨text, [.alone kind text], []⟩ := by
  have htiles : Tiles 0 [⟨.token kind, 0, text⟩] (text ++ []) := .cons rfl hne (by rwa [List.append_nil]) (.nil _)
  rw [List.append_nil] at htiles
  refine ofSource_ok_iff.2 ⟨_, htiles, ?_⟩
  simp [Piece.visible, Piece.token?, Piece.comment?, Token.alone, Piece.stop, Position.ofOffset_zero]

/-- Layout adds nothing to a literal by itself. -/
theorem LaidOut.ofSource_alone {kind : Token.Kind} {text : List Char} (hne : text ≠ [])
    (h : firstPiece? text = some (.token kind, text.length)) (hkind : kind = .string ∨ kind = .char) :
    LaidOut.ofSource text = .ok (.plain text) := by
  refine LaidOut.ofSource_ok_iff.2 ⟨_, Scanned.ofSource_alone hne h, ?_⟩
  have hnone : Layout.insertions [.alone kind text] = [] := by rcases hkind with rfl | rfl <;> rfl
  simp [LaidOut.ofScanned, LaidOut.plain, hnone, Layout.insertFrom, Layout.markerOffsets]

namespace Grammar

/-- The grammar reads a spelled literal. -/
theorem takes_spelled {locate : Locate} {e : Enclosure} {ns : List Nat} {ts : List (List Char)}
    (h : List.Forall₂ (Spells e) ns ts) (hchar : e = .char → ns ≠ []) :
    Takes locate (· = e.enclose ts.flatten) literal (· = e.literal ns) (· = []) := by
  have hmisses : ∀ {p : Phrase Literal}, p.nullable = false → p.begins e.quote = false →
      Misses locate (· = e.enclose ts.flatten) p := by
    intro p hp hquote
    refine misses_of_begins hp fun cs hcs d hd => ?_
    have hhead : cs.head? = some e.quote := by rw [hcs]; cases e <;> rfl
    rw [hhead] at hd
    exact Option.some.inj hd ▸ hquote
  have htakes : ∀ {l : Lexeme}, l.length? = e.length? false →
      Takes locate (· = e.enclose ts.flatten) (.lexeme l) (· = e.enclose ts.flatten) (· = []) := by
    intro l hl
    refine takes_lexeme fun cs hcs => ⟨(e.enclose ts.flatten).length, ?_, ?_, ?_⟩
    · rw [hl, hcs]
      exact length?_spelled h hchar false
    · rw [hcs, List.take_length]
    · rw [hcs, List.drop_length]
  have hvalue : ∀ text, text = e.enclose ts.flatten → e.value text = e.literal ns := fun text htext => htext ▸ value_spelled h
  have hfloat : Misses locate (· = e.enclose ts.flatten) floatLiteral := hmisses rfl (by cases e <;> decide)
  have hint : Misses locate (· = e.enclose ts.flatten) intLiteral := hmisses rfl (by cases e <;> decide)
  refine hfloat.orElse (hint.orElse ?_)
  cases e with
  | line | block => exact ((htakes rfl).map hvalue).orElse
  | char => exact (hmisses rfl (by decide)).orElse ((htakes rfl).map hvalue)

end Grammar

/-! ## Main result -/

/-- **However a literal is spelled, it is read as what was spelled.** When each code point is written in any of the ways there are,
the text between double quotes, three double quotes or apostrophes is one token from its beginning to its end and is laid out as it
stands; the rule for literals reads all of it, and gives a literal with those code points, which has a value. -/
theorem Literal.reads_spelled (e : Enclosure) (ns : List Nat) (ts : List (List Char)) (h : List.Forall₂ (Spells e) ns ts)
    (hchar : e = .char → ns ≠ []) :
    let text := e.enclose ts.flatten
    Scanned.ofSource text = .ok ⟨text, [.alone e.kind text], []⟩ ∧ LaidOut.ofSource text = .ok (.plain text) ∧
      (LaidOut.plain text).readPhrase (fun _ => Grammar.literal) = .ok (e.literal ns) ∧ (e.literal ns).error? = none := by
  intro text
  have hne : text ≠ [] := by cases e <;> exact List.cons_ne_nil _ _
  have hpiece : firstPiece? text = some (.token e.kind, text.length) := firstPiece?_spelled h hchar
  have hkind : e.kind = .string ∨ e.kind = .char := by cases e <;> simp [Enclosure.kind]
  refine ⟨Scanned.ofSource_alone hne hpiece, LaidOut.ofSource_alone hne hpiece hkind, ?_, error?_spelled h⟩
  have htakes : Grammar.Takes (LaidOut.plain text).range (· = text) Grammar.literal (· = e.literal ns) (· = []) :=
    Grammar.takes_spelled h hchar
  rcases htakes (Grammar.fuelFor text) (.start text) rfl with hfuel | ⟨value, next, hread, rfl, hrest⟩
  · exact absurd hfuel (Grammar.readText_ne_exhausted _ _ _)
  · exact LaidOut.readPhrase_ok_iff.2 ⟨next, hread, hrest⟩

/-- Between apostrophes, an escaped backslash before `u{41}` is read as these six characters, and `\u{00C9}` as one; a double quote
stands for itself and the apostrophe after a backslash ends nothing. -/
theorem Literal.reads_spelled_backslash :
    let text := "'\\\\u\x7b41\x7d\"\\'\\u\x7b00C9\x7d'".toList
    Scanned.ofSource text = .ok ⟨text, [.alone .char text], []⟩ ∧
      (LaidOut.plain text).readPhrase (fun _ => Grammar.literal) = .ok (.char [92, 117, 123, 52, 49, 125, 34, 39, 201]) := by
  have raw : ∀ c : Char, c ≠ '\'' → c ≠ '\\' → c ≠ '\n' → Spells .char c.toNat [c] :=
    fun c hquote hback hline => .raw hquote hback fun heq => absurd heq hline
  have hcode : Spells .char 201 ('\\' :: 'u' :: '{' :: ("00C9".toList ++ ['}'])) := @Spells.code _ 201 2 _ (by decide) (by decide)
  have hspelled : List.Forall₂ (Spells .char) [92, 117, 123, 52, 49, 125, 34, 39, 201]
      ["\\\\".toList, ['u'], ['\x7b'], ['4'], ['1'], ['\x7d'], ['"'], "\\'".toList, "\\u\x7b00C9\x7d".toList] :=
    .cons (.letter (by decide)) <| .cons (raw 'u' (by decide) (by decide) (by decide)) <|
    .cons (raw '{' (by decide) (by decide) (by decide)) <| .cons (raw '4' (by decide) (by decide) (by decide)) <|
    .cons (raw '1' (by decide) (by decide) (by decide)) <| .cons (raw '}' (by decide) (by decide) (by decide)) <|
    .cons (raw '"' (by decide) (by decide) (by decide)) <| .cons (.letter (by decide)) <|
    .cons hcode .nil
  obtain ⟨hscanned, -, hread, -⟩ := Literal.reads_spelled .char _ _ hspelled fun _ => List.cons_ne_nil _ _
  exact ⟨hscanned, hread⟩

end ElmLint
