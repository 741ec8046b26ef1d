import ElmLint.Proofs.PegFuel

/-!
# How matches begin

`Lexeme.begins` and `Peg.begins` tell with which characters a match of a class of words or of an expression can begin, as far as that
can be seen without looking into rules. An expression that reads something begins with the next character (`Peg.begins_of_read`).
-/

namespace ElmLint

/-! ## Words -/

/-- Whether a word of a class can begin with a character. -/
def Lexeme.begins : Lexeme → Char → Bool
  | exact text, c | word text, c => text.toList.head? == some c
  | keyword, c => keywords.any (·.toList.head? == some c)
  | lowerName, c => isLower c
  | upperName, c | upperPath, c => isUpper c
  | path, c => isLetter c
  | field, c => c == '.'
  | wildcard, c => c == '_'
  | float, c | int, c => isAnyDigit c
  | string, c => c == '"'
  | char, c => c == '\''
  | operator, c => operators.any (·.toList.head? == some c)
  | blanks, c | someBlanks, c => isBlank c
  | marker m, c => c == m.char
  | untilBrace, _ => true

section Beginnings

variable {c : Char} {cs : List Char} {n : Nat}

theorem head?_of_prefix {text : List Char} (hne : text ≠ []) (h : text <+: c :: cs) : text.head? = some c := by
  obtain ⟨d, ds, rfl⟩ := List.exists_cons_of_ne_nil hne
  rw [(List.cons_prefix_cons.1 h).1, List.head?_cons]

theorem head?_of_exactLength? {text : List Char} (hne : text ≠ []) (h : exactLength? text (c :: cs) = some n) :
    text.head? = some c :=
  head?_of_prefix hne (exactLength?_eq_some_iff.1 h).1

theorem head?_of_wordLength? {word : List Char} (hne : word ≠ []) (h : wordLength? word (c :: cs) = some n) :
    word.head? = some c :=
  head?_of_prefix hne (wordLength?_eq_some_iff.1 h).1

theorem of_someRun? {p : Char → Bool} (h : someRun? p (c :: cs) = some n) : p c = true := by
  cases hc : p c with
  | true => rfl
  | false =>
    have hnone : someRun? p (c :: cs) = none := someRun?_eq_none_iff.2 hc
    cases hnone.symm.trans h

theorem of_nameLength? {first : Char → Bool} (h : nameLength? first (c :: cs) = some n) : first c = true :=
  (nameLength?_cons_eq_some_iff.1 h).1

theorem of_dottedLength? {last : Char → Bool} (h : dottedLength? last (c :: cs) = some n) : last c = true := by
  simp only [dottedLength?] at h
  split at h
  · assumption
  · cases h

theorem of_intLength? (h : intLength? isAnyDigit (c :: cs) = some n) : isAnyDigit c = true := by
  unfold intLength? at h
  cases hhex : hexLength? (c :: cs) with
  | none =>
    rw [hhex] at h
    exact of_someRun? h
  | some m =>
    unfold hexLength? at hhex
    split at hhex
    · next heq =>
      cases heq
      decide
    · cases hhex

theorem eq_of_stringLength? {acrossLines : Bool} (h : stringLength? acrossLines (c :: cs) = some n) : c = '"' := by
  unfold stringLength? at h
  split at h
  · next heq => exact (List.cons.inj heq).1
  · next heq => exact (List.cons.inj heq).1
  · cases h

theorem eq_of_charLength? {acrossLines : Bool} (h : charLength? acrossLines (c :: cs) = some n) : c = '\'' := by
  unfold charLength? at h
  split at h
  · cases h
  · next heq => exact (List.cons.inj heq).1
  · cases h

/-- A word begins with the next character. -/
theorem Lexeme.begins_of_length? {l : Lexeme} (hn : n ≠ 0) (h : l.length? (c :: cs) = some n) : l.begins c = true := by
  have hpos : ∀ text : List Char, n = text.length → text ≠ [] := by
    rintro text hlength rfl
    exact hn hlength
  cases l with
  | exact text =>
    exact beq_iff_eq.2 (head?_of_exactLength? (hpos _ (exactLength?_eq_some_iff.1 h).2) h)
  | word text =>
    exact beq_iff_eq.2 (head?_of_wordLength? (hpos _ (wordLength?_eq_some_iff.1 h).2.2) h)
  | keyword =>
    obtain ⟨w, hw, hlength⟩ := List.exists_of_findSome?_eq_some h
    exact List.any_eq_true.2 ⟨w, hw, beq_iff_eq.2 (head?_of_wordLength? (keywords_ne_nil w hw) hlength)⟩
  | lowerName | upperName => exact of_nameLength? h
  | upperPath | path => exact of_dottedLength? h
  | field =>
    simp only [length?] at h
    split at h
    · next heq => exact beq_iff_eq.2 (List.cons.inj heq).1
    · cases h
  | wildcard => exact beq_iff_eq.2 (Option.some.inj (head?_of_wordLength? (List.cons_ne_nil _ _) h)).symm
  | float =>
    obtain ⟨m, hm, -⟩ := Option.bind_eq_some_iff.1 h
    exact of_someRun? hm
  | int => exact of_intLength? h
  | string => exact beq_iff_eq.2 (eq_of_stringLength? h)
  | char => exact beq_iff_eq.2 (eq_of_charLength? h)
  | operator =>
    obtain ⟨w, hw, hlength⟩ := List.exists_of_findSome?_eq_some h
    split at hlength
    · cases hlength
    · exact List.any_eq_true.2 ⟨w, hw, beq_iff_eq.2 (head?_of_exactLength? (operators_ne_nil w hw) hlength)⟩
  | blanks => exact of_someRun? (someRun?_eq_some_iff.2 ⟨(Option.some.inj h).symm, Nat.pos_of_ne_zero hn⟩)
  | someBlanks => exact of_someRun? h
  | marker m => exact beq_iff_eq.2 (Option.some.inj (head?_of_exactLength? (List.cons_ne_nil _ _) h)).symm
  | untilBrace => rfl

end Beginnings

/-! ## Expressions -/

namespace Peg

variable {Rule : Type} {Sem : Rule → Type} {call : (r : Rule) → Cursor → Outcome (Sem r)}

/-- Whether a match of an expression can begin with a character. A match of a rule can begin with any. -/
def begins : {α : Type} → Peg Rule Sem α → Char → Bool
  | _, lexeme l, c => l.begins c
  | _, rule _, _ => true
  | _, seq first second, c => first.begins c || first.nullable && second.begins c
  | _, alt first second, c => first.begins c || second.begins c
  | _, opt item, c | _, many item, c | _, node _ item, c => item.begins c
  | _, without _, _ => false

/-- A match begins with the next character, unless it is one of no text. -/
theorem begins_of_read {α : Type} (p : Peg Rule Sem α) : ∀ {c c' : Cursor} {v : α} {d : Char} {ds : List Char},
    c.rest = d :: ds → p.read call c = .ok v c' → p.begins d = true ∨ p.nullable = true ∧ c' = c := by
  induction p with
  | lexeme l =>
    intro c c' v d ds hrest h
    obtain ⟨n, hn, -, rfl⟩ := read_lexeme_ok.1 h
    rw [hrest] at hn
    cases n with
    | zero =>
      refine .inr ⟨?_, rfl⟩
      cases hnull : l.isNullable with
      | false => exact absurd (Lexeme.length?_pos hnull _ _ hn).1 (Nat.lt_irrefl 0)
      | true => exact hnull
    | succ n => exact .inl (Lexeme.begins_of_length? (Nat.succ_ne_zero n) hn)
  | rule r => exact fun _ _ => .inl rfl
  | seq p q ihp ihq =>
    intro c c' v d ds hrest h
    obtain ⟨c₁, h₁, h₂⟩ := read_seq_ok.1 h
    simp only [begins, nullable, Bool.or_eq_true, Bool.and_eq_true]
    rcases ihp hrest h₁ with hp | ⟨hp, rfl⟩
    · exact .inl (.inl hp)
    · rcases ihq hrest h₂ with hq | ⟨hq, rfl⟩
      · exact .inl (.inr ⟨hp, hq⟩)
      · exact .inr ⟨⟨hp, hq⟩, rfl⟩
  | alt p q ihp ihq =>
    intro c c' v d ds hrest h
    simp only [begins, nullable, Bool.or_eq_true]
    rcases read_alt_ok.1 h with h | ⟨-, h⟩
    · exact (ihp hrest h).imp .inl fun hempty => ⟨.inl hempty.1, hempty.2⟩
    · exact (ihq hrest h).imp .inr fun hempty => ⟨.inr hempty.1, hempty.2⟩
  | opt p ih =>
    intro c c' v d ds hrest h
    rcases read_opt_ok.1 h with ⟨a, -, h⟩ | ⟨-, rfl, -⟩
    · exact (ih hrest h).imp id fun hempty => ⟨rfl, hempty.2⟩
    · exact .inr ⟨rfl, rfl⟩
  | many p ih =>
    intro c c' v d ds hrest h
    rw [read_many, hrest, List.length_cons, repeated_succ] at h
    cases hitem : p.read call c with
    | fail =>
      rw [hitem] at h
      cases h
      exact .inr ⟨rfl, rfl⟩
    | exhausted => rw [hitem] at h; cases h
    | ok a next =>
      rcases ih hrest hitem with hp | ⟨hp, rfl⟩
      · exact .inl hp
      · rw [hitem] at h
        simp only [beq_self_eq_true, if_true] at h
        cases h
        exact .inr ⟨rfl, rfl⟩
  | without p ih =>
    intro c c' v d ds hrest h
    exact .inr ⟨rfl, (read_without_ok.1 h).1⟩
  | node build p ih =>
    intro c c' v d ds hrest h
    obtain ⟨a, h, -⟩ := read_node_ok.1 h
    exact ih hrest h

end Peg

end ElmLint
