import ElmLint.Peg

/-!
# What readings of parsing expressions give

* `read_seq_ok`, `read_alt_ok`, … tell what a successful reading of each kind of expression is made of.
* An expression of blanks and repetitions matches everywhere (`read_ne_fail`).
* A reading that succeeds ends further on in the same text (`read_ahead`, `run_ahead`).
* What each rule's expression gives as soon as the rules it calls give it, every run gives (`run_gives`).
-/

namespace ElmLint

/-! ## Places in a text -/

namespace Cursor

/-- The second cursor lies some characters after the first. -/
def Ahead (c c' : Cursor) : Prop := ∃ n, c' = c.advance n

/-- The cursor is a place of the text. -/
def On (text : List Char) (c : Cursor) : Prop := c.rest = text.drop c.offset

theorem advance_advance (c : Cursor) (m n : Nat) : (c.advance m).advance n = c.advance (m + n) := by
  simp [advance, Nat.add_assoc, List.drop_drop]

theorem Ahead.refl (c : Cursor) : c.Ahead c := ⟨0, by simp [advance]⟩

theorem Ahead.trans {c c' c'' : Cursor} (h : c.Ahead c') (h' : c'.Ahead c'') : c.Ahead c'' := by
  obtain ⟨m, rfl⟩ := h
  obtain ⟨n, rfl⟩ := h'
  exact ⟨m + n, advance_advance c m n⟩

theorem Ahead.offset_le {c c' : Cursor} (h : c.Ahead c') : c.offset ≤ c'.offset := by
  obtain ⟨n, rfl⟩ := h
  exact Nat.le_add_right _ _

theorem Ahead.length_le {c c' : Cursor} (h : c.Ahead c') : c'.rest.length ≤ c.rest.length := by
  obtain ⟨n, rfl⟩ := h
  simp [advance]

theorem on_start (text : List Char) : (start text).On text := by simp [On, start]

theorem On.ahead {text : List Char} {c c' : Cursor} (hc : c.On text) (h : c.Ahead c') : c'.On text := by
  obtain ⟨n, rfl⟩ := h
  unfold On at hc ⊢
  simp [advance, hc, List.drop_drop]

/-- The next character of a place is the character of the text at its offset. -/
theorem On.head? {text : List Char} {c : Cursor} (hc : c.On text) : c.rest.head? = text[c.offset]? := by
  rw [hc, List.head?_drop]

end Cursor

namespace Peg

variable {Rule : Type} {Sem : Rule → Type} {α β : Type} {call : (r : Rule) → Cursor → Outcome (Sem r)}

/-! ## Readings of each kind of expression -/

theorem read_lexeme (l : Lexeme) (c : Cursor) : (lexeme l : Peg Rule Sem _).read call c =
    match l.length? c.rest with
    | some n => .ok (c.rest.take n) (c.advance n)
    | none => .fail := rfl

theorem read_seq (p : Peg Rule Sem α) (q : Peg Rule Sem β) (c : Cursor) : (seq p q).read call c =
    match p.read call c with
    | .fail => .fail
    | .exhausted => .exhausted
    | .ok a c' =>
      match q.read call c' with
      | .fail => .fail
      | .exhausted => .exhausted
      | .ok b c'' => .ok (a, b) c'' := rfl

theorem read_alt (p q : Peg Rule Sem α) (c : Cursor) : (alt p q).read call c =
    match p.read call c with
    | .fail => q.read call c
    | other => other := rfl

theorem read_opt (p : Peg Rule Sem α) (c : Cursor) : (opt p).read call c =
    match p.read call c with
    | .fail => .ok none c
    | .exhausted => .exhausted
    | .ok a c' => .ok (some a) c' := rfl

theorem read_many (p : Peg Rule Sem α) (c : Cursor) : (many p).read call c = repeated (p.read call) c.rest.length c := rfl

theorem read_without (p : Peg Rule Sem α) (c : Cursor) : (without p).read call c =
    match p.read call c with
    | .fail => .ok () c
    | .exhausted => .exhausted
    | .ok _ _ => .fail := rfl

theorem read_node (build : Nat → Nat → α → β) (p : Peg Rule Sem α) (c : Cursor) : (node build p).read call c =
    match p.read call c with
    | .fail => .fail
    | .exhausted => .exhausted
    | .ok a c' => .ok (build c.offset c'.offset a) c' := rfl

theorem repeated_succ (item : Cursor → Outcome α) (bound : Nat) (c : Cursor) : repeated item (bound + 1) c =
    match item c with
    | .fail => .ok [] c
    | .exhausted => .exhausted
    | .ok a next =>
      if next.offset == c.offset then .ok [a] next
      else match repeated item bound next with
        | .ok as last => .ok (a :: as) last
        | .fail => .fail
        | .exhausted => .exhausted := rfl

/-! ## Successful readings -/

theorem read_lexeme_ok {l : Lexeme} {c c' : Cursor} {v : List Char} :
    (lexeme l : Peg Rule Sem _).read call c = .ok v c' ↔
      ∃ n, l.length? c.rest = some n ∧ v = c.rest.take n ∧ c' = c.advance n := by
  rw [read_lexeme]
  cases l.length? c.rest with
  | none => simp
  | some n => simp [eq_comm]

theorem read_lexeme_fail {l : Lexeme} {c : Cursor} :
    (lexeme l : Peg Rule Sem _).read call c = .fail ↔ l.length? c.rest = none := by
  rw [read_lexeme]
  cases l.length? c.rest <;> simp

theorem read_seq_ok {p : Peg Rule Sem α} {q : Peg Rule Sem β} {c c' : Cursor} {v : α × β} :
    (seq p q).read call c = .ok v c' ↔
      ∃ c₁, p.read call c = .ok v.1 c₁ ∧ q.read call c₁ = .ok v.2 c' := by
  rw [read_seq]
  cases p.read call c with
  | fail => simp
  | exhausted => simp
  | ok a c₁ =>
    cases hq : q.read call c₁ with
    | fail => simp [hq]
    | exhausted => simp [hq]
    | ok b c₂ =>
      obtain ⟨v₁, v₂⟩ := v
      simp only [hq, Outcome.ok.injEq, Prod.mk.injEq]
      constructor
      · rintro ⟨⟨rfl, rfl⟩, rfl⟩
        exact ⟨c₁, ⟨rfl, rfl⟩, hq⟩
      · rintro ⟨c₁', ⟨rfl, rfl⟩, h₂⟩
        rw [hq] at h₂
        cases h₂
        exact ⟨⟨rfl, rfl⟩, rfl⟩

theorem read_alt_ok {p q : Peg Rule Sem α} {c c' : Cursor} {v : α} :
    (alt p q).read call c = .ok v c' ↔
      p.read call c = .ok v c' ∨ p.read call c = .fail ∧ q.read call c = .ok v c' := by
  rw [read_alt]
  cases p.read call c <;> simp

theorem read_opt_ok {p : Peg Rule Sem α} {c c' : Cursor} {v : Option α} :
    (opt p).read call c = .ok v c' ↔
      (∃ a, v = some a ∧ p.read call c = .ok a c') ∨ v = none ∧ c' = c ∧ p.read call c = .fail := by
  rw [read_opt]
  cases p.read call c with
  | fail => simp [eq_comm]
  | exhausted => simp
  | ok a c₁ => cases v <;> simp [eq_comm]

theorem read_without_ok {p : Peg Rule Sem α} {c c' : Cursor} {v : Unit} :
    (without p).read call c = .ok v c' ↔ c' = c ∧ p.read call c = .fail := by
  rw [read_without]
  cases p.read call c <;> simp [eq_comm]

theorem read_node_ok {build : Nat → Nat → α → β} {p : Peg Rule Sem α} {c c' : Cursor} {v : β} :
    (node build p).read call c = .ok v c' ↔
      ∃ a, p.read call c = .ok a c' ∧ v = build c.offset c'.offset a := by
  rw [read_node]
  cases p.read call c with
  | fail => simp
  | exhausted => simp
  | ok a c₁ =>
    constructor
    · intro h
      cases h
      exact ⟨a, rfl, rfl⟩
    · rintro ⟨a', h, rfl⟩
      cases h
      rfl

theorem read_andThen_ok {p : Peg Rule Sem α} {q : Peg Rule Sem β} {c c' : Cursor} {v : β} :
    (p *> q).read call c = .ok v c' ↔ ∃ u c₁, p.read call c = .ok u c₁ ∧ q.read call c₁ = .ok v c' := by
  constructor
  · intro h
    obtain ⟨⟨u, _⟩, hboth, rfl⟩ := read_node_ok.1 h
    obtain ⟨c₁, h₁, h₂⟩ := read_seq_ok.1 hboth
    exact ⟨u, c₁, h₁, h₂⟩
  · rintro ⟨u, c₁, h₁, h₂⟩
    exact read_node_ok.2 ⟨(u, v), read_seq_ok.2 ⟨c₁, h₁, h₂⟩, rfl⟩

theorem read_andSkip_ok {p : Peg Rule Sem α} {q : Peg Rule Sem β} {c c' : Cursor} {v : α} :
    (p <* q).read call c = .ok v c' ↔ ∃ u c₁, p.read call c = .ok v c₁ ∧ q.read call c₁ = .ok u c' := by
  constructor
  · intro h
    obtain ⟨⟨_, u⟩, hboth, rfl⟩ := read_node_ok.1 h
    obtain ⟨c₁, h₁, h₂⟩ := read_seq_ok.1 hboth
    exact ⟨u, c₁, h₁, h₂⟩
  · rintro ⟨u, c₁, h₁, h₂⟩
    exact read_node_ok.2 ⟨(v, u), read_seq_ok.2 ⟨c₁, h₁, h₂⟩, rfl⟩

/-- What holds of no match, and of a match followed by matches, holds of a repetition. -/
theorem repeated_gives {item : Cursor → Outcome α} {Q : Cursor → α → Cursor → Prop}
    {R : Cursor → List α → Cursor → Prop} (hitem : ∀ c a c', item c = .ok a c' → Q c a c') (hnil : ∀ c, R c [] c)
    (hcons : ∀ c a c' as c'', Q c a c' → R c' as c'' → R c (a :: as) c'') :
    ∀ (bound : Nat) (c : Cursor) (v : List α) (c' : Cursor), repeated item bound c = .ok v c' → R c v c'
  | 0, c, v, c', h => by
    cases h
    exact hnil c
  | bound + 1, c, v, c', h => by
    rw [repeated_succ] at h
    cases hi : item c with
    | fail =>
      rw [hi] at h
      cases h
      exact hnil c
    | exhausted => rw [hi] at h; cases h
    | ok a next =>
      rw [hi] at h
      simp only at h
      split at h
      · cases h
        exact hcons _ _ _ _ _ (hitem c a _ hi) (hnil _)
      · cases hr : repeated item bound next with
        | fail => rw [hr] at h; cases h
        | exhausted => rw [hr] at h; cases h
        | ok as last =>
          rw [hr] at h
          cases h
          exact hcons _ _ _ _ _ (hitem c a next hi) (repeated_gives hitem hnil hcons bound next as _ hr)

/-! ## Readings that always match -/

/-- Whether an expression matches everywhere: it is made of blanks, choices and repetitions that may match nothing. -/
def infallible : {α : Type} → Peg Rule Sem α → Bool
  | _, lexeme l => l == .blanks
  | _, rule _ => false
  | _, seq first second => first.infallible && second.infallible
  | _, alt first second => first.infallible || second.infallible
  | _, opt _ => true
  | _, many _ => true
  | _, without _ => false
  | _, node _ item => item.infallible

theorem repeated_ne_fail {item : Cursor → Outcome α} : ∀ (bound : Nat) (c : Cursor), repeated item bound c ≠ .fail
  | 0, _ => nofun
  | bound + 1, c => by
    rw [repeated_succ]
    cases item c with
    | fail => simp
    | exhausted => simp
    | ok a next =>
      simp only
      split
      · simp
      · have hrest : repeated item bound next ≠ .fail := repeated_ne_fail bound next
        cases hr : repeated item bound next with
        | fail => exact absurd hr hrest
        | exhausted => simp
        | ok as last => simp

theorem read_ne_fail {α : Type} (p : Peg Rule Sem α) (hp : p.infallible = true) :
    ∀ c : Cursor, p.read call c ≠ .fail := by
  induction p with
  | lexeme l =>
    intro c
    rw [infallible, beq_iff_eq] at hp
    simp [hp, read_lexeme, Lexeme.length?]
  | rule r => cases hp
  | seq p q ihp ihq =>
    intro c
    simp only [infallible, Bool.and_eq_true] at hp
    rw [read_seq]
    cases h₁ : p.read call c with
    | fail => exact absurd h₁ (ihp hp.1 c)
    | exhausted => simp
    | ok a c₁ =>
      cases h₂ : q.read call c₁ with
      | fail => exact absurd h₂ (ihq hp.2 c₁)
      | exhausted => simp [h₂]
      | ok b c₂ => simp [h₂]
  | alt p q ihp ihq =>
    intro c
    simp only [infallible, Bool.or_eq_true] at hp
    rw [read_alt]
    cases h₁ : p.read call c with
    | fail =>
      rcases hp with hp | hq
      · exact absurd h₁ (ihp hp c)
      · exact ihq hq c
    | exhausted => simp
    | ok a c₁ => simp
  | opt p _ =>
    intro c
    rw [read_opt]
    cases p.read call c <;> simp
  | many p _ =>
    intro c
    rw [read_many]
    exact repeated_ne_fail _ c
  | without p _ => cases hp
  | node build p ih =>
    intro c
    rw [read_node]
    cases h₁ : p.read call c with
    | fail => exact absurd h₁ (ih hp c)
    | exhausted => simp
    | ok a c₁ => simp

/-! ## Readings move on -/

/-- A reading ends further on, when the rules do. -/
theorem read_ahead (hcall : ∀ r c v c', call r c = .ok v c' → c.Ahead c') {α : Type} (p : Peg Rule Sem α) :
    ∀ {c c' : Cursor} {v : α}, p.read call c = .ok v c' → c.Ahead c' := by
  induction p with
  | lexeme l =>
    intro c c' v h
    obtain ⟨n, -, -, rfl⟩ := read_lexeme_ok.1 h
    exact ⟨n, rfl⟩
  | rule r => exact fun h => hcall r _ _ _ h
  | seq p q ihp ihq =>
    intro c c' v h
    obtain ⟨c₁, h₁, h₂⟩ := read_seq_ok.1 h
    exact (ihp h₁).trans (ihq h₂)
  | alt p q ihp ihq =>
    intro c c' v h
    rcases read_alt_ok.1 h with h | ⟨-, h⟩
    · exact ihp h
    · exact ihq h
  | opt p ih =>
    intro c c' v h
    rcases read_opt_ok.1 h with ⟨a, -, h⟩ | ⟨-, rfl, -⟩
    · exact ih h
    · exact .refl _
  | many p ih =>
    intro c c' v h
    rw [read_many] at h
    exact repeated_gives (Q := fun c _ c' => c.Ahead c') (R := fun c _ c' => c.Ahead c') (fun c a c' => ih)
      Cursor.Ahead.refl (fun _ _ _ _ _ => Cursor.Ahead.trans) _ c v c' h
  | without p _ =>
    intro c c' v h
    obtain ⟨rfl, -⟩ := read_without_ok.1 h
    exact .refl _
  | node build p ih =>
    intro c c' v h
    obtain ⟨a, h, -⟩ := read_node_ok.1 h
    exact ih h

/-- What each rule's expression gives as soon as the rules it calls give it, every run gives. -/
theorem run_gives {grammar : (r : Rule) → Peg Rule Sem (Sem r)} {Q : (r : Rule) → Cursor → Sem r → Cursor → Prop}
    (hstep : ∀ call, (∀ r c v c', call r c = .ok v c' → Q r c v c') →
      ∀ r c v c', (grammar r).read call c = .ok v c' → Q r c v c') :
    ∀ (fuel : Nat) (r : Rule) (c : Cursor) (v : Sem r) (c' : Cursor), run grammar fuel r c = .ok v c' → Q r c v c'
  | 0, _, _, _, _, h => by cases h
  | fuel + 1, r, c, v, c', h => hstep _ (run_gives hstep fuel) r c v c' h

/-- A run ends further on. -/
theorem run_ahead {grammar : (r : Rule) → Peg Rule Sem (Sem r)} (fuel : Nat) (r : Rule) (c : Cursor) (v : Sem r)
    (c' : Cursor) (h : run grammar fuel r c = .ok v c') : c.Ahead c' :=
  run_gives (Q := fun _ c _ c' => c.Ahead c') (fun _ hcall r _ _ _ => read_ahead hcall (grammar r)) fuel r c v c' h

end Peg

end ElmLint
