import ElmLint.Proofs.Lexeme
import ElmLint.Proofs.Peg

/-!
# Grammars whose runs never stop for want of fuel

A run needs fuel for rules that call each other without reading anything in between. `heads p` lists the rules that `p` can
call before it has read a character. When no rule matches the empty text (`Productive`) and every rule in the heads of
another has a smaller rank (`Ranked`), a run of rule `r` at a place with `n` characters left needs no more fuel than
`bound * n + rank r + 1` (`run_ne_exhausted`).

What a reading gives does not depend on the fuel, unless that runs out (`read_stable`). So where a repetition has ended, what it
repeats does not match, however much fuel there is (`read_ne_ok_after_many`).
-/

namespace ElmLint

namespace Peg

variable {Rule : Type} {Sem : Rule → Type}

/-- Whether an expression may match the empty text, if no rule does. -/
def nullable : {α : Type} → Peg Rule Sem α → Bool
  | _, lexeme l => l.isNullable
  | _, rule _ => false
  | _, seq first second => first.nullable && second.nullable
  | _, alt first second => first.nullable || second.nullable
  | _, opt _ => true
  | _, many _ => true
  | _, without _ => true
  | _, node _ item => item.nullable

/-- The rules that an expression can call before it has read a character. -/
def heads : {α : Type} → Peg Rule Sem α → List Rule
  | _, lexeme _ => []
  | _, rule r => [r]
  | _, seq first second => first.heads ++ if first.nullable then second.heads else []
  | _, alt first second => first.heads ++ second.heads
  | _, opt item => item.heads
  | _, many item => item.heads
  | _, without item => item.heads
  | _, node _ item => item.heads

/-- No rule of the grammar matches the empty text. -/
def Productive (grammar : (r : Rule) → Peg Rule Sem (Sem r)) : Prop := ∀ r, (grammar r).nullable = false

/-- Without reading a character, a rule calls only rules of smaller rank; ranks lie below the bound. -/
structure Ranked (grammar : (r : Rule) → Peg Rule Sem (Sem r)) (rank : Rule → Nat) (bound : Nat) : Prop where
  lt_bound : ∀ r, rank r < bound
  heads_lt : ∀ r, ∀ h ∈ (grammar r).heads, rank h < rank r

/-! ## Progress -/

section Progress

variable {call : (r : Rule) → Cursor → Outcome (Sem r)}

/-- Rules that move on and always read a character. -/
def Progressive (call : (r : Rule) → Cursor → Outcome (Sem r)) : Prop :=
  ∀ r c v c', call r c = .ok v c' → c.Ahead c' ∧ c'.rest.length < c.rest.length

theorem Progressive.ahead (hcall : Progressive call) : ∀ r c v c', call r c = .ok v c' → c.Ahead c' :=
  fun r c v c' h => (hcall r c v c' h).1

/-- An expression that does not match the empty text reads a character, when rules do. -/
theorem length_lt_of_read (hcall : Progressive call) {α : Type} (p : Peg Rule Sem α) (hp : p.nullable = false) :
    ∀ {c c' : Cursor} {v : α}, p.read call c = .ok v c' → c'.rest.length < c.rest.length := by
  induction p with
  | lexeme l =>
    intro c c' v h
    obtain ⟨n, hn, -, rfl⟩ := read_lexeme_ok.1 h
    obtain ⟨hpos, hle⟩ := Lexeme.length?_pos hp _ _ hn
    simp only [Cursor.advance, List.length_drop]
    omega
  | rule r => exact fun h => (hcall r _ _ _ h).2
  | seq p q ihp ihq =>
    intro c c' v h
    obtain ⟨c₁, h₁, h₂⟩ := read_seq_ok.1 h
    have le₁ := (read_ahead hcall.ahead p h₁).length_le
    have le₂ := (read_ahead hcall.ahead q h₂).length_le
    simp only [nullable, Bool.and_eq_false_iff] at hp
    rcases hp with hp | hq
    · have := ihp hp h₁
      omega
    · have := ihq hq h₂
      omega
  | alt p q ihp ihq =>
    intro c c' v h
    simp only [nullable, Bool.or_eq_false_iff] at hp
    rcases read_alt_ok.1 h with h | ⟨-, h⟩
    · exact ihp hp.1 h
    · exact ihq hp.2 h
  | opt p _ => cases hp
  | many p _ => cases hp
  | without p _ => cases hp
  | node build p ih =>
    intro c c' v h
    obtain ⟨a, h, -⟩ := read_node_ok.1 h
    exact ih hp h

/-- The runs of a grammar without empty matches read a character. -/
theorem run_progressive {grammar : (r : Rule) → Peg Rule Sem (Sem r)} (hg : Productive grammar) (fuel : Nat) :
    Progressive (run grammar fuel) :=
  run_gives (Q := fun _ c _ c' => c.Ahead c' ∧ c'.rest.length < c.rest.length)
    (fun _ hcall r _ _ _ h =>
      ⟨read_ahead (fun r c v c' h => (hcall r c v c' h).1) (grammar r) h, length_lt_of_read hcall (grammar r) (hg r) h⟩)
    fuel

/-! ## Fuel -/

/-- A repetition stops for want of fuel only if its item does, somewhere on the way. -/
theorem repeated_ne_exhausted {α : Type} {item : Cursor → Outcome α} {n : Nat}
    (hahead : ∀ c a c', item c = .ok a c' → c.Ahead c') (hitem : ∀ c, c.rest.length ≤ n → item c ≠ .exhausted) :
    ∀ (bound : Nat) (c : Cursor), c.rest.length ≤ n → repeated item bound c ≠ .exhausted
  | 0, _, _ => nofun
  | bound + 1, c, hc => by
    rw [repeated_succ]
    cases hi : item c with
    | fail => simp
    | exhausted => exact absurd hi (hitem c hc)
    | ok a next =>
      have hnext : next.rest.length ≤ n := Nat.le_trans (hahead c a next hi).length_le hc
      simp only
      split
      · simp
      · have hrest := repeated_ne_exhausted hahead hitem bound next hnext
        cases hr : repeated item bound next with
        | fail => simp
        | exhausted => exact absurd hr hrest
        | ok as last => simp

/-- A reading at a place with at most `n` characters left has fuel enough, when the rules have it wherever less is left, and
those in the heads of the expression where `n` are left. -/
theorem read_ne_exhausted (hcall : Progressive call) {α : Type} (p : Peg Rule Sem α) :
    ∀ {n : Nat} {c : Cursor}, c.rest.length ≤ n → (∀ r c, c.rest.length < n → call r c ≠ .exhausted) →
      (∀ r ∈ p.heads, ∀ c, c.rest.length ≤ n → call r c ≠ .exhausted) → p.read call c ≠ .exhausted := by
  induction p with
  | lexeme l =>
    intro n c _ _ _
    rw [read_lexeme]
    split <;> simp
  | rule r => exact fun hc _ hheads => hheads r (by simp [heads]) _ hc
  | seq p q ihp ihq =>
    intro n c hc hless hheads
    have hp := ihp hc hless fun r hr => hheads r (by simp [heads, hr])
    rw [read_seq]
    cases h₁ : p.read call c with
    | fail => simp
    | exhausted => exact absurd h₁ hp
    | ok a c₁ =>
      have hq : q.read call c₁ ≠ .exhausted := by
        cases hnull : p.nullable with
        | true =>
          exact ihq (Nat.le_trans (read_ahead hcall.ahead p h₁).length_le hc) hless
            fun r hr => hheads r (by simp [heads, hnull, hr])
        | false =>
          -- a character was read, so every rule has fuel enough from here on
          have hlt := length_lt_of_read hcall p hnull h₁
          exact ihq (Nat.le_refl _) (fun r c' hc' => hless r c' (by omega)) fun r _ c' hc' => hless r c' (by omega)
      cases h₂ : q.read call c₁ with
      | fail => simp [h₂]
      | exhausted => exact absurd h₂ hq
      | ok b c₂ => simp [h₂]
  | alt p q ihp ihq =>
    intro n c hc hless hheads
    have hp := ihp hc hless fun r hr => hheads r (by simp [heads, hr])
    have hq := ihq hc hless fun r hr => hheads r (by simp [heads, hr])
    rw [read_alt]
    cases h₁ : p.read call c with
    | fail => exact hq
    | exhausted => exact absurd h₁ hp
    | ok a c₁ => simp
  | opt p ih =>
    intro n c hc hless hheads
    have hp := ih hc hless hheads
    rw [read_opt]
    cases h₁ : p.read call c with
    | fail => simp
    | exhausted => exact absurd h₁ hp
    | ok a c₁ => simp
  | many p ih =>
    intro n c hc hless hheads
    rw [read_many]
    exact repeated_ne_exhausted (fun c a c' h => read_ahead hcall.ahead p h) (fun c hc => ih hc hless hheads) _ c hc
  | without p ih =>
    intro n c hc hless hheads
    have hp := ih hc hless hheads
    rw [read_without]
    cases h₁ : p.read call c with
    | fail => simp
    | exhausted => exact absurd h₁ hp
    | ok a c₁ => simp
  | node build p ih =>
    intro n c hc hless hheads
    have hp := ih hc hless hheads
    rw [read_node]
    cases h₁ : p.read call c with
    | fail => simp
    | exhausted => exact absurd h₁ hp
    | ok a c₁ => simp

end Progress

/-- **Fuel.** A run of a productive and ranked grammar with `bound * n + rank r + 1` fuel, where `n` characters are left, does
not stop for want of it. -/
theorem run_ne_exhausted {grammar : (r : Rule) → Peg Rule Sem (Sem r)} {rank : Rule → Nat} {bound : Nat}
    (hg : Productive grammar) (hr : Ranked grammar rank bound) :
    ∀ (fuel : Nat) (r : Rule) (c : Cursor), bound * c.rest.length + rank r < fuel → run grammar fuel r c ≠ .exhausted
  | 0, _, _, h => by omega
  | fuel + 1, r, c, h => by
    rw [run]
    refine read_ne_exhausted (run_progressive hg fuel) (grammar r) (Nat.le_refl _) (fun r' c' hc' => ?_)
      fun r' hr' c' hc' => ?_
    · apply run_ne_exhausted hg hr fuel
      have hlt := hr.lt_bound r'
      have hmul : bound * (c'.rest.length + 1) ≤ bound * c.rest.length := Nat.mul_le_mul_left _ hc'
      rw [Nat.mul_add] at hmul
      omega
    · apply run_ne_exhausted hg hr fuel
      have hlt := hr.heads_lt r r' hr'
      have hmul : bound * c'.rest.length ≤ bound * c.rest.length := Nat.mul_le_mul_left _ hc'
      omega

/-! ## Other amounts of fuel -/

section Stability

variable {call call' : (r : Rule) → Cursor → Outcome (Sem r)}

/-- The second way to run the rules ends like the first one, wherever that does not stop for want of fuel. -/
def Extends (call call' : (r : Rule) → Cursor → Outcome (Sem r)) : Prop :=
  ∀ r c, call r c ≠ .exhausted → call' r c = call r c

theorem repeated_stable {α : Type} {item item' : Cursor → Outcome α} (hitem : ∀ c, item c ≠ .exhausted → item' c = item c) :
    ∀ (bound : Nat) (c : Cursor), repeated item bound c ≠ .exhausted → repeated item' bound c = repeated item bound c
  | 0, _, _ => rfl
  | bound + 1, c, h => by
    rw [repeated_succ] at h
    rw [repeated_succ, repeated_succ]
    cases hi : item c with
    | exhausted =>
      rw [hi] at h
      exact absurd rfl h
    | fail =>
      have hi' := hitem c (by simp [hi])
      rw [hi', hi]
    | ok a next =>
      have hi' := hitem c (by simp [hi])
      rw [hi] at h
      rw [hi', hi]
      simp only at h ⊢
      split at h
      · next hstays => rw [if_pos hstays, if_pos hstays]
      · next hmoves =>
        have hrest : repeated item bound next ≠ .exhausted := by
          intro hr
          rw [hr] at h
          exact h rfl
        rw [if_neg hmoves, if_neg hmoves, repeated_stable hitem bound next hrest]

/-- A reading that does not stop for want of fuel ends the same way when there is more of it. -/
theorem read_stable (hcall : Extends call call') {α : Type} (p : Peg Rule Sem α) :
    ∀ c, p.read call c ≠ .exhausted → p.read call' c = p.read call c := by
  induction p with
  | lexeme l => exact fun _ _ => rfl
  | rule r => exact hcall r
  | seq p q ihp ihq =>
    intro c h
    rw [read_seq] at h
    rw [read_seq, read_seq]
    cases h₁ : p.read call c with
    | exhausted =>
      rw [h₁] at h
      exact absurd rfl h
    | fail => rw [ihp c (by simp [h₁]), h₁]
    | ok a c₁ =>
      rw [h₁] at h
      rw [ihp c (by simp [h₁]), h₁]
      have hq : q.read call c₁ ≠ .exhausted := by
        intro h₂
        simp [h₂] at h
      simp only [ihq c₁ hq]
  | alt p q ihp ihq =>
    intro c h
    rw [read_alt] at h
    rw [read_alt, read_alt]
    cases h₁ : p.read call c with
    | exhausted =>
      rw [h₁] at h
      exact absurd rfl h
    | fail =>
      rw [h₁] at h
      rw [ihp c (by simp [h₁]), h₁]
      exact ihq c h
    | ok a c₁ => rw [ihp c (by simp [h₁]), h₁]
  | opt p ih =>
    intro c h
    have hp : p.read call c ≠ .exhausted := by
      intro h₁
      simp [read_opt, h₁] at h
    rw [read_opt, read_opt, ih c hp]
  | many p ih => exact fun c h => repeated_stable ih c.rest.length c h
  | without p ih =>
    intro c h
    have hp : p.read call c ≠ .exhausted := by
      intro h₁
      simp [read_without, h₁] at h
    rw [read_without, read_without, ih c hp]
  | node build p ih =>
    intro c h
    have hp : p.read call c ≠ .exhausted := by
      intro h₁
      simp [read_node, h₁] at h
    rw [read_node, read_node, ih c hp]

theorem run_extends {grammar : (r : Rule) → Peg Rule Sem (Sem r)} :
    ∀ {fuel fuel' : Nat}, fuel ≤ fuel' → Extends (run grammar fuel) (run grammar fuel')
  | 0, _, _ => fun _ _ h => absurd rfl h
  | _ + 1, _ + 1, hle => fun r c h => read_stable (run_extends (Nat.le_of_succ_le_succ hle)) (grammar r) c h

/-- Where an expression fails with some fuel, it matches with none. -/
theorem read_ne_ok_of_fail {grammar : (r : Rule) → Peg Rule Sem (Sem r)} {α : Type} {p : Peg Rule Sem α} {fuel : Nat}
    {c : Cursor} (h : p.read (run grammar fuel) c = .fail) (fuel' : Nat) (v : α) (c' : Cursor) :
    p.read (run grammar fuel') c ≠ .ok v c' := by
  intro h'
  have hmore : p.read (run grammar (max fuel fuel')) c = .fail :=
    (read_stable (run_extends (Nat.le_max_left fuel fuel')) p c (by simp [h])).trans h
  have hmore' : p.read (run grammar (max fuel fuel')) c = .ok v c' :=
    (read_stable (run_extends (Nat.le_max_right fuel fuel')) p c (by simp [h'])).trans h'
  rw [hmore] at hmore'
  cases hmore'

/-- A repetition of what reads a character goes on until that fails or nothing is left. -/
theorem repeated_ends {α : Type} {item : Cursor → Outcome α}
    (hitem : ∀ c v c', item c = .ok v c' → c.Ahead c' ∧ c'.rest.length < c.rest.length) :
    ∀ (bound : Nat) (c : Cursor) (vs : List α) (c' : Cursor), c.rest.length ≤ bound →
      repeated item bound c = .ok vs c' → item c' = .fail ∨ c'.rest = []
  | 0, c, vs, c', hbound, h => by
    cases h
    exact .inr (List.length_eq_zero_iff.1 (Nat.le_zero.1 hbound))
  | bound + 1, c, vs, c', hbound, h => by
    rw [repeated_succ] at h
    cases hi : item c with
    | exhausted =>
      rw [hi] at h
      cases h
    | fail =>
      rw [hi] at h
      cases h
      exact .inl hi
    | ok a next =>
      obtain ⟨⟨n, hn⟩, hlt⟩ := hitem c a next hi
      have hmoves : ¬ (next.offset == c.offset) = true := by
        intro hstays
        obtain rfl : n = 0 := by simpa [hn, Cursor.advance] using hstays
        simp [hn, Cursor.advance] at hlt
      rw [hi] at h
      simp only [if_neg hmoves] at h
      cases hr : repeated item bound next with
      | exhausted =>
        rw [hr] at h
        cases h
      | fail =>
        rw [hr] at h
        cases h
      | ok as last =>
        rw [hr] at h
        cases h
        exact repeated_ends hitem bound next as c' (by omega) hr

/-- **Greed.** Where a repetition has ended, what it repeats does not match, with whatever fuel. -/
theorem read_ne_ok_after_many {grammar : (r : Rule) → Peg Rule Sem (Sem r)} (hg : Productive grammar) {α : Type}
    {p : Peg Rule Sem α} (hp : p.nullable = false) {fuel : Nat} {c c' : Cursor} {vs : List α}
    (h : (many p).read (run grammar fuel) c = .ok vs c') (fuel' : Nat) (v : α) (c'' : Cursor) :
    p.read (run grammar fuel') c' ≠ .ok v c'' := by
  have hcall := run_progressive hg fuel
  rw [read_many] at h
  rcases repeated_ends (fun c v c' h => ⟨read_ahead hcall.ahead p h, length_lt_of_read hcall p hp h⟩) _ c vs c' (Nat.le_refl _) h
    with hfail | hend
  · exact read_ne_ok_of_fail hfail fuel' v c''
  · intro h'
    have hlt := length_lt_of_read (run_progressive hg fuel') p hp h'
    rw [hend] at hlt
    cases hlt

end Stability

end Peg

end ElmLint
