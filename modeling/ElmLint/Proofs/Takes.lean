import ElmLint.Proofs.FirstCharacter
import ElmLint.Proofs.GrammarFuel

/-!
# What a phrase reads

`Takes P p R Q` says that the phrase `p`, read where `P` holds of the text that is left, gives a value with `R` and leaves a text with
`Q`. `Misses P p` says that `p` does not match there. A reading that stops for want of fuel counts for both. There are rules for each
kind of expression, so that a phrase of the grammar is followed the way it is written.

Whether a phrase can match is often told by the next character (`misses_of_begins`).
-/

namespace ElmLint

namespace Grammar

variable (locate : Locate) {α β γ δ : Type}

/-- Read where `P` holds of what is left, the phrase gives a value with `R` and leaves something with `Q`. -/
def Takes (P : List Char → Prop) (p : Phrase α) (R : α → Prop) (Q : List Char → Prop) : Prop :=
  ∀ fuel c, P c.rest → p.read (Peg.run (rules locate) fuel) c = .exhausted ∨
    ∃ v c', p.read (Peg.run (rules locate) fuel) c = .ok v c' ∧ R v ∧ Q c'.rest

/-- Read where `P` holds of what is left, the phrase does not match. -/
def Misses (P : List Char → Prop) (p : Phrase α) : Prop :=
  ∀ fuel c, P c.rest → p.read (Peg.run (rules locate) fuel) c = .exhausted ∨
    p.read (Peg.run (rules locate) fuel) c = .fail

variable {locate} {P P' Q Q' U : List Char → Prop} {p : Phrase α} {q : Phrase β} {R : α → Prop} {S : β → Prop}

/-! ## Conditions -/

theorem Takes.mono (h : Takes locate P p R Q) {R' : α → Prop} (hP : ∀ cs, P' cs → P cs) (hR : ∀ v, R v → R' v)
    (hQ : ∀ cs, Q cs → Q' cs) : Takes locate P' p R' Q' := by
  intro fuel c hc
  rcases h fuel c (hP _ hc) with hread | ⟨v, c', hread, hv, hc'⟩
  · exact .inl hread
  · exact .inr ⟨v, c', hread, hR v hv, hQ _ hc'⟩

theorem Takes.imp {R' : α → Prop} (h : Takes locate P p R Q) (hR : ∀ v, R v → R' v) : Takes locate P p R' Q :=
  h.mono (fun _ => id) hR fun _ => id

theorem Takes.leaves (h : Takes locate P p R Q) (hQ : ∀ cs, Q cs → Q' cs) : Takes locate P p R Q' :=
  h.mono (fun _ => id) (fun _ => id) hQ

theorem Takes.of (h : Takes locate P p R Q) (hP : ∀ cs, P' cs → P cs) : Takes locate P' p R Q :=
  h.mono hP (fun _ => id) fun _ => id

theorem Misses.of (h : Misses locate P p) (hP : ∀ cs, P' cs → P cs) : Misses locate P' p :=
  fun fuel c hc => h fuel c (hP _ hc)

/-- A condition that says nothing about the text. -/
theorem Takes.of_pure {A B : Prop} (h : A → B ∧ Takes locate P p R Q) :
    Takes locate (fun cs => A ∧ P cs) p R (fun cs => B ∧ Q cs) := by
  intro fuel c ⟨ha, hc⟩
  rcases (h ha).2 fuel c hc with hread | ⟨v, c', hread, hv, hc'⟩
  · exact .inl hread
  · exact .inr ⟨v, c', hread, hv, (h ha).1, hc'⟩

/-! ## Words and rules -/

theorem takes_lexeme {l : Lexeme} {R : List Char → Prop}
    (h : ∀ cs, P cs → ∃ n, l.length? cs = some n ∧ R (cs.take n) ∧ Q (cs.drop n)) : Takes locate P (.lexeme l) R Q := by
  intro fuel c hc
  obtain ⟨n, hn, hR, hQ⟩ := h c.rest hc
  exact .inr ⟨_, _, Peg.read_lexeme_ok.2 ⟨n, hn, rfl, rfl⟩, hR, hQ⟩

theorem misses_lexeme {l : Lexeme} (h : ∀ cs, P cs → l.length? cs = none) : Misses locate P (.lexeme l) := by
  intro fuel c hc
  rw [Peg.read_lexeme, h c.rest hc]
  exact .inr rfl

/-- A rule takes what its expression takes. -/
theorem takes_rule {r : Rule} {R : r.Sem → Prop} (h : Takes locate P (rules locate r) R Q) : Takes locate P (rule r) R Q := by
  intro fuel c hc
  cases fuel with
  | zero => exact .inl rfl
  | succ fuel => exact h fuel c hc

/-- The expression of a rule takes what the rule takes. -/
theorem takes_of_rule {r : Rule} {R : r.Sem → Prop} (h : Takes locate P (rule r) R Q) : Takes locate P (rules locate r) R Q :=
  fun fuel c hc => h (fuel + 1) c hc

theorem misses_rule {r : Rule} (h : Misses locate P (rules locate r)) : Misses locate P (rule r) := by
  intro fuel c hc
  cases fuel with
  | zero => exact .inl rfl
  | succ fuel => exact h fuel c hc

/-- A phrase that matches no empty text leaves less than there was. -/
theorem length_lt_of_read {fuel : Nat} {c c' : Cursor} {v : α} (hp : p.nullable = false)
    (h : p.read (Peg.run (rules locate) fuel) c = .ok v c') : c'.rest.length < c.rest.length :=
  Peg.length_lt_of_read (Peg.run_progressive (rules_productive locate) fuel) p hp h

/-- A phrase that reads something does not match before a character that it cannot begin with, or at the end. -/
theorem misses_of_begins (hp : p.nullable = false) (h : ∀ cs, P cs → ∀ d ∈ cs.head?, p.begins d = false) :
    Misses locate P p := by
  intro fuel c hc
  cases hread : p.read (Peg.run (rules locate) fuel) c with
  | exhausted => exact .inl rfl
  | fail => exact .inr rfl
  | ok v c' =>
    cases hrest : c.rest with
    | nil =>
      have hlt := length_lt_of_read hp hread
      rw [hrest] at hlt
      exact absurd hlt (Nat.not_lt_zero _)
    | cons d ds =>
      have hnot : p.begins d = false := h _ hc d (by rw [hrest]; rfl)
      rcases p.begins_of_read hrest hread with hbegins | ⟨hnull, -⟩
      · rw [hnot] at hbegins
        cases hbegins
      · rw [hp] at hnull
        cases hnull

/-! ## Sequences -/

theorem Takes.seq (hp : Takes locate P p R Q) (hq : Takes locate Q q S U) :
    Takes locate P (.seq p q) (fun v => R v.1 ∧ S v.2) U := by
  intro fuel c hc
  rcases hp fuel c hc with hread | ⟨a, c₁, hread, hR, hQ⟩
  · exact .inl (by rw [Peg.read_seq, hread])
  · rcases hq fuel c₁ hQ with hread' | ⟨b, c₂, hread', hS, hU⟩
    · exact .inl (by simp only [Peg.read_seq, hread, hread'])
    · exact .inr ⟨(a, b), c₂, Peg.read_seq_ok.2 ⟨c₁, hread, hread'⟩, ⟨hR, hS⟩, hU⟩

theorem Misses.seq (hp : Misses locate P p) : Misses locate P (.seq p q) := by
  intro fuel c hc
  rcases hp fuel c hc with hread | hread
  · exact .inl (by rw [Peg.read_seq, hread])
  · exact .inr (by rw [Peg.read_seq, hread])

theorem Takes.seq_misses (hp : Takes locate P p R Q) (hq : Misses locate Q q) : Misses locate P (.seq p q) := by
  intro fuel c hc
  rcases hp fuel c hc with hread | ⟨a, c₁, hread, -, hQ⟩
  · exact .inl (by rw [Peg.read_seq, hread])
  · rcases hq fuel c₁ hQ with hread' | hread'
    · exact .inl (by simp only [Peg.read_seq, hread, hread'])
    · exact .inr (by simp only [Peg.read_seq, hread, hread'])

/-! ## Values -/

theorem Takes.node {build : Nat → Nat → α → β} (h : Takes locate P p R Q) (hS : ∀ i j v, R v → S (build i j v)) :
    Takes locate P (.node build p) S Q := by
  intro fuel c hc
  rcases h fuel c hc with hread | ⟨v, c', hread, hR, hQ⟩
  · exact .inl (by rw [Peg.read_node, hread])
  · exact .inr ⟨_, c', Peg.read_node_ok.2 ⟨v, hread, rfl⟩, hS _ _ _ hR, hQ⟩

theorem Misses.node {build : Nat → Nat → α → β} (h : Misses locate P p) : Misses locate P (.node build p) := by
  intro fuel c hc
  rcases h fuel c hc with hread | hread
  · exact .inl (by rw [Peg.read_node, hread])
  · exact .inr (by rw [Peg.read_node, hread])

theorem Takes.map {f : α → β} (h : Takes locate P p R Q) (hS : ∀ v, R v → S (f v)) : Takes locate P (.map f p) S Q :=
  h.node fun _ _ => hS

theorem Misses.map {f : α → β} (h : Misses locate P p) : Misses locate P (.map f p) := h.node

theorem Takes.andThen (hp : Takes locate P p R Q) (hq : Takes locate Q q S U) : Takes locate P (p *> q) S U :=
  (hp.seq hq).map fun _ h => h.2

theorem Takes.andSkip (hp : Takes locate P p R Q) (hq : Takes locate Q q S U) : Takes locate P (p <* q) R U :=
  (hp.seq hq).map fun _ h => h.1

theorem Misses.andThen (hp : Misses locate P p) : Misses locate P (p *> q) := hp.seq.map

theorem Misses.andSkip (hp : Misses locate P p) : Misses locate P (p <* q) := hp.seq.map

theorem Takes.andThen_misses (hp : Takes locate P p R Q) (hq : Misses locate Q q) : Misses locate P (p *> q) :=
  (hp.seq_misses hq).map

/-! ## Choices -/

section Choices

variable {p' : Phrase α}

theorem Takes.orElse (h : Takes locate P p R Q) : Takes locate P (p <|> p') R Q := by
  intro fuel c hc
  rcases h fuel c hc with hread | ⟨v, c', hread, hv⟩
  · exact .inl ((Peg.read_alt p p' c).trans (by rw [hread]))
  · exact .inr ⟨v, c', Peg.read_alt_ok.2 (.inl hread), hv⟩

theorem Misses.orElse (hp : Misses locate P p) (hp' : Takes locate P p' R Q) : Takes locate P (p <|> p') R Q := by
  intro fuel c hc
  rcases hp fuel c hc with hread | hread
  · exact .inl ((Peg.read_alt p p' c).trans (by rw [hread]))
  · rcases hp' fuel c hc with hread' | ⟨v, c', hread', hv⟩
    · exact .inl ((Peg.read_alt p p' c).trans (by rw [hread, hread']))
    · exact .inr ⟨v, c', Peg.read_alt_ok.2 (.inr ⟨hread, hread'⟩), hv⟩

theorem Misses.orElse_misses (hp : Misses locate P p) (hp' : Misses locate P p') : Misses locate P (p <|> p') := by
  intro fuel c hc
  rcases hp fuel c hc with hread | hread
  · exact .inl ((Peg.read_alt p p' c).trans (by rw [hread]))
  · exact (hp' fuel c hc).imp (fun hread' => (Peg.read_alt p p' c).trans (by rw [hread, hread']))
      fun hread' => (Peg.read_alt p p' c).trans (by rw [hread, hread'])

end Choices

theorem Takes.opt (h : Takes locate P p R Q) : Takes locate P (.opt p) (fun v => ∃ a, v = some a ∧ R a) Q := by
  intro fuel c hc
  rcases h fuel c hc with hread | ⟨v, c', hread, hR, hQ⟩
  · exact .inl (by rw [Peg.read_opt, hread])
  · exact .inr ⟨some v, c', Peg.read_opt_ok.2 (.inl ⟨v, rfl, hread⟩), ⟨v, rfl, hR⟩, hQ⟩

theorem Misses.opt (h : Misses locate P p) : Takes locate P (.opt p) (· = none) P := by
  intro fuel c hc
  rcases h fuel c hc with hread | hread
  · exact .inl (by rw [Peg.read_opt, hread])
  · exact .inr ⟨none, c, Peg.read_opt_ok.2 (.inr ⟨rfl, rfl, hread⟩), rfl, hc⟩

theorem Misses.without (h : Misses locate P p) : Takes locate P (.without p) (fun _ => True) P := by
  intro fuel c hc
  rcases h fuel c hc with hread | hread
  · exact .inl (by rw [Peg.read_without, hread])
  · exact .inr ⟨(), c, Peg.read_without_ok.2 ⟨rfl, hread⟩, trivial, hc⟩

theorem Takes.without (h : Takes locate P p R Q) : Misses locate P (.without p) := by
  intro fuel c hc
  rcases h fuel c hc with hread | ⟨v, c', hread, -⟩
  · exact .inl (by rw [Peg.read_without, hread])
  · exact .inr (by rw [Peg.read_without, hread])

/-! ## Repetitions -/

/-- A repetition takes what stands for a list of things, when its item takes what stands for each of them and does not match at
the end. `P xs` holds of a text in which the things `xs` are left. -/
theorem takes_many {P : List γ → List Char → Prop} {f : α → β} {g : γ → β} (hp : p.nullable = false) {xs : List γ}
    (hitem : ∀ x ∈ xs, ∀ later, Takes locate (P (x :: later)) p (fun v => f v = g x) (P later))
    (hne : ∀ x ∈ xs, ∀ later, ¬ P (x :: later) []) (hend : Misses locate (P []) p) :
    Takes locate (P xs) (.many p) (fun vs => vs.map f = xs.map g) (P []) := by
  have hrepeated : ∀ (ys : List γ), (∀ y ∈ ys, y ∈ xs) → ∀ (fuel bound : Nat) (c : Cursor), c.rest.length ≤ bound → P ys c.rest →
      Peg.repeated (p.read (Peg.run (rules locate) fuel)) bound c = .exhausted ∨
        ∃ vs c', Peg.repeated (p.read (Peg.run (rules locate) fuel)) bound c = .ok vs c' ∧
          vs.map f = ys.map g ∧ P [] c'.rest := by
    intro ys
    induction ys with
    | nil =>
      intro _ fuel bound c _ hc
      cases bound with
      | zero => exact .inr ⟨[], c, rfl, rfl, hc⟩
      | succ bound =>
        rcases hend fuel c hc with hread | hread
        · exact .inl (by rw [Peg.repeated_succ, hread])
        · exact .inr ⟨[], c, by rw [Peg.repeated_succ, hread], rfl, hc⟩
    | cons y ys ih =>
      intro hys fuel bound c hbound hc
      have hy := hys y List.mem_cons_self
      cases bound with
      | zero =>
        rw [List.eq_nil_of_length_eq_zero (Nat.le_zero.1 hbound)] at hc
        exact absurd hc (hne y hy ys)
      | succ bound =>
        rcases hitem y hy ys fuel c hc with hread | ⟨v, next, hread, hv, hnext⟩
        · exact .inl (by rw [Peg.repeated_succ, hread])
        · have hlt := length_lt_of_read hp hread
          have hmoved : (next.offset == c.offset) = false := by
            obtain ⟨n, rfl⟩ := Peg.read_ahead (Peg.run_ahead fuel) p hread
            rw [beq_eq_false_iff_ne]
            intro hsame
            have hzero : n = 0 := Nat.add_left_cancel (n := c.offset) hsame
            rw [hzero] at hlt
            exact Nat.lt_irrefl _ hlt
          rcases ih (fun z hz => hys z (List.mem_cons_of_mem y hz)) fuel bound next (by omega) hnext with
            hrest | ⟨vs, last, hrest, hvs, hlast⟩
          · exact .inl (by simp [Peg.repeated_succ, hread, hmoved, hrest])
          · exact .inr ⟨v :: vs, last, by simp [Peg.repeated_succ, hread, hmoved, hrest],
              by rw [List.map_cons, List.map_cons, hv, hvs], hlast⟩
  intro fuel c hc
  rw [Peg.read_many]
  exact hrepeated xs (fun _ => id) fuel _ c (Nat.le_refl _) hc

/-- Items with separators between them. `F x xs` holds of a text that begins with an item, and `M xs` of one in which the
things `xs` are left, each after a separator. -/
theorem takes_separated {F : γ → List γ → List Char → Prop} {M : List γ → List Char → Prop} {f : α → δ} {g : γ → δ}
    {sep : Phrase β} {item : Phrase α} (hitem : item.nullable = false) {x : γ} {xs : List γ}
    (hfirst : ∀ y ∈ x :: xs, ∀ later, Takes locate (F y later) item (fun v => f v = g y) (M later))
    (hsep : ∀ y ∈ xs, ∀ later, Takes locate (M (y :: later)) sep (fun _ => True) (F y later))
    (hne : ∀ y ∈ xs, ∀ later, ¬ M (y :: later) []) (hend : Misses locate (M []) sep) :
    Takes locate (F x xs) (separated sep item) (fun vs => vs.map f = (x :: xs).map g) (M []) := by
  have hmany : Takes locate (M xs) (.many (sep *> item)) (fun vs => vs.map f = xs.map g) (M []) := by
    refine takes_many ?_ (fun y hy later => (hsep y hy later).andThen (hfirst y (List.mem_cons_of_mem x hy) later)) hne hend.andThen
    show (sep.nullable && item.nullable) = false
    rw [hitem, Bool.and_false]
  refine ((hfirst x List.mem_cons_self xs).seq hmany).map fun v hv => ?_
  rw [List.map_cons, List.map_cons, hv.1, hv.2]

theorem Misses.many (h : Misses locate P p) : Takes locate P (.many p) (· = []) P := by
  intro fuel c hc
  rw [Peg.read_many]
  cases c.rest.length with
  | zero => exact .inr ⟨[], c, rfl, rfl, hc⟩
  | succ bound =>
    rcases h fuel c hc with hread | hread
    · exact .inl (by rw [Peg.repeated_succ, hread])
    · exact .inr ⟨[], c, by rw [Peg.repeated_succ, hread], rfl, hc⟩

end Grammar

end ElmLint
