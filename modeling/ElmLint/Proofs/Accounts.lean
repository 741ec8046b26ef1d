import ElmLint.Grammar.Module
import ElmLint.Proofs.Peg
import ElmLint.Proofs.Solid
import ElmLint.Proofs.Weights

/-!
# Accounts

A relation `P c w c'` accounts for a text from the place `c` to the place `c'` with the weight `w`; accounts of one text and of
the next one add up (`Additive`). `Grammar.Accounts` says that what a phrase gives has a weight that accounts for the text that
the phrase reads. There is one rule for each kind of expression, so that a phrase of the grammar is followed the way it is
written. A phrase of words that no weight counts accounts for its text with nothing (`Accounts.mute`).
-/

namespace ElmLint.Grammar

variable {M : Type} {P : Cursor → M → Cursor → Prop}

/-- What a phrase gives has a weight that accounts for the text that it reads. -/
def Accounts {α : Type} (P : Cursor → M → Cursor → Prop) (call : (r : Rule) → Cursor → Outcome r.Sem) (p : Phrase α)
    (weight : α → M) : Prop :=
  ∀ c v c', p.read call c = .ok v c' → P c (weight v) c'

variable {call : (r : Rule) → Cursor → Outcome r.Sem} {α β : Type} {p : Phrase α} {q : Phrase β} {f : α → M} {g : β → M}

/-! ## One rule for each kind of expression -/

theorem Accounts.alt {p' : Phrase α} (hp : Accounts P call p f) (hp' : Accounts P call p' f) :
    Accounts P call (.alt p p') f := by
  intro c v c' h
  rcases Peg.read_alt_ok.1 h with h | ⟨-, h⟩
  · exact hp c v c' h
  · exact hp' c v c' h

theorem Accounts.orElse {p' : Phrase α} (hp : Accounts P call p f) (hp' : Accounts P call p' f) :
    Accounts P call (p <|> p') f := hp.alt hp'

/-- Building a node keeps the weight, when the node counts no more than its parts. -/
theorem Accounts.node {build : Nat → Nat → α → β} (hp : Accounts P call p f) (hg : ∀ i j a, g (build i j a) = f a) :
    Accounts P call (.node build p) g := by
  intro c v c' h
  obtain ⟨a, ha, rfl⟩ := Peg.read_node_ok.1 h
  rw [hg]
  exact hp c a c' ha

theorem Accounts.map {build : α → β} (hp : Accounts P call p f) (hg : ∀ a, g (build a) = f a) :
    Accounts P call (.map build p) g := hp.node fun _ _ => hg

theorem Accounts.congr {f' : α → M} (hp : Accounts P call p f) (hf : ∀ a, f' a = f a) : Accounts P call p f' := by
  intro c v c' h
  rw [hf]
  exact hp c v c' h

/-- Nothing accounts for no text, and accounts of one text and of the next one add up. -/
structure Additive [AddMonoid M] (P : Cursor → M → Cursor → Prop) : Prop where
  refl : ∀ c, P c 0 c
  trans : ∀ {c m c' m' c''}, P c m c' → P c' m' c'' → P c (m + m') c''

section Sequences

variable [AddMonoid M] (hP : Additive P)

include hP

theorem Accounts.opt (hp : Accounts P call p f) : Accounts P call (.opt p) fun v => (v.toList.map f).sum := by
  intro c v c' h
  rcases Peg.read_opt_ok.1 h with ⟨a, rfl, ha⟩ | ⟨rfl, rfl, -⟩
  · simpa using hp c a c' ha
  · exact hP.refl c'

theorem Accounts.seq (hp : Accounts P call p f) (hq : Accounts P call q g) :
    Accounts P call (.seq p q) fun v => f v.1 + g v.2 := by
  intro c v c' h
  obtain ⟨c₁, h₁, h₂⟩ := Peg.read_seq_ok.1 h
  exact hP.trans (hp c v.1 c₁ h₁) (hq c₁ v.2 c' h₂)

theorem Accounts.many (hp : Accounts P call p f) : Accounts P call (.many p) fun v => (v.map f).sum := by
  intro c v c' h
  rw [Peg.read_many] at h
  refine Peg.repeated_gives (Q := fun c a c' => P c (f a) c') (R := fun c as c' => P c (as.map f).sum c') hp hP.refl ?_ _
    c v c' h
  intro c a c₁ as c₂ ha has
  rw [List.map_cons, List.sum_cons]
  exact hP.trans ha has

theorem Accounts.without : Accounts P call (.without p) fun _ => 0 := by
  intro c v c' h
  obtain ⟨rfl, -⟩ := Peg.read_without_ok.1 h
  exact hP.refl c'

theorem Accounts.andThen (hp : Accounts P call p f) (hq : Accounts P call q g) {h : β → M} {m : M} (hf : ∀ a, f a = m)
    (hh : ∀ b, h b = m + g b) : Accounts P call (p *> q) h :=
  (hp.seq hP hq).map fun v => by rw [hh, hf]

theorem Accounts.andSkip (hp : Accounts P call p f) (hq : Accounts P call q g) {h : α → M} {m : M} (hg : ∀ b, g b = m)
    (hh : ∀ a, h a = f a + m) : Accounts P call (p <* q) h :=
  (hp.seq hP hq).map fun v => by rw [hh, hg]

/-- What is read first and counts nothing takes no weight away. -/
theorem Accounts.after (hp : Accounts P call p fun _ => 0) (hq : Accounts P call q g) : Accounts P call (p *> q) g :=
  hp.andThen hP hq (fun _ => rfl) fun _ => (zero_add _).symm

/-- What is read last and counts nothing takes no weight away. -/
theorem Accounts.before (hp : Accounts P call p f) (hq : Accounts P call q fun _ => 0) : Accounts P call (p <* q) f :=
  hp.andSkip hP hq (fun _ => rfl) fun _ => (add_zero _).symm

theorem Accounts.separated (hq : Accounts P call q fun _ => 0) (hp : Accounts P call p f) :
    Accounts P call (separated q p) fun v => (v.map f).sum :=
  (hp.seq hP ((hq.after hP hp).many hP)).map fun _ => List.sum_cons

theorem Accounts.atLeastOne (hp : Accounts P call p f) : Accounts P call (.atLeastOne p) fun v => (v.map f).sum :=
  (hp.seq hP (hp.many hP)).map fun _ => List.sum_cons

end Sequences

end ElmLint.Grammar

/-! ## Words that no weight counts -/

namespace ElmLint

/-- Whether the words of a class are blanks, literals, or words of solid characters: they hold no marker, unless a literal does, and
do not run on to the next brace. -/
def Lexeme.isPlain : Lexeme → Bool
  | .blanks | .someBlanks | .string | .char => true
  | l => l.isWord

end ElmLint

namespace ElmLint.Grammar

variable {M : Type} [AddCommMonoid M] {P : Cursor → M → Cursor → Prop} {call : (r : Rule) → Cursor → Outcome r.Sem}

/-- The rules of types, which no weight counts. -/
def Rule.isType : Rule → Bool
  | typeExpr | typeAtom => true
  | _ => false

/-- Whether a phrase reads nothing but plain words and types. -/
def mute : {α : Type} → Phrase α → Bool
  | _, .lexeme l => l.isPlain
  | _, .rule r => r.isType
  | _, .seq first second => mute first && mute second
  | _, .alt first second => mute first && mute second
  | _, .opt item => mute item
  | _, .many item => mute item
  | _, .without _ => true
  | _, .node _ item => mute item

/-- A phrase of plain words and types accounts for its text with nothing, when each plain word and each type does. -/
theorem Accounts.mute (hP : Additive P)
    (hlexeme : ∀ l : Lexeme, l.isPlain = true → ∀ c n, l.length? c.rest = some n → P c 0 (c.advance n))
    (hrule : ∀ r : Rule, r.isType = true → Accounts P call (rule r) fun _ => 0) {α : Type} (p : Phrase α)
    (hp : mute p = true) : Accounts P call p fun _ => 0 := by
  induction p with
  | lexeme l =>
    intro c v c' h
    obtain ⟨n, hn, -, rfl⟩ := Peg.read_lexeme_ok.1 h
    exact hlexeme l hp c n hn
  | rule r => exact hrule r hp
  | seq p q ihp ihq =>
    simp only [Grammar.mute, Bool.and_eq_true] at hp
    exact ((ihp hp.1).seq hP (ihq hp.2)).congr fun _ => (add_zero _).symm
  | alt p q ihp ihq =>
    simp only [Grammar.mute, Bool.and_eq_true] at hp
    exact (ihp hp.1).alt (ihq hp.2)
  | opt p ih => exact ((ih hp).opt hP).congr fun v => by cases v <;> simp
  | many p ih => exact ((ih hp).many hP).congr fun v => by simp
  | without p _ => exact .without hP
  | node build p ih => exact (ih hp).node fun _ _ _ => rfl

end ElmLint.Grammar
