import ElmLint.Grammar.Module
import ElmLint.Proofs.PegFuel

/-!
# The grammar has fuel enough

Every rule of the grammar reads a character (`rules_productive`), and before it has read one it calls at most one other rule
(`heads_rules`), along a chain of at most four. So `fuelFor` gives enough for every phrase on every text
(`readText_ne_exhausted`), and a text always begins with the items of a module (`exists_readText_topLevel`).
-/

namespace ElmLint.Grammar

/-- The rule that another one calls before it has read a character. -/
def Rule.leading : Rule → Option Rule
  | typeExpr => some typeAtom
  | pattern => some consPattern
  | consPattern => some patternAtom
  | expr => some operand
  | operand => some postfixAtom
  | postfixAtom => some atom
  | arm | letItem => some pattern
  | typeAtom | patternAtom | atom | setter => none

/-- How many rules can call each other, one by one, before the first character is read. -/
def Rule.rank : Rule → Nat
  | typeAtom | patternAtom | atom | setter => 0
  | typeExpr | consPattern | postfixAtom => 1
  | pattern | operand => 2
  | expr | arm | letItem => 3

theorem rules_productive (locate : Locate) : Peg.Productive (rules locate) := by
  intro r
  cases r <;> rfl

theorem heads_rules (locate : Locate) (r : Rule) : (rules locate r).heads = r.leading.toList := by
  cases r <;> rfl

theorem rules_ranked (locate : Locate) : Peg.Ranked (rules locate) Rule.rank 12 where
  lt_bound r := by cases r <;> decide
  heads_lt r := by
    rw [heads_rules]
    cases r <;> decide

/-- No phrase stops for want of fuel. -/
theorem readText_ne_exhausted (locate : Locate) {α : Type} (phrase : Phrase α) (text : List Char) :
    readText locate phrase text ≠ .exhausted := by
  have hrun : ∀ (r : Rule) (c : Cursor), c.rest.length ≤ text.length →
      Peg.run (rules locate) (fuelFor text) r c ≠ .exhausted := by
    intro r c hc
    apply Peg.run_ne_exhausted (rules_productive locate) (rules_ranked locate)
    have hrank := (rules_ranked locate).lt_bound r
    unfold fuelFor
    omega
  exact Peg.read_ne_exhausted (Peg.run_progressive (rules_productive locate) _) phrase (Nat.le_refl _)
    (fun r c hc => hrun r c (Nat.le_of_lt hc)) fun r _ c hc => hrun r c hc

/-- Every text begins with the items of a module, if only with none. -/
theorem exists_readText_topLevel (locate : Locate) (text : List Char) :
    ∃ items next, readText locate (topLevel locate) text = .ok items next := by
  have hfuel := readText_ne_exhausted locate (topLevel locate) text
  have hmatch : readText locate (topLevel locate) text ≠ .fail := Peg.read_ne_fail (topLevel locate) rfl _
  cases h : readText locate (topLevel locate) text with
  | fail => exact absurd h hmatch
  | exhausted => exact absurd h hfuel
  | ok items next => exact ⟨items, next, rfl⟩

end ElmLint.Grammar
