import ElmLint.Cursor
import ElmLint.Lexeme

/-!
# Parsing expressions with typed results

`Peg Rule Sem α` is a parsing expression whose matches give values of type `α`; `Rule` names the rules it may refer to,
and a match of rule `r` gives a value of type `Sem r`. Only expressions whose parts fit together can be written.

* `Peg.read` runs an expression at a place of a text, given how rules are run. Choice is ordered, repetition is
  greedy, and neither is ever reconsidered.
* `Peg.run` ties the knot for a grammar, one expression for each rule; `fuel` bounds how deeply rules call each other. A
  run that stops for want of fuel is told apart from one that finds no match.
-/

namespace ElmLint

/-- How a run ends: with a value and the place after the match, without a match, or for want of fuel. -/
inductive Outcome (α : Type) where
  | ok (value : α) (next : Cursor)
  | fail
  | exhausted
deriving Repr, DecidableEq, Inhabited

/-- Parsing expressions. -/
inductive Peg (Rule : Type) (Sem : Rule → Type) : Type → Type 1 where
  /-- A word of a class; the value is its text. -/
  | lexeme (l : Lexeme) : Peg Rule Sem (List Char)
  /-- A match of a rule. -/
  | rule (r : Rule) : Peg Rule Sem (Sem r)
  /-- One match after another. -/
  | seq {α β : Type} (first : Peg Rule Sem α) (second : Peg Rule Sem β) : Peg Rule Sem (α × β)
  /-- The first of two expressions that matches. -/
  | alt {α : Type} (first second : Peg Rule Sem α) : Peg Rule Sem α
  /-- A match, if there is one. -/
  | opt {α : Type} (item : Peg Rule Sem α) : Peg Rule Sem (Option α)
  /-- As many matches as there are, one after another. -/
  | many {α : Type} (item : Peg Rule Sem α) : Peg Rule Sem (List α)
  /-- The place before which `item` does not match; no text belongs to it. -/
  | without {α : Type} (item : Peg Rule Sem α) : Peg Rule Sem Unit
  /-- The value of a match, made from the offsets of its start and stop. -/
  | node {α β : Type} (build : Nat → Nat → α → β) (item : Peg Rule Sem α) : Peg Rule Sem β

namespace Peg

variable {Rule : Type} {Sem : Rule → Type} {α β : Type}

/-- Matches of `item` one after another, at most `bound` of them. A match of no text ends the repetition. -/
def repeated (item : Cursor → Outcome α) : Nat → Cursor → Outcome (List α)
  | 0, c => .ok [] c
  | bound + 1, c =>
    match item c with
    | .fail => .ok [] c
    | .exhausted => .exhausted
    | .ok a next =>
      if next.offset == c.offset then .ok [a] next
      else match repeated item bound next with
        | .ok as last => .ok (a :: as) last
        | .fail => .fail
        | .exhausted => .exhausted

/-- Read an expression at a place, when `call` runs the rules. -/
def read (call : (r : Rule) → Cursor → Outcome (Sem r)) : {α : Type} → Peg Rule Sem α → Cursor → Outcome α
  | _, .lexeme l, c =>
    match l.length? c.rest with
    | some n => .ok (c.rest.take n) (c.advance n)
    | none => .fail
  | _, .rule r, c => call r c
  | _, .seq first second, c =>
    match first.read call c with
    | .fail => .fail
    | .exhausted => .exhausted
    | .ok a c' =>
      match second.read call c' with
      | .fail => .fail
      | .exhausted => .exhausted
      | .ok b c'' => .ok (a, b) c''
  | _, .alt first second, c =>
    match first.read call c with
    | .fail => second.read call c
    | other => other
  | _, .opt item, c =>
    match item.read call c with
    | .fail => .ok none c
    | .exhausted => .exhausted
    | .ok a c' => .ok (some a) c'
  | _, .many item, c => repeated (item.read call) c.rest.length c
  | _, .without item, c =>
    match item.read call c with
    | .fail => .ok () c
    | .exhausted => .exhausted
    | .ok _ _ => .fail
  | _, .node build item, c =>
    match item.read call c with
    | .fail => .fail
    | .exhausted => .exhausted
    | .ok a c' => .ok (build c.offset c'.offset a) c'

/-- Run a rule of a grammar at a place; rules call each other at most `fuel` deep. -/
def run (grammar : (r : Rule) → Peg Rule Sem (Sem r)) : Nat → (r : Rule) → Cursor → Outcome (Sem r)
  | 0, _, _ => .exhausted
  | fuel + 1, r, c => (grammar r).read (run grammar fuel) c

/-! ## Derived expressions -/

/-- The value of a match, changed by a function. -/
def map (f : α → β) (item : Peg Rule Sem α) : Peg Rule Sem β := .node (fun _ _ a => f a) item

/-- Two matches of which the second gives the value. -/
def andThen (first : Peg Rule Sem α) (second : Peg Rule Sem β) : Peg Rule Sem β := .map Prod.snd (.seq first second)

/-- Two matches of which the first gives the value. -/
def andSkip (first : Peg Rule Sem α) (second : Peg Rule Sem β) : Peg Rule Sem α := .map Prod.fst (.seq first second)

/-- One match or more. -/
def atLeastOne (item : Peg Rule Sem α) : Peg Rule Sem (List α) := .map (fun (a, as) => a :: as) (.seq item (.many item))

instance : SeqRight (Peg Rule Sem) := ⟨fun first second => .andThen first (second ())⟩

instance : SeqLeft (Peg Rule Sem) := ⟨fun first second => .andSkip first (second ())⟩

instance : OrElse (Peg Rule Sem α) := ⟨fun first second => .alt first (second ())⟩

end Peg

end ElmLint
