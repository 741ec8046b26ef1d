import ElmLint.Proofs.Solid
import ElmLint.Proofs.Takes

/-!
# Texts made of words and markers

A sign is a word or a marker. `Flush signs text` says that a text begins with the first of some signs and goes on with the others,
with any blanks between them; after a word there is a blank or a marker, or nothing. `Indented` lets blanks stand before the first sign as
well, and `After` is what is left when a word has been read. The phrases that the grammar is made of take words and markers of such
texts: `takes_lexeme_of_reads` reads a word, `takes_gap` the blanks before the next sign, and a phrase that cannot begin like the next
sign does not match (`misses_flush`).
-/

namespace ElmLint

/-- A marker or a word. -/
abbrev Sign := Marker ⊕ List Char

/-- The text begins with the first sign and goes on with the others, with blanks between them. -/
inductive Flush : List Sign → List Char → Prop
  | nil : Flush [] []
  | marker {m : Marker} {signs : List Sign} {cs : List Char} : Flush signs (cs.dropWhile isBlank) →
      Flush (.inl m :: signs) (m.char :: cs)
  | word {c : Char} {w : List Char} {signs : List Sign} {cs : List Char} : LaidOut.isFiller c = false →
      (∀ d ∈ cs.head?, LaidOut.isFiller d = true) → Flush signs (cs.dropWhile isBlank) →
      Flush (.inr (c :: w) :: signs) (c :: w ++ cs)

/-- The text has the signs, with blanks before and between them. -/
def Indented (signs : List Sign) (cs : List Char) : Prop := Flush signs (cs.dropWhile isBlank)

theorem not_indented_nil {sign : Sign} {signs : List Sign} : ¬ Indented (sign :: signs) [] := fun h => by cases h

/-- What is left after a word: no other character of a word comes next. -/
def After (signs : List Sign) (cs : List Char) : Prop := (∀ c ∈ cs.head?, LaidOut.isFiller c = true) ∧ Indented signs cs

theorem After.indented {signs : List Sign} {cs : List Char} (h : After signs cs) : Indented signs cs := h.2

/-- The first character of the first sign. -/
def firstChar? : List Sign → Option Char
  | [] => none
  | .inl m :: _ => some m.char
  | .inr w :: _ => w.head?

namespace Flush

variable {signs : List Sign} {cs : List Char}

theorem head? (h : Flush signs cs) : cs.head? = firstChar? signs := by cases h <;> rfl

theorem eq_nil (h : Flush [] cs) : cs = [] := by
  cases h
  rfl

/-- No blank stands before the first sign. -/
theorem dropWhile_eq (h : Flush signs cs) : cs.dropWhile isBlank = cs := by
  cases h with
  | nil => rfl
  | marker h =>
    rename_i m _ _
    cases m <;> rfl
  | word hc _ _ =>
    rw [LaidOut.isFiller, Bool.or_eq_false_iff] at hc
    rw [List.cons_append, List.dropWhile_cons_of_neg (by rw [hc.1]; exact Bool.false_ne_true)]

theorem indented (h : Flush signs cs) : Indented signs cs := by rwa [Indented, h.dropWhile_eq]

/-- A text whose first sign is a word begins with the word. -/
theorem exists_word {w : List Char} (h : Flush (.inr w :: signs) cs) :
    ∃ rest, cs = w ++ rest ∧ After signs rest := by
  cases h with
  | word hc hrest h => exact ⟨_, rfl, hrest, h⟩

end Flush

/-! ## Reading words -/

/-- A word that the class reads to its end, whatever comes after it. -/
def Lexeme.ReadsWord (l : Lexeme) (w : List Char) : Prop :=
  ∀ rest : List Char, (∀ c ∈ rest.head?, LaidOut.isFiller c = true) → l.length? (w ++ rest) = some w.length

/-- A word that does not begin with one of the class, whatever comes after it. -/
def Lexeme.MissesWord (l : Lexeme) (w : List Char) : Prop :=
  ∀ rest : List Char, (∀ c ∈ rest.head?, LaidOut.isFiller c = true) → l.length? (w ++ rest) = none

/-- A word begins like the words of its class. -/
theorem Lexeme.ReadsWord.begins {l : Lexeme} {w : List Char} (h : l.ReadsWord w) : ∀ c ∈ w.head?, l.begins c = true := by
  intro c hc
  obtain ⟨cs, rfl⟩ := List.head?_eq_some_iff.1 hc
  have hlength := h [] (fun _ hd => nomatch hd)
  rw [List.append_nil] at hlength
  exact Lexeme.begins_of_length? (Nat.succ_ne_zero _) hlength

/-- What comes after a word is not solid. -/
theorem takeWhile_isSolid_append {w rest : List Char} (hw : w.all isSolid = true)
    (hrest : ∀ c ∈ rest.head?, LaidOut.isFiller c = true) : (w ++ rest).takeWhile isSolid = w := by
  have hstop : rest.takeWhile isSolid = [] := by
    cases rest with
    | nil => rfl
    | cons c cs => exact List.takeWhile_cons_of_neg (by simp [isSolid, hrest c rfl])
  rw [List.takeWhile_append_of_pos (List.all_eq_true.1 hw), hstop, List.append_nil]

/-- A word of solid characters is read as if it stood alone. -/
theorem Lexeme.length?_append {l : Lexeme} (hl : l.isSolidClass = true) {w rest : List Char} (hw : w.all isSolid = true)
    (hrest : ∀ c ∈ rest.head?, LaidOut.isFiller c = true) : l.length? (w ++ rest) = l.length? w := by
  rw [← Lexeme.contained hl, takeWhile_isSolid_append hw hrest]

theorem Lexeme.readsWord_of_solid {l : Lexeme} {w : List Char} (hw : w.all isSolid = true) (hl : l.isSolidClass = true)
    (h : l.length? w = some w.length) : l.ReadsWord w :=
  fun _ hrest => (Lexeme.length?_append hl hw hrest).trans h

theorem Lexeme.missesWord_of_solid {l : Lexeme} {w : List Char} (hw : w.all isSolid = true) (hl : l.isSolidClass = true)
    (h : l.length? w = none) : l.MissesWord w :=
  fun _ hrest => (Lexeme.length?_append hl hw hrest).trans h

namespace Grammar

variable {locate : Locate} {α : Type} {signs : List Sign} {w : List Char}

theorem takes_lexeme_of_reads {l : Lexeme} (h : l.ReadsWord w) :
    Takes locate (Flush (.inr w :: signs)) (.lexeme l) (· = w) (After signs) := by
  refine takes_lexeme fun cs hcs => ?_
  obtain ⟨rest, rfl, hrest⟩ := hcs.exists_word
  exact ⟨w.length, h rest hrest.1, List.take_left, by rwa [List.drop_left]⟩

theorem misses_lexeme_of_misses {l : Lexeme} (h : l.MissesWord w) : Misses locate (Flush (.inr w :: signs)) (.lexeme l) := by
  refine misses_lexeme fun cs hcs => ?_
  obtain ⟨rest, rfl, hrest⟩ := hcs.exists_word
  exact h rest hrest.1

/-- A phrase that reads something does not match before a sign that it cannot begin like. -/
theorem misses_flush {p : Phrase α} (hp : p.nullable = false) (h : ∀ c ∈ firstChar? signs, p.begins c = false) :
    Misses locate (Flush signs) p :=
  misses_of_begins hp fun _ hcs => hcs.head? ▸ h

theorem misses_at {p : Phrase α} {c : Char} (hp : p.nullable = false) (h : p.begins c = false) :
    Misses locate (Flush (.inr (c :: w) :: signs)) p :=
  misses_flush hp fun _ hd => Option.some.inj hd ▸ h

/-! ## Blanks and markers -/

theorem takes_gap : Takes locate (Indented signs) gap (fun _ => True) (Flush signs) := by
  refine takes_lexeme fun cs hcs => ⟨_, rfl, trivial, ?_⟩
  rw [drop_runLength]
  exact hcs

theorem takes_marker (m : Marker) : Takes locate (Flush (.inl m :: signs)) (marker m) (fun _ => True) (Indented signs) := by
  refine takes_lexeme fun cs hcs => ?_
  cases hcs with
  | marker h => exact ⟨1, by simp [Lexeme.length?, exactLength?], trivial, h⟩

/-- Where there is a blank, the blanks before the next sign are read. -/
theorem takes_someBlanks :
    Takes locate (fun cs => runLength isBlank cs ≠ 0 ∧ Indented signs cs) space (fun _ => True) (Flush signs) := by
  refine takes_lexeme fun cs ⟨hne, hindented⟩ => ⟨runLength isBlank cs, ?_, trivial, by rwa [drop_runLength]⟩
  simp [Lexeme.length?, someRun?, hne]

/-- Between two words there is a blank. -/
theorem takes_space : Takes locate (After (.inr w :: signs)) space (fun _ => True) (Flush (.inr w :: signs)) := by
  refine takes_someBlanks.of fun cs ⟨hfiller, hindented⟩ => ⟨fun hzero => ?_, hindented⟩
  have hsame : cs.dropWhile isBlank = cs := by rw [← drop_runLength, hzero, List.drop_zero]
  rw [Indented, hsame] at hindented
  cases hindented with
  | word hc _ _ =>
    have := hfiller _ rfl
    rw [hc] at this
    cases this

/-- A phrase that does not match at the next sign does not match after a space. -/
theorem misses_space {q : Phrase α} (h : Misses locate (Flush signs) q) : Misses locate (Indented signs) (space *> q) := by
  intro fuel c hc
  by_cases hzero : runLength isBlank c.rest = 0
  · have hnone : Misses locate (fun cs => runLength isBlank cs = 0) space :=
      misses_lexeme fun cs hcs => by simp [Lexeme.length?, someRun?, hcs]
    exact hnone.andThen fuel c hzero
  · exact (takes_someBlanks.andThen_misses h) fuel c ⟨hzero, hc⟩

/-! ## Symbols -/

section Symbols

variable (text : String)

theorem Lexeme.reads_exact (h : text.toList.all isSolid = true) : (Lexeme.exact text).ReadsWord text.toList :=
  Lexeme.readsWord_of_solid h h (by simp [Lexeme.length?, exactLength?])

theorem Lexeme.reads_word (h : text.toList.all isSolid = true) : (Lexeme.word text).ReadsWord text.toList :=
  Lexeme.readsWord_of_solid h h (by simp [Lexeme.length?, wordLength?])

theorem takes_symbol (h : text.toList.all isSolid = true) :
    Takes locate (Flush (.inr text.toList :: signs)) (symbol text) (fun _ => True) (After signs) :=
  (takes_lexeme_of_reads (Lexeme.reads_exact text h)).imp fun _ _ => trivial

theorem takes_word (h : text.toList.all isSolid = true) :
    Takes locate (Flush (.inr text.toList :: signs)) (word text) (fun _ => True) (After signs) :=
  (takes_lexeme_of_reads (Lexeme.reads_word text h)).imp fun _ _ => trivial

/-- A symbol with blanks around it. -/
theorem takes_spaced (h : text.toList.all isSolid = true) :
    Takes locate (Indented (.inr text.toList :: signs)) (spaced text) (fun _ => True) (Flush signs) :=
  (takes_gap.andThen (takes_symbol text h)).andSkip (takes_gap.of fun _ => After.indented)

theorem misses_spaced {text : String} (h : Misses locate (Flush signs) (symbol text)) : Misses locate (Indented signs) (spaced text) :=
  (takes_gap.andThen_misses h).andSkip

/-- A word with something after it. -/
theorem takes_word_gap {p : Phrase α} {R : α → Prop} {Q : List Char → Prop} (h : text.toList.all isSolid = true)
    (hp : Takes locate (Flush signs) p R Q) : Takes locate (Flush (.inr text.toList :: signs)) (word text *> gap *> p) R Q :=
  ((takes_word text h).andThen (takes_gap.of fun _ => After.indented)).andThen hp

theorem takes_gap_word_gap {p : Phrase α} {R : α → Prop} {Q : List Char → Prop} (h : text.toList.all isSolid = true)
    (hp : Takes locate (Flush signs) p R Q) : Takes locate (Indented (.inr text.toList :: signs)) (gap *> word text *> gap *> p) R Q :=
  ((takes_gap.andThen (takes_word text h)).andThen (takes_gap.of fun _ => After.indented)).andThen hp

/-- Something between brackets. -/
theorem takes_between (left right : String) {item : Phrase α} {inner : List Sign} {R : α → Prop}
    (hleft : left.toList.all isSolid = true) (hright : right.toList.all isSolid = true)
    (hitem : Takes locate (Flush inner) item R (Indented (.inr right.toList :: signs))) :
    Takes locate (Flush (.inr left.toList :: inner)) (between left item right) R (After signs) :=
  ((((takes_symbol left hleft).andThen (takes_gap.of fun _ => After.indented)).andThen hitem).andSkip takes_gap).andSkip
    (takes_symbol right hright)

end Symbols

/-! ## Items between brackets -/

/-- One of some words comes next, or nothing. -/
def EndsAt (ends : List (List Char)) (signs : List Sign) : Prop := ∀ sign ∈ signs.head?, ∃ word ∈ ends, sign = .inr word

theorem EndsAt.mono {ends ends' : List (List Char)} (h : EndsAt ends signs) (hsub : ends ⊆ ends') : EndsAt ends' signs := by
  intro sign hsign
  obtain ⟨word, hword, rfl⟩ := h sign hsign
  exact ⟨word, hsub hword, rfl⟩

/-- A phrase that begins like none of some words does not match when one of them comes next, or nothing. -/
theorem EndsAt.misses {p : Phrase α} {ends : List (List Char)} (hends : EndsAt ends signs) (hp : p.nullable = false)
    (h : (ends.all fun word => word.head?.all fun c => !p.begins c) = true) : Misses locate (Flush signs) p := by
  refine misses_flush hp fun c hc => ?_
  cases signs with
  | nil => cases hc
  | cons sign rest =>
    obtain ⟨word, hword, rfl⟩ := hends sign rfl
    have hall := List.all_eq_true.1 h word hword
    rw [show word.head? = some c from hc] at hall
    simpa using hall

/-- Items with commas between them and a closing bracket after them. Each item is read when a comma or the bracket comes next. -/
theorem takes_commaList {β γ : Type} {item : Phrase α} (itemSigns : γ → List Sign) (hitem : item.nullable = false) {f : α → β}
    {g : γ → β} {close : List Char} (hclose : close ∈ [[')'], [']'], ['}']]) {x : γ} {xs : List γ}
    (hread : ∀ y ∈ x :: xs, ∀ later, EndsAt [[','], close] later →
      Takes locate (Flush (itemSigns y ++ later)) item (fun v => f v = g y) (Indented later)) :
    Takes locate (Flush (itemSigns x ++ (xs.flatMap (fun y => .inr [','] :: itemSigns y) ++ .inr close :: signs))) (commaList item)
      (fun vs => vs.map f = (x :: xs).map g) (Indented (.inr close :: signs)) := by
  have hlater : ∀ later : List γ, EndsAt [[','], close] (later.flatMap (fun y => .inr [','] :: itemSigns y) ++ .inr close :: signs) := by
    intro later sign hsign
    cases later with
    | nil => exact ⟨close, by simp, (Option.some.inj hsign).symm⟩
    | cons y later => exact ⟨[','], by simp, (Option.some.inj hsign).symm⟩
  have hcomma : ∀ y ∈ xs, ∀ later : List γ,
      Takes locate (Indented ((y :: later).flatMap (fun y => .inr [','] :: itemSigns y) ++ .inr close :: signs)) (spaced ",")
        (fun _ => True) (Flush (itemSigns y ++ (later.flatMap (fun y => .inr [','] :: itemSigns y) ++ .inr close :: signs))) := by
    intro y _ later
    rw [List.flatMap_cons, List.append_assoc]
    exact takes_spaced "," (by decide)
  have hend : Misses locate (Indented (.inr close :: signs)) (spaced ",") := by
    refine misses_spaced ?_
    simp only [List.mem_cons, List.not_mem_nil, or_false] at hclose
    rcases hclose with rfl | rfl | rfl <;> exact misses_at rfl rfl
  exact takes_separated
    (F := fun y later => Flush (itemSigns y ++ (later.flatMap (fun y => .inr [','] :: itemSigns y) ++ .inr close :: signs)))
    (M := fun later => Indented (later.flatMap (fun y => .inr [','] :: itemSigns y) ++ .inr close :: signs)) hitem
    (fun y hy later => hread y hy _ (hlater later)) hcomma (fun _ _ _ => not_indented_nil) hend

end Grammar

end ElmLint
