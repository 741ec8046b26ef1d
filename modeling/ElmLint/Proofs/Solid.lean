import ElmLint.Layout
import ElmLint.Proofs.Lexeme
import Mathlib.Data.List.TakeWhile

/-!
# Words of solid characters

A character is solid when it is no blank, no marker and no quote. Most classes of words have solid characters only, and tell
their words by the solid characters at the start of a text, whatever comes after them (`Contained`). So it is with all lexemes but
blanks, markers, strings, characters and the text before a brace (`Lexeme.contained`), and with the tokens of a source other than
literals (`contained_pieceClasses`).
-/

namespace ElmLint

/-- A character that is no blank, no marker and no quote. -/
def isSolid (c : Char) : Bool := !LaidOut.isFiller c && c != '"' && c != '\''

/-- A class without any of the characters that are not solid has solid characters only. -/
theorem isSolid_of {p : Char → Bool}
    (h : ([' ', '\t', '\r', '\n', '\x0e', '\x1e', '\x0f', '"', '\''].all fun c => !p c) = true) {c : Char} (hc : p c = true) :
    isSolid c = true := by
  by_contra hnot
  have hmem : c ∈ [' ', '\t', '\r', '\n', '\x0e', '\x1e', '\x0f', '"', '\''] := by
    simp only [isSolid, LaidOut.isFiller, isBlank, isMarker, Marker.char, Bool.and_eq_true, Bool.not_eq_true', Bool.or_eq_false_iff,
      beq_eq_false_iff_ne, bne_iff_ne] at hnot
    simp only [List.mem_cons, List.not_mem_nil, or_false]
    grind
  have hnone := List.all_eq_true.1 h c hmem
  rw [hc] at hnone
  cases hnone

theorem isSolid_of_isNameChar {c : Char} (h : isNameChar c = true) : isSolid c = true := isSolid_of (by decide) h

theorem isMarker_of_isBlank {c : Char} (h : isBlank c = true) : isMarker c = false := by
  simp only [isBlank, Bool.or_eq_true, beq_iff_eq] at h
  obtain ((rfl | rfl) | rfl) | rfl := h <;> rfl

/-- A length that is told by the solid characters at the start of a text. -/
def Contained (length? : List Char → Option Nat) : Prop := ∀ cs, length? (cs.takeWhile isSolid) = length? cs

/-! ## Combinations -/

section TakeWhile

variable {p : Char → Bool} (hp : ∀ c, p c = true → isSolid c = true)

include hp

theorem takeWhile_takeWhile_isSolid (cs : List Char) : (cs.takeWhile isSolid).takeWhile p = cs.takeWhile p := by
  rw [List.takeWhile_takeWhile]
  congr 1
  funext c
  cases hc : p c with
  | false => simp
  | true => simp [hp c hc]

theorem runLength_takeWhile (cs : List Char) : runLength p (cs.takeWhile isSolid) = runLength p cs := by
  rw [runLength, takeWhile_takeWhile_isSolid hp, runLength]

theorem contained_someRun? : Contained (someRun? p) := by
  intro cs
  rw [someRun?, runLength_takeWhile hp, someRun?]

theorem head?_any_takeWhile (cs : List Char) : (cs.takeWhile isSolid).head?.any p = cs.head?.any p := by
  cases cs with
  | nil => rfl
  | cons c cs =>
    rw [List.takeWhile_cons]
    split
    · rfl
    · next hc =>
      have hnot : p c = false := by
        rw [← Bool.not_eq_true]
        exact fun h => hc (hp c h)
      simp [hnot]

theorem contained_nameLength? : Contained (nameLength? p) := by
  intro cs
  cases cs with
  | nil => rfl
  | cons c cs =>
    rw [List.takeWhile_cons]
    split
    · rw [nameLength?, nameLength?, runLength_takeWhile fun c => isSolid_of_isNameChar]
    · next hc =>
      have hnot : ¬ p c = true := fun h => hc (hp c h)
      rw [nameLength?, nameLength?, if_neg hnot]

end TakeWhile

theorem prefix_takeWhile_iff {text cs : List Char} (h : ∀ c ∈ text, isSolid c = true) :
    text <+: cs.takeWhile isSolid ↔ text <+: cs := by
  constructor
  · exact fun hbegins => hbegins.trans (List.takeWhile_prefix _)
  · rintro ⟨rest, rfl⟩
    rw [List.takeWhile_append_of_pos h]
    exact List.prefix_append _ _

theorem contained_exactLength? {text : List Char} (h : (text.all isSolid) = true) : Contained (exactLength? text) := by
  intro cs
  have hsame : text.isPrefixOf (cs.takeWhile isSolid) = text.isPrefixOf cs := by
    rw [Bool.eq_iff_iff, List.isPrefixOf_iff_prefix, List.isPrefixOf_iff_prefix, prefix_takeWhile_iff (List.all_eq_true.1 h)]
  rw [exactLength?, exactLength?, hsame]

theorem contained_wordLength? {word : List Char} (h : (word.all isSolid) = true) : Contained (wordLength? word) := by
  intro cs
  by_cases hbegins : word <+: cs
  · obtain ⟨rest, rfl⟩ := hbegins
    rw [List.takeWhile_append_of_pos (List.all_eq_true.1 h), wordLength?, wordLength?, List.drop_left, List.drop_left,
      head?_any_takeWhile fun c => isSolid_of_isNameChar]
    simp [List.isPrefixOf_iff_prefix.2 (List.prefix_append _ _)]
  · have hnot : word.isPrefixOf cs = false := by rwa [← Bool.not_eq_true, List.isPrefixOf_iff_prefix]
    have hnot' : word.isPrefixOf (cs.takeWhile isSolid) = false := by
      rwa [← Bool.not_eq_true, List.isPrefixOf_iff_prefix, prefix_takeWhile_iff (List.all_eq_true.1 h)]
    simp [wordLength?, hnot, hnot']

theorem contained_orElse {f g : List Char → Option Nat} (hf : Contained f) (hg : Contained g) :
    Contained fun cs => f cs <|> g cs := by
  intro cs
  simp only [hf cs, hg cs]

/-- A class that is one of several is contained when all of them are. -/
theorem contained_findSome? {words : List String} {length? : String → List Char → Option Nat}
    (h : ∀ w ∈ words, Contained (length? w)) : Contained fun cs => words.findSome? (length? · cs) := by
  intro cs
  induction words with
  | nil => rfl
  | cons w words ih =>
    simp only [List.findSome?_cons, h w List.mem_cons_self cs] at ih ⊢
    rw [ih fun v hv => h v (List.mem_cons_of_mem w hv)]

theorem takeWhile_isSolid_cons {c : Char} (hc : isSolid c = true) (cs : List Char) :
    (c :: cs).takeWhile isSolid = c :: cs.takeWhile isSolid := List.takeWhile_cons_of_pos hc

/-! ## Names -/

theorem dottedTail_cons_of_ne {last : Char → Bool} {capitalised : Bool} {c : Char} {cs : List Char} (hc : c ≠ '.') :
    dottedTail last capitalised (c :: cs) = if isNameChar c then dottedTail last capitalised cs + 1 else 0 := by
  rw [dottedTail]
  rintro _ _ rfl
  exact absurd rfl hc

theorem dottedTail_takeWhile {last : Char → Bool} (hlast : ∀ c, last c = true → isSolid c = true) (capitalised : Bool)
    (cs : List Char) : dottedTail last capitalised (cs.takeWhile isSolid) = dottedTail last capitalised cs := by
  fun_induction dottedTail last capitalised cs with
  | case1 => simp [dottedTail]
  | case2 capitalised c cs h ih =>
    rw [Bool.and_eq_true] at h
    rw [takeWhile_isSolid_cons rfl, takeWhile_isSolid_cons (hlast c h.2), dottedTail, ih, if_pos (by simp [h])]
  | case3 capitalised c cs h =>
    rw [takeWhile_isSolid_cons rfl]
    by_cases hc : isSolid c = true
    · rw [takeWhile_isSolid_cons hc, dottedTail, if_neg h]
    · rw [List.takeWhile_cons_of_neg hc]
      rfl
  | case4 capitalised c cs _ hc ih =>
    have hne : c ≠ '.' := by
      rintro rfl
      revert hc
      decide
    rw [takeWhile_isSolid_cons (isSolid_of_isNameChar hc), dottedTail_cons_of_ne hne, if_pos hc, ih]
  | case5 capitalised c cs hdot hc =>
    by_cases hsolid : isSolid c = true
    · rw [takeWhile_isSolid_cons hsolid]
      by_cases hne : c = '.'
      · -- Then nothing comes after the dot.
        subst hne
        cases cs with
        | nil => rfl
        | cons d ds => exact (hdot d ds rfl rfl).elim
      · rw [dottedTail_cons_of_ne hne, if_neg hc]
    · rw [List.takeWhile_cons_of_neg hsolid]
      rfl

theorem contained_dottedLength? {last : Char → Bool} (hlast : ∀ c, last c = true → isSolid c = true) :
    Contained (dottedLength? last) := by
  intro cs
  cases cs with
  | nil => rfl
  | cons c cs =>
    by_cases hc : isSolid c = true
    · rw [takeWhile_isSolid_cons hc, dottedLength?, dottedLength?, dottedTail_takeWhile hlast]
    · have hnot : ¬ last c = true := fun h => hc (hlast c h)
      rw [List.takeWhile_cons_of_neg hc, dottedLength?, dottedLength?, if_neg hnot]

/-- A given text before what a contained length tells of. -/
theorem contained_after (text : List Char) (htext : (text.all isSolid) = true) {f g : List Char → Option Nat} (hf : Contained f)
    (hg : ∀ rest, g (text ++ rest) = (f rest).map (· + text.length)) (hnone : ∀ cs, ¬ text <+: cs → g cs = none) :
    Contained g := by
  intro cs
  by_cases hbegins : text <+: cs
  · obtain ⟨rest, rfl⟩ := hbegins
    rw [List.takeWhile_append_of_pos (List.all_eq_true.1 htext), hg, hg, hf]
  · rw [hnone cs hbegins, hnone]
    rwa [prefix_takeWhile_iff (List.all_eq_true.1 htext)]

theorem contained_fieldLength? : Contained Lexeme.field.length? := by
  have hname : Contained (nameLength? isLower) := contained_nameLength? fun c => isSolid_of (by decide)
  refine contained_after ['.'] rfl hname (fun rest => rfl) fun cs h => ?_
  simp only [Lexeme.length?]
  split
  · next rest => exact absurd ⟨rest, rfl⟩ h
  · rfl

/-! ## Numbers -/

theorem contained_hexLength? : Contained hexLength? := by
  have hrun : Contained (someRun? isHexDigit) := contained_someRun? fun c => isSolid_of (by decide)
  exact contained_after ['0', 'x'] rfl hrun (fun rest => rfl) fun _ => hexLength?_eq_none

theorem drop_takeWhile_of_le : ∀ {cs : List Char} {n : Nat}, n ≤ (cs.takeWhile isSolid).length →
    (cs.takeWhile isSolid).drop n = (cs.drop n).takeWhile isSolid
  | _, 0, _ => rfl
  | [], _ + 1, _ => rfl
  | c :: cs, n + 1, h => by
    by_cases hc : isSolid c = true
    · rw [takeWhile_isSolid_cons hc] at h ⊢
      exact drop_takeWhile_of_le (Nat.le_of_succ_le_succ h)
    · rw [List.takeWhile_cons_of_neg hc] at h
      cases h

section Digits

variable {digit : Char → Bool} (hdigit : ∀ c, digit c = true → isSolid c = true)

include hdigit

theorem contained_fractionLength? : Contained (fractionLength? digit) := by
  exact contained_after ['.'] rfl (contained_someRun? hdigit) (fun rest => rfl) fun _ => fractionLength?_eq_none digit

theorem contained_exponentLength? : Contained (exponentLength? digit) := by
  intro cs
  have hrun := contained_someRun? hdigit
  match cs with
  | [] => rfl
  | [e] =>
    rw [List.takeWhile_cons]
    split <;> rfl
  | e :: sign :: cs =>
    by_cases he : (e == 'e' || e == 'E') = true
    · have hsolid : isSolid e = true := isSolid_of (p := fun e => e == 'e' || e == 'E') (by decide) he
      rw [takeWhile_isSolid_cons hsolid]
      by_cases hsign : isSolid sign = true
      · have hrun' := hrun (sign :: cs)
        rw [takeWhile_isSolid_cons hsign] at hrun' ⊢
        simp only [exponentLength?, hrun cs, hrun']
      · -- What is not solid is no sign and no digit.
        have hnone := hrun (sign :: cs)
        rw [List.takeWhile_cons_of_neg hsign] at hnone ⊢
        have hnosign : ¬ (sign == '+' || sign == '-') = true :=
          fun h => hsign (isSolid_of (p := fun c => c == '+' || c == '-') (by decide) h)
        have hempty : someRun? digit [] = none := rfl
        rw [exponentLength?, exponentLength?, if_pos he, if_neg hnosign, ← hnone, hempty]
        · rfl
        · nofun
    · rw [List.takeWhile_cons]
      split
      · have hnone : ∀ rest, exponentLength? digit (e :: rest) = none := by
          intro rest
          cases rest with
          | nil => rfl
          | cons d rest => rw [exponentLength?, if_neg he]
        rw [hnone, hnone]
      · rw [exponentLength?, exponentLength?, if_neg he]
        nofun

theorem contained_floatLength? : Contained (floatLength? digit) := by
  intro cs
  have hrun := contained_someRun? hdigit cs
  rw [floatLength?, floatLength?, hrun]
  cases hwhole : someRun? digit cs with
  | none => rfl
  | some whole =>
    have hle : whole ≤ (cs.takeWhile isSolid).length := (reads_someRun? digit _ whole (hrun.trans hwhole)).2
    simp only [Option.bind_some]
    rw [drop_takeWhile_of_le hle, contained_fractionLength? hdigit, contained_exponentLength? hdigit]
    cases hfraction : fractionLength? digit (cs.drop whole) with
    | none => rfl
    | some fraction =>
      have hle' : fraction ≤ ((cs.drop whole).takeWhile isSolid).length :=
        (reads_fractionLength? digit _ fraction ((contained_fractionLength? hdigit _).trans hfraction)).2
      rw [← drop_takeWhile_of_le hle, List.length_drop] at hle'
      simp only
      rw [drop_takeWhile_of_le (by omega), contained_exponentLength? hdigit]

end Digits

/-! ## Lexemes and tokens -/

namespace Lexeme

/-- Whether a class of words is told by solid characters alone. -/
def isSolidClass : Lexeme → Bool
  | exact text | word text => text.toList.all isSolid
  | string | char | blanks | someBlanks | marker _ | untilBrace => false
  | _ => true

/-- Whether a class has words of solid characters only, and no empty one. -/
def isWord (l : Lexeme) : Bool := l.isSolidClass && !l.isNullable

theorem contained_operatorLength? : Contained operatorLength? := by
  have hsolid : ∀ w ∈ operators, w.toList.all isSolid = true := by decide
  unfold operatorLength?
  refine contained_findSome? fun w hw cs => ?_
  have hexact := contained_exactLength? (hsolid w hw) cs
  simp only [hexact]
  cases cs with
  | nil => rfl
  | cons c cs =>
    by_cases hc : isSolid c = true
    · rw [takeWhile_isSolid_cons hc, List.drop_one, List.drop_one, List.tail_cons, List.tail_cons,
        head?_any_takeWhile fun c => isSolid_of (p := fun c => c == '>' || c == '-') (by decide)]
    · -- Before a character that is not solid there is no operator.
      have hnone : exactLength? w.toList (c :: cs) = none := by
        rw [← hexact, List.takeWhile_cons_of_neg hc]
        cases hword : w.toList with
        | nil => exact absurd hword (operators_ne_nil w hw)
        | cons d ds => rfl
      simp only [hnone, ite_self]

/-- The words of such a class are told by solid characters. -/
theorem contained {l : Lexeme} (hl : l.isSolidClass = true) : Contained l.length? := by
  have hlower : ∀ c, isLower c = true → isSolid c = true := fun c => isSolid_of (by decide)
  have hupper : ∀ c, isUpper c = true → isSolid c = true := fun c => isSolid_of (by decide)
  have hdigit : ∀ c, isAnyDigit c = true → isSolid c = true := fun c => isSolid_of (by decide)
  cases l with
  | exact text => exact contained_exactLength? hl
  | word text => exact contained_wordLength? hl
  | keyword =>
    have hsolid : ∀ w ∈ keywords, w.toList.all isSolid = true := by decide
    exact contained_findSome? fun w hw => contained_wordLength? (hsolid w hw)
  | lowerName => exact contained_nameLength? hlower
  | upperName => exact contained_nameLength? hupper
  | upperPath => exact contained_dottedLength? hupper
  | path => exact contained_dottedLength? fun c => isSolid_of (by decide)
  | field => exact contained_fieldLength?
  | wildcard => exact contained_wordLength? rfl
  | float => exact contained_floatLength? hdigit
  | int => exact contained_orElse contained_hexLength? (contained_someRun? hdigit)
  | operator => exact contained_operatorLength?
  | _ => cases hl

end Lexeme

/-- The word that a contained length tells of has solid characters only. -/
theorem Contained.isSolid {length? : List Char → Option Nat} (hcontained : Contained length?) (hreads : Reads length?)
    {cs : List Char} {n : Nat} (h : length? cs = some n) : ∀ c ∈ cs.take n, isSolid c = true := by
  have hle : n ≤ (cs.takeWhile ElmLint.isSolid).length := (hreads _ n ((hcontained cs).trans h)).2
  intro c hc
  have hbegins : cs.take n <+: cs.takeWhile ElmLint.isSolid :=
    List.prefix_of_prefix_length_le (List.take_prefix n cs) (List.takeWhile_prefix _) (by rw [List.length_take]; omega)
  exact List.all_eq_true.1 List.all_takeWhile c (hbegins.subset hc)

/-- The kinds of tokens other than literals and characters by themselves. -/
def Token.Kind.isSolidKind : Token.Kind → Bool
  | .number | .name | .bracket | .comma | .operator => true
  | .string | .char | .other => false

/-- Tokens other than literals and characters by themselves have solid characters only. -/
theorem contained_pieceClasses {p : Piece.Kind × (List Char → Option Nat)} (hp : p ∈ pieceClasses) {kind : Token.Kind}
    (hkind : p.1 = .token kind) (hsolid : kind.isSolidKind = true) : Contained p.2 := by
  have hdigit : ∀ c, isDigit c = true → isSolid c = true := fun c => isSolid_of (by decide)
  simp only [pieceClasses, List.mem_cons, List.not_mem_nil, or_false] at hp
  rcases hp with rfl | rfl | rfl | rfl | rfl | rfl | rfl | rfl
  · cases hkind
    cases hsolid
  · cases hkind
    cases hsolid
  · exact contained_orElse contained_hexLength? (contained_orElse (contained_floatLength? hdigit) (contained_someRun? hdigit))
  · exact contained_nameLength? fun c => isSolid_of (p := fun c => isLetter c || c == '_') (by decide)
  · intro cs
    simp only [head?_any_takeWhile fun c => isSolid_of (p := isBracket) (by decide)]
  · exact contained_exactLength? rfl
  · exact contained_someRun? fun c => isSolid_of (by decide)
  · cases hkind

end ElmLint
