import ElmLint.Proofs.BlockTree
import ElmLint.Proofs.Skeleton
import ElmLint.Proofs.WrittenLiterals
import Mathlib.Data.List.Basic

/-!
# The tokens of a word

The words of a rendering are cut into the same tokens whatever comes after them (`IsWord`): a name with its qualifier into the names
and the dots between them, any other word into one token, which layout knows by `headToken`. A word all of whose tokens mean nothing to
layout is plain (`IsPlainWord`).
-/

namespace ElmLint

/-! ## The first piece -/

/-- Whether a piece of a kind can begin with a character. -/
def Piece.Kind.begins : Piece.Kind → Char → Bool
  | .token .string, c => c == '"'
  | .token .char, c => c == '\''
  | .token .number, c => isDigit c
  | .token .name, c => isLetter c || c == '_'
  | .token .bracket, c => isBracket c
  | .token .comma, c => c == ','
  | .token .operator, c => isOperatorChar c
  | .blank, c => isBlank c
  | .token .other, _ | .comment, _ => false

section FirstPiece

variable {c : Char} {cs w rest : List Char} {n : Nat}

theorem of_numberLength? {digit : Char → Bool} (hzero : digit '0' = true) (h : numberLength? digit (c :: cs) = some n) :
    digit c = true := by
  have hhex : hexLength? (c :: cs) ≠ none → digit c = true := by
    unfold hexLength?
    split
    · next heq => exact fun _ => (List.cons_eq_cons.1 heq).1 ▸ hzero
    · exact fun hnone => absurd rfl hnone
  by_contra hdigit
  have hnone : hexLength? (c :: cs) = none := Decidable.by_contra fun hsome => hdigit (hhex hsome)
  have hrun : someRun? digit (c :: cs) = none := by
    cases hsome : someRun? digit (c :: cs) with
    | none => rfl
    | some n => exact absurd (of_someRun? hsome) hdigit
  simp [numberLength?, hnone, floatLength?, hrun] at h

theorem Piece.Kind.begins_of_length? {p : Piece.Kind × (List Char → Option Nat)} (hp : p ∈ pieceClasses)
    (h : p.2 (c :: cs) = some n) : p.1.begins c = true := by
  simp only [pieceClasses, List.mem_cons, List.not_mem_nil, or_false] at hp
  rcases hp with rfl | rfl | rfl | rfl | rfl | rfl | rfl | rfl
  · obtain ⟨_, hcut⟩ := exists_of_stringLength? h
    exact beq_iff_eq.2 (List.cons_eq_cons.1 hcut).1
  · obtain ⟨_, hcut⟩ := exists_of_charLength? h
    exact beq_iff_eq.2 (List.cons_eq_cons.1 hcut).1
  · exact of_numberLength? (by decide) h
  · exact of_nameLength? h
  · by_contra hnot
    simp only [Piece.Kind.begins] at hnot
    simp [hnot] at h
  · have hcomma := head?_of_exactLength? (by simp) h
    exact beq_iff_eq.2 (Option.some.inj hcomma).symm
  · exact of_someRun? h
  · exact of_someRun? h

/-- Without a comment at its beginning, a text begins with a piece of the first class that has one there. -/
theorem firstPiece?_eq (hblock : ¬ ['{', '-'] <+: cs) (hline : ¬ ['-', '-'] <+: cs) : firstPiece? cs =
    some ((pieceClasses.findSome? fun (kind, length?) => (length? cs).map (kind, ·)).getD (.token .other, 1)) := by
  unfold firstPiece?
  split
  · exact absurd ⟨_, rfl⟩ hblock
  · exact absurd ⟨_, rfl⟩ hline
  · rfl

/-- A text that begins like the pieces of one class only begins with a piece of that class. -/
theorem firstPiece?_of_begins {kind : Piece.Kind} (length? : List Char → Option Nat) (hclass : (kind, length?) ∈ pieceClasses)
    (hothers : (pieceClasses.all fun p => p.1 == kind || !p.1.begins c) = true) (hbrace : c ≠ '{') (hminus : c ≠ '-')
    (h : length? (c :: cs) = some n) : firstPiece? (c :: cs) = some (kind, n) := by
  have hstart : ∀ d : Char, c ≠ d → ¬ [d, '-'] <+: c :: cs := by
    rintro d hd ⟨more, hmore⟩
    exact hd (List.cons_eq_cons.1 hmore).1.symm
  have heq := firstPiece?_eq (hstart _ hbrace) (hstart _ hminus)
  generalize hfound : (pieceClasses.findSome? fun (kind, length?) => (length? (c :: cs)).map (kind, ·)).getD (.token .other, 1) = found
    at heq
  rcases firstPiece?_cases heq with ⟨-, _, _, hcs, -⟩ | ⟨-, _, hcs, -⟩ | ⟨p, hp, hkind, hlength⟩ | ⟨-, -, hnone⟩
  · exact absurd (List.cons_eq_cons.1 hcs).1 hbrace
  · exact absurd (List.cons_eq_cons.1 hcs).1 hminus
  · have hbegins := Piece.Kind.begins_of_length? hp hlength
    have hsame := List.all_eq_true.1 hothers p hp
    rw [hbegins, Bool.not_true, Bool.or_false, beq_iff_eq] at hsame
    have hfirst : firstPiece? (c :: cs) = some (kind, found.2) := by
      rw [heq, ← hsame, ← hkind]
    rw [hfirst, Option.some.inj ((length?_of_firstPiece? length? hclass hfirst).symm.trans h)]
  · cases (hnone _ hclass).symm.trans h

/-- Blanks before a character that is none are a piece. -/
theorem firstPiece?_blanks (hne : w ≠ []) (hw : ∀ c ∈ w, isBlank c = true) (hrest : ∀ c ∈ rest.head?, isBlank c = false) :
    firstPiece? (w ++ rest) = some (.blank, w.length) := by
  have hlength : someRun? isBlank (w ++ rest) = some w.length := by
    refine someRun?_append_iff.2 ⟨hne, hw, ?_⟩
    cases rest with
    | nil => rfl
    | cons c rest => exact hrest c rfl
  obtain ⟨c, w, rfl⟩ := List.exists_cons_of_ne_nil hne
  have hc : ((c = ' ' ∨ c = '\t') ∨ c = '\r') ∨ c = '\n' := by simpa [isBlank] using hw c List.mem_cons_self
  rcases hc with ((rfl | rfl) | rfl) | rfl <;>
    exact firstPiece?_of_begins (someRun? isBlank) (by simp [pieceClasses]) (by decide +kernel) (by decide) (by decide) hlength

/-- The classes of pieces tell of solid characters what they tell when something comes after these. -/
theorem pieceClasses_append {p : Piece.Kind × (List Char → Option Nat)} (hp : p ∈ pieceClasses) (hne : w ≠ [])
    (hw : w.all isSolid = true) (hrest : ∀ c ∈ rest.head?, LaidOut.isFiller c = true) : p.2 (w ++ rest) = p.2 w := by
  obtain ⟨c, cs, rfl⟩ := List.exists_cons_of_ne_nil hne
  by_cases hkind : ∃ kind, p.1 = .token kind ∧ kind.isSolidKind = true
  · obtain ⟨kind, hkind, hsolid⟩ := hkind
    rw [← contained_pieceClasses hp hkind hsolid, takeWhile_isSolid_append hw hrest]
  · -- Literals and blanks do not begin with a solid character.
    have hbegins : p.1.begins c = false := by
      have hsolid : isSolid c = true := List.all_eq_true.1 hw c List.mem_cons_self
      simp only [isSolid, LaidOut.isFiller, Bool.and_eq_true, Bool.not_eq_true', Bool.or_eq_false_iff, bne_iff_ne] at hsolid
      simp only [pieceClasses, List.mem_cons, List.not_mem_nil, or_false] at hp
      rcases hp with rfl | rfl | rfl | rfl | rfl | rfl | rfl | rfl
      · simp [Piece.Kind.begins, hsolid.1.2]
      · simp [Piece.Kind.begins, hsolid.2]
      · exact absurd ⟨_, rfl, rfl⟩ hkind
      · exact absurd ⟨_, rfl, rfl⟩ hkind
      · exact absurd ⟨_, rfl, rfl⟩ hkind
      · exact absurd ⟨_, rfl, rfl⟩ hkind
      · exact absurd ⟨_, rfl, rfl⟩ hkind
      · exact hsolid.1.1.1
    have hnone : ∀ ds, p.2 (c :: ds) = none := by
      intro ds
      cases hsome : p.2 (c :: ds) with
      | none => rfl
      | some n =>
        rw [Piece.Kind.begins_of_length? hp hsome] at hbegins
        cases hbegins
    rw [List.cons_append, hnone, hnone]

/-- A token does not begin like a comment. -/
theorem not_comment_of_token {kind : Token.Kind} (h : firstPiece? w = some (.token kind, n)) :
    ¬ ['{', '-'] <+: w ∧ ¬ ['-', '-'] <+: w := by
  constructor
  · rintro ⟨more, rfl⟩
    obtain ⟨_, -, heq⟩ := Option.map_eq_some_iff.1 h
    cases heq
  · rintro ⟨more, rfl⟩
    cases h

/-- Nothing that comes after a word makes a comment of it. -/
theorem not_comment_append {d : Char} (hne : w ≠ []) (hrest : ∀ c ∈ rest.head?, LaidOut.isFiller c = true)
    (h : ¬ [d, '-'] <+: w) : ¬ [d, '-'] <+: w ++ rest := by
  rintro ⟨more, hmore⟩
  obtain ⟨c, cs, rfl⟩ := List.exists_cons_of_ne_nil hne
  cases cs with
  | nil =>
    cases rest with
    | nil => cases hmore
    | cons e rest =>
      obtain ⟨-, htail⟩ := List.cons_eq_cons.1 hmore
      obtain ⟨rfl, -⟩ := List.cons_eq_cons.1 htail
      exact absurd (hrest '-' rfl) (by decide)
  | cons e cs =>
    obtain ⟨rfl, htail⟩ := List.cons_eq_cons.1 hmore
    obtain ⟨rfl, -⟩ := List.cons_eq_cons.1 htail
    exact h ⟨cs, rfl⟩

/-- Solid characters begin with the same token whatever comes after them. -/
theorem firstPiece?_append {kind : Token.Kind} (hne : w ≠ []) (hw : w.all isSolid = true)
    (hrest : ∀ c ∈ rest.head?, LaidOut.isFiller c = true) (h : firstPiece? w = some (.token kind, n)) :
    firstPiece? (w ++ rest) = some (.token kind, n) := by
  obtain ⟨hblock, hline⟩ := not_comment_of_token h
  have hfind : (pieceClasses.findSome? fun (kind, length?) => (length? (w ++ rest)).map (kind, ·)) =
      pieceClasses.findSome? fun (kind, length?) => (length? w).map (kind, ·) := by
    rw [← List.head?_filterMap, ← List.head?_filterMap]
    exact congrArg _ (List.filterMap_congr fun ⟨kind, _⟩ hp => congrArg (Option.map (kind, ·)) (pieceClasses_append hp hne hw hrest))
  rw [firstPiece?_eq (not_comment_append hne hrest hblock) (not_comment_append hne hrest hline), hfind,
    ← firstPiece?_eq hblock hline, h]

end FirstPiece

/-! ## Words -/

/-- A token at no place. -/
def tokenOf (kind : Token.Kind) (text : List Char) : Token := ⟨kind, String.ofList text, 0, 0, 0, 0, 0⟩

/-- The token that a word begins with, at no place. -/
def headToken (w : List Char) : Token :=
  match firstPiece? w with
  | some (.token kind, n) => tokenOf kind (w.take n)
  | _ => tokenOf .other w

/-- A text that is cut off as a token of a kind, before some characters and whatever comes after them. -/
def CutsOff (kind : Token.Kind) (text next : List Char) : Prop :=
  text ≠ [] ∧ ∀ rest : List Char, (∀ c ∈ rest.head?, LaidOut.isFiller c = true) →
    firstPiece? (text ++ (next ++ rest)) = some (.token kind, text.length)

/-- Characters that are cut into tokens that mean nothing to layout. -/
inductive Mute : List Char → Prop
  | nil : Mute []
  | cons {kind : Token.Kind} {text next : List Char} : CutsOff kind text next → (tokenOf kind text).isPlain = true → Mute next →
      Mute (text ++ next)

/-- A word on one line that is cut into a token, or into tokens that mean nothing to layout, whatever comes after it. -/
structure IsWord (w : List Char) : Prop where
  begins : ∃ c cs, w = c :: cs ∧ LaidOut.isFiller c = false
  ends : ∀ c ∈ w.getLast?, LaidOut.isFiller c = false
  oneLine : '\n' ∉ w
  cut : Mute w ∨ ∃ kind, CutsOff kind w []

/-- A word whose tokens mean nothing to layout. -/
structure IsPlainWord (w : List Char) : Prop extends IsWord w where
  mute : Mute w

section Words

variable {w text next : List Char} {kind : Token.Kind}

theorem CutsOff.headToken_eq (h : CutsOff kind text next) : headToken (text ++ next) = tokenOf kind text := by
  have hfirst := h.2 [] (fun _ hc => nomatch hc)
  rw [List.append_nil] at hfirst
  rw [headToken, hfirst]
  simp only [List.take_left]

/-- A plain word means nothing to layout. -/
theorem IsPlainWord.isPlain (h : IsPlainWord w) : (headToken w).isPlain = true := by
  obtain ⟨c, cs, hcut, -⟩ := h.begins
  cases h.mute with
  | nil => cases hcut
  | cons hoff hplain _ => rwa [hoff.headToken_eq]

/-- The first token of a word and those after it, which mean nothing to layout. -/
theorem IsWord.exists_cut (h : IsWord w) : ∃ kind text next, w = text ++ next ∧ CutsOff kind text next ∧ Mute next ∧
    (next = [] ∨ (tokenOf kind text).isPlain = true) := by
  rcases h.cut with hmute | ⟨kind, hoff⟩
  · obtain ⟨c, cs, hcut, -⟩ := h.begins
    cases hmute with
    | nil => cases hcut
    | cons hoff hplain hnext => exact ⟨_, _, _, rfl, hoff, hnext, .inr hplain⟩
  · exact ⟨kind, w, [], (List.append_nil w).symm, hoff, .nil, .inl rfl⟩

theorem isWord_of_solid (hne : w ≠ []) (hw : w.all isSolid = true) (h : Mute w ∨ ∃ kind, CutsOff kind w []) : IsWord w := by
  have hfiller : ∀ c ∈ w, LaidOut.isFiller c = false := by
    intro c hc
    have hsolid := List.all_eq_true.1 hw c hc
    simp only [isSolid, Bool.and_eq_true, Bool.not_eq_true'] at hsolid
    exact hsolid.1.1
  obtain ⟨c, cs, rfl⟩ := List.exists_cons_of_ne_nil hne
  refine ⟨⟨c, cs, rfl, hfiller c List.mem_cons_self⟩, fun d hd => hfiller d (List.mem_of_getLast? hd), fun hline => ?_, h⟩
  exact absurd (List.all_eq_true.1 hw _ hline) (by decide)

/-- A token of solid characters is cut off before other solid characters as they tell. -/
theorem cutsOff_of_solid (hne : text ≠ []) (hw : (text ++ next).all isSolid = true)
    (h : firstPiece? (text ++ next) = some (.token kind, text.length)) : CutsOff kind text next := by
  refine ⟨hne, fun rest hrest => ?_⟩
  rw [← List.append_assoc]
  exact firstPiece?_append (List.append_ne_nil_of_left_ne_nil hne next) hw hrest h

/-- A token of solid characters is a word. -/
theorem isWord_of_token (hne : w ≠ []) (hw : w.all isSolid = true) (h : firstPiece? w = some (.token kind, w.length)) : IsWord w :=
  isWord_of_solid hne hw (.inr ⟨kind, cutsOff_of_solid hne (by rwa [List.append_nil]) (by rwa [List.append_nil])⟩)

/-- One token that means nothing to layout. -/
theorem Mute.single (h : CutsOff kind w []) (hplain : (tokenOf kind w).isPlain = true) : Mute w := by
  have hmute := Mute.cons h hplain .nil
  rwa [List.append_nil] at hmute

theorem isPlainWord_of_token (hne : w ≠ []) (hw : w.all isSolid = true) (h : firstPiece? w = some (.token kind, w.length))
    (hplain : (tokenOf kind w).isPlain = true) : IsPlainWord w :=
  ⟨isWord_of_token hne hw h, .single (cutsOff_of_solid hne (by rwa [List.append_nil]) (by rwa [List.append_nil])) hplain⟩

end Words

/-! ## Symbols and keywords -/

section Fixed

variable (word : String)

/-- Brackets, commas and the names that layout goes by are words. -/
theorem isWord_delimiter (h : word ∈ ["(", ")", "[", "]", "\x7b", "\x7d", ",", "of", "let", "in"]) : IsWord word.toList := by
  have hall : ∀ word ∈ ["(", ")", "[", "]", "\x7b", "\x7d", ",", "of", "let", "in"],
      word.toList ≠ [] ∧ word.toList.all isSolid = true ∧
      firstPiece? word.toList = some (.token (headToken word.toList).kind, word.toList.length) := by decide +kernel
  obtain ⟨hne, hsolid, hfirst⟩ := hall word h
  exact isWord_of_token hne hsolid hfirst

/-- Operators, the other symbols and the other keywords. -/
def plainSymbols : List String := operators ++ ["if", "then", "else", "case", "as", "->", "=", "\\", "_", ":", "|"]

/-- Operators, the other symbols and the other keywords are plain words. -/
theorem isPlainWord_symbol (h : word ∈ plainSymbols) : IsPlainWord word.toList := by
  have hall : ∀ word ∈ plainSymbols,
      word.toList ≠ [] ∧ word.toList.all isSolid = true ∧
      firstPiece? word.toList = some (.token (headToken word.toList).kind, word.toList.length) ∧
      (tokenOf (headToken word.toList).kind word.toList).isPlain = true := by decide +kernel
  obtain ⟨hne, hsolid, hfirst, hplain⟩ := hall word h
  exact isPlainWord_of_token hne hsolid hfirst hplain

end Fixed

/-! ## Names -/

section Names

variable {w : List Char}

/-- A name is a token before anything that does not go on with it. -/
theorem firstPiece?_name (hname : IsName isLetter w) (next : List Char) (hnext : ∀ c ∈ next.head?, isNameChar c = false) :
    firstPiece? (w ++ next) = some (.token .name, w.length) := by
  obtain ⟨c, cs, rfl, hc, hcs⟩ := hname
  have hclass : (pieceClasses.all fun p => p.1 == .token .name || !p.1.begins c) = true ∧ c ≠ '{' ∧ c ≠ '-' := by
    have hall := of_isLetter (p := fun c => (pieceClasses.all fun p => p.1 == .token .name || !p.1.begins c) &&
      (c != '{' && c != '-')) (by decide +kernel) hc
    simpa only [Bool.and_eq_true, bne_iff_ne] using hall
  rw [List.cons_append]
  refine firstPiece?_of_begins (nameLength? fun c => isLetter c || c == '_') (by simp [pieceClasses]) hclass.1 hclass.2.1
    hclass.2.2 ?_
  have hrun : runLength isNameChar (cs ++ next) = cs.length := by
    rw [runLength, List.takeWhile_append_of_pos hcs]
    cases next with
    | nil => simp
    | cons d next => rw [List.takeWhile_cons_of_neg (by simp [hnext d rfl]), List.append_nil]
  rw [nameLength?, if_pos (by simp [hc]), hrun, List.length_cons]

/-- A name that layout does not go by. -/
theorem isPlain_name (h : ∀ word ∈ ["of", "let", "in"], word.toList ≠ w) : (tokenOf .name w).isPlain = true := by
  have hne : ∀ word ∈ ["of", "let", "in"], String.ofList w ≠ word := by
    rintro word hword rfl
    exact h _ hword (by simp)
  have hof := hne "of" (by simp)
  have hlet := hne "let" (by simp)
  have hin := hne "in" (by simp)
  simp [Token.isPlain, Token.isName, tokenOf, hof, hlet, hin]

theorem IsName.solid (h : IsName isLetter w) : w.all isSolid = true :=
  all_isSolid_of_isNameChar (h.isNameChar fun c hc => by simp [ElmLint.isNameChar, hc])

theorem IsLowerName.ne_layoutWord {name : String} (h : IsLowerName name) :
    ∀ word ∈ ["of", "let", "in"], word.toList ≠ name.toList := by
  intro word hword
  have hkeyword : ∀ word ∈ ["of", "let", "in"], word ∈ keywords := by decide
  exact h.ne_of_mem_keywords (hkeyword word hword)

theorem IsUpperName.ne_layoutWord {name : String} (h : IsUpperName name) :
    ∀ word ∈ ["of", "let", "in"], word.toList ≠ name.toList := by
  obtain ⟨c, cs, heq, hc, -⟩ := h
  have hlower : ∀ word ∈ ["of", "let", "in"], word.toList.head?.any isUpper = false := by decide
  intro word hword hsame
  have hfirst := hlower word hword
  rw [hsame, heq, List.head?_cons, Option.any_some, hc] at hfirst
  cases hfirst

theorem isPlainWord_name (h : IsName isLetter w) (hne : ∀ word ∈ ["of", "let", "in"], word.toList ≠ w) : IsPlainWord w := by
  have hfirst := firstPiece?_name h [] (fun _ hc => nomatch hc)
  rw [List.append_nil] at hfirst
  refine isPlainWord_of_token ?_ h.solid hfirst (isPlain_name hne)
  obtain ⟨c, cs, rfl, -⟩ := h
  exact List.cons_ne_nil c cs

theorem isPlainWord_lowerName {name : String} (h : IsLowerName name) : IsPlainWord name.toList :=
  isPlainWord_name h.isLetter h.ne_layoutWord

/-- The segments of a dotted name are names, and the dots between them are operators. -/
theorem mute_intercalate : ∀ {segments : List (List Char)}, (∀ s ∈ segments, IsName isLetter s) →
    (∀ s ∈ segments, ∀ word ∈ ["of", "let", "in"], word.toList ≠ s) → Mute (['.'].intercalate segments)
  | [], _, _ => by
    rw [List.intercalate_nil]
    exact .nil
  | [segment], hname, hne => by
    rw [List.intercalate_singleton]
    exact (isPlainWord_name (hname segment (by simp)) (hne segment (by simp))).mute
  | segment :: next :: segments, hname, hne => by
    have ih := mute_intercalate (fun s hs => hname s (List.mem_cons_of_mem _ hs)) (fun s hs => hne s (List.mem_cons_of_mem _ hs))
    have hsegment := hname segment List.mem_cons_self
    obtain ⟨d, ds, hmore, hd⟩ : ∃ d ds, ['.'].intercalate (next :: segments) = d :: ds ∧ isLetter d = true := by
      obtain ⟨d, ds, rfl, hd, -⟩ := hname next (by simp)
      cases segments with
      | nil => exact ⟨d, ds, List.intercalate_singleton, hd⟩
      | cons s ss => exact ⟨d, _, by rw [List.intercalate_cons_cons]; rfl, hd⟩
    have hdot : CutsOff .operator ['.'] (['.'].intercalate (next :: segments)) := by
      refine ⟨List.cons_ne_nil _ _, fun rest _ => ?_⟩
      have hoperator : isOperatorChar d = false := by
        simpa using of_isLetter (p := fun c => !isOperatorChar c) (by decide +kernel) hd
      rw [hmore]
      refine firstPiece?_of_begins (someRun? isOperatorChar) (by simp [pieceClasses]) (by decide +kernel) (by decide)
        (by decide) ?_
      simp [someRun?, runLength, hoperator, show isOperatorChar '.' = true by decide]
    rw [List.intercalate_cons_cons, List.append_assoc]
    refine .cons ⟨?_, fun rest _ => firstPiece?_name hsegment _ fun c hc => ?_⟩ (isPlain_name (hne segment List.mem_cons_self))
      (.cons hdot (by decide) ih)
    · obtain ⟨c, cs, rfl, -⟩ := hsegment
      exact List.cons_ne_nil c cs
    · cases hc
      decide

end Names

section Qualified

variable {qualifier : ModuleName} {name : String}

/-- A name with its qualifier is a plain word. -/
theorem isPlainWord_qualifiedWord (hqualifier : ∀ segment ∈ qualifier, IsUpperName segment)
    (hname : IsUpperName name ∨ IsLowerName name) : IsPlainWord (qualifiedWord qualifier name) := by
  have hsegments : ∀ s ∈ (qualifier ++ [name]).map String.toList,
      IsName isLetter s ∧ ∀ word ∈ ["of", "let", "in"], word.toList ≠ s := by
    intro s hs
    obtain ⟨segment, hsegment, rfl⟩ := List.mem_map.1 hs
    have hcase : IsUpperName segment ∨ IsLowerName segment := by
      rcases List.mem_append.1 hsegment with hsegment | hsegment
      · exact .inl (hqualifier segment hsegment)
      · exact List.mem_singleton.1 hsegment ▸ hname
    rcases hcase with h | h
    · exact ⟨h.isLetter, h.ne_layoutWord⟩
    · exact ⟨h.isLetter, h.ne_layoutWord⟩
  have hmute := mute_intercalate (fun s hs => (hsegments s hs).1) (fun s hs => (hsegments s hs).2)
  rw [← qualifiedWord_eq] at hmute
  refine ⟨isWord_of_solid (fun hnil => ?_) (solid_qualifiedWord hqualifier hname) (.inl hmute), hmute⟩
  have hreads := reads_path_qualifiedWord hqualifier hname []  (fun _ hc => nomatch hc)
  rw [hnil] at hreads
  cases hreads

end Qualified

/-! ## Literals -/

/-- A token that is neither a bracket, nor a comma, nor a name. -/
theorem isPlain_of_kind {kind : Token.Kind} {w : List Char} (hkind : kind.isDelimiting = false) (hw : w.head? ≠ some 'i') :
    (tokenOf kind w).isPlain = true := by
  have hin : String.ofList w ≠ "in" := by
    intro heq
    have hchars : w = ['i', 'n'] := String.ofList_injective heq
    exact hw (by rw [hchars]; rfl)
  cases kind with
  | bracket | comma | name => cases hkind
  | _ => simp [Token.isPlain, Token.isName, tokenOf, hin]

section Numbers

variable {w : List Char}

/-- A digit begins nothing but a number. -/
theorem begins_isDigit {c : Char} (hc : isDigit c = true) :
    (pieceClasses.all fun p => p.1 == .token .number || !p.1.begins c) = true ∧ c ≠ '{' ∧ c ≠ '-' := by
  have hne : ∀ d, isDigit d = false → c ≠ d := by
    rintro d hd rfl
    rw [hc] at hd
    cases hd
  have hnotMem : ∀ text : String, (text.toList.any isDigit = false) → c ∉ text.toList :=
    fun text htext hmem => List.any_eq_false.1 htext c hmem hc
  have hletter : isLetter c = false := by
    by_contra hletter
    have := of_isLetter (p := fun c => !isDigit c) (by decide +kernel) (Bool.not_eq_false _ ▸ hletter)
    simp [hc] at this
  refine ⟨List.all_eq_true.2 fun p hp => ?_, hne _ (by decide), hne _ (by decide)⟩
  simp only [pieceClasses, List.mem_cons, List.not_mem_nil, or_false] at hp
  rcases hp with rfl | rfl | rfl | rfl | rfl | rfl | rfl | rfl
  · simp [Piece.Kind.begins, hne '"' (by decide)]
  · simp [Piece.Kind.begins, hne '\'' (by decide)]
  · rfl
  · simp [Piece.Kind.begins, hletter, hne '_' (by decide)]
  · simpa [Piece.Kind.begins, isBracket] using hnotMem "()[]\x7b\x7d" (by decide)
  · simp [Piece.Kind.begins, hne ',' (by decide)]
  · simpa [Piece.Kind.begins, isOperatorChar] using hnotMem "+-*/<>=!&|^%.:?\\~#@$" (by decide)
  · simpa [Piece.Kind.begins, isBlank, and_assoc] using hnotMem " \t\r\n" (by decide)

/-- A number is a plain word. -/
theorem isPlainWord_number (hsolid : w.all isSolid = true) (h : numberLength? isDigit w = some w.length) : IsPlainWord w := by
  cases w with
  | nil => cases h
  | cons c cs =>
    have hdigit : isDigit c = true := of_numberLength? (by decide) h
    obtain ⟨hothers, hbrace, hminus⟩ := begins_isDigit hdigit
    have hfirst : firstPiece? (c :: cs) = some (.token .number, (c :: cs).length) :=
      firstPiece?_of_begins _ (by simp [pieceClasses]) hothers hbrace hminus h
    refine isPlainWord_of_token (List.cons_ne_nil c cs) hsolid hfirst (isPlain_of_kind rfl fun hhead => ?_)
    cases hhead
    cases hdigit

theorem numberLength?_toDigits (n : Nat) : numberLength? isDigit (Nat.toDigits 10 n) = some (Nat.toDigits 10 n).length := by
  have hdigits : ∀ c ∈ Nat.toDigits 10 n, isDigit c = true := of_mem_toDigits (by decide) (by decide +kernel) n
  have hrun : someRun? isDigit (Nat.toDigits 10 n) = some (Nat.toDigits 10 n).length := by
    rw [someRun?, runLength_eq_length hdigits, if_neg]
    simp [Nat.toDigits_ne_nil]
  rw [numberLength?, hexLength?_toDigits, floatLength?, hrun, Option.bind_some, List.drop_length]
  rfl

theorem isPlainWord_toDigits (n : Nat) : IsPlainWord (Nat.toDigits 10 n) :=
  isPlainWord_number (solid_toDigits n) (numberLength?_toDigits n)

end Numbers

/-- The lengths of numbers with a fraction are told by which of their characters are digits. -/
theorem floatLength?_congr {p q : Char → Bool} {cs : List Char} (h : ∀ c ∈ cs, p c = q c) : floatLength? p cs = floatLength? q cs := by
  have hrun : ∀ {ds : List Char}, (∀ c ∈ ds, p c = q c) → someRun? p ds = someRun? q ds := by
    intro ds hds
    have hlength : runLength p ds = runLength q ds := by
      induction ds with
      | nil => rfl
      | cons d ds ih =>
        obtain ⟨hd, hds⟩ := List.forall_mem_cons.1 hds
        have ih := ih hds
        simp only [runLength, List.takeWhile_cons, hd] at ih ⊢
        split
        · rw [List.length_cons, List.length_cons, ih]
        · rfl
    rw [someRun?, someRun?, hlength]
  have hdrop : ∀ n, ∀ c ∈ cs.drop n, p c = q c := fun n c hc => h c (List.mem_of_mem_drop hc)
  have hfraction : ∀ n, fractionLength? p (cs.drop n) = fractionLength? q (cs.drop n) := by
    intro n
    have hds := hdrop n
    generalize cs.drop n = ds at hds
    unfold fractionLength?
    split
    · rw [hrun fun c hc => hds c (List.mem_cons_of_mem _ hc)]
    · rfl
  have hexponent : ∀ n, exponentLength? p (cs.drop n) = exponentLength? q (cs.drop n) := by
    intro n
    have hds := hdrop n
    generalize cs.drop n = ds at hds
    unfold exponentLength?
    split
    · rw [hrun fun c hc => hds c (List.mem_cons_of_mem _ hc),
        hrun fun c hc => hds c (List.mem_cons_of_mem _ (List.mem_cons_of_mem _ hc))]
    · rfl
  simp only [floatLength?, hrun h, hfraction, hexponent]

/-- What begins with a number with a fraction is no hexadecimal number. -/
theorem hexLength?_of_floatLength? {p : Char → Bool} (hx : p 'x' = false) {cs : List Char} {n : Nat} (h : floatLength? p cs = some n) :
    hexLength? cs = none := by
  have hexponent : ∀ cs, exponentLength? p ('x' :: cs) = none := fun cs => by cases cs <;> simp [exponentLength?]
  unfold hexLength?
  split
  · exfalso
    cases hzero : p '0' <;> simp [floatLength?, someRun?, runLength, fractionLength?, hexponent, hzero, hx] at h
  · rfl

/-- A number with a fraction whose digits all have a value. -/
theorem numberLength?_of_floatLength? {w : List Char} (h : floatLength? isAnyDigit w = some w.length)
    (hvalue : w.any isLaterDigit = false) : numberLength? isDigit w = some w.length := by
  have hsame : floatLength? isAnyDigit w = floatLength? isDigit w := by
    refine floatLength?_congr fun c hc => ?_
    have hlater := List.any_eq_false.1 hvalue c hc
    simp [isAnyDigit, hlater]
  rw [hsame] at h
  rw [numberLength?, hexLength?_of_floatLength? (by decide) h, h]
  rfl

section Quoted

variable (ps : List Nat)

theorem line_notMem_quotedPoints {q : Char} (hq : isQuote q = true) : '\n' ∉ quotedPoints q ps := by
  have hpoint : ∀ p, '\n' ∉ escapedPoint p := by
    intro p hline
    rcases escapedPoint_cases p with ⟨c, hc, -, -, -, hne⟩ | hescape
    · rw [hc, List.mem_singleton] at hline
      exact hne hline.symm
    · simp only [hescape, List.mem_cons, List.mem_append, List.not_mem_nil, or_false] at hline
      rcases hline with hline | hline | hline | hline | hline
      · cases hline
      · cases hline
      · cases hline
      · exact absurd (isHexDigit_toDigits p _ hline) (by decide)
      · cases hline
  have hquote : '\n' ≠ q := by
    rintro rfl
    cases hq
  simp only [quotedPoints, List.mem_cons, List.mem_append, List.mem_flatMap, List.not_mem_nil, or_false, not_or]
  refine ⟨hquote, ?_, hquote⟩
  rintro ⟨p, -, hline⟩
  exact hpoint p hline

/-- A text between quotes that is a token is a plain word. -/
theorem isPlainWord_quotedPoints {q : Char} (hq : isQuote q = true) (kind : Token.Kind) (hkind : kind.isDelimiting = false)
    (h : CutsOff kind (quotedPoints q ps) []) : IsPlainWord (quotedPoints q ps) := by
  have hfiller : LaidOut.isFiller q = false ∧ q ≠ 'i' := by
    simp only [isQuote, Bool.or_eq_true, beq_iff_eq] at hq
    rcases hq with rfl | rfl <;> decide
  have hplain : (tokenOf kind (quotedPoints q ps)).isPlain = true :=
    isPlain_of_kind hkind fun hhead => hfiller.2 (Option.some.inj hhead)
  have hlast : (quotedPoints q ps).getLast? = some q := by
    rw [quotedPoints, ← List.cons_append, List.getLast?_concat]
  refine ⟨⟨⟨q, _, rfl, hfiller.1⟩, fun c hc => ?_, line_notMem_quotedPoints ps hq, .inr ⟨kind, h⟩⟩, .single h hplain⟩
  rw [hlast] at hc
  exact Option.some.inj hc ▸ hfiller.1

theorem isPlainWord_string : IsPlainWord (quotedPoints '"' ps) := by
  refine isPlainWord_quotedPoints ps rfl .string rfl ⟨List.cons_ne_nil _ _, fun rest hrest => ?_⟩
  exact firstPiece?_of_begins (stringLength? true) (by simp [pieceClasses]) (by decide +kernel) (by decide) (by decide)
    (stringLength?_quotedPoints ps hrest)

theorem isPlainWord_char (hps : ps ≠ []) : IsPlainWord (quotedPoints '\'' ps) := by
  refine isPlainWord_quotedPoints ps rfl .char rfl ⟨List.cons_ne_nil _ _, fun rest hrest => ?_⟩
  exact firstPiece?_of_begins (charLength? true) (by simp [pieceClasses]) (by decide +kernel) (by decide) (by decide)
    (charLength?_quotedPoints ps hps _)

end Quoted

/-- The words of a literal other than `()` are plain. -/
theorem Literal.Renderable.isPlainWord {style : Style} {value : Literal} (h : value.Renderable style) (hunit : value ≠ .unit) :
    ∃ w, value.words style = [w] ∧ IsPlainWord w := by
  cases value with
  | int n => exact ⟨_, rfl, isPlainWord_toDigits n⟩
  | float x =>
    refine ⟨_, rfl, isPlainWord_number (solid_of_floatLength? h.1) (numberLength?_of_floatLength? h.1 ?_)⟩
    have hfloat := h.2
    rw [Literal.ofFloat, Literal.ofNumber] at hfloat
    split at hfloat
    · cases hfloat
    · next hvalue => exact Bool.not_eq_true _ ▸ hvalue
  | string ps => exact ⟨_, rfl, isPlainWord_string ps⟩
  | char ps => exact ⟨_, rfl, isPlainWord_char ps h⟩
  | unit => exact absurd rfl hunit
  | valueless text =>
    obtain ⟨n, -, htext⟩ := h
    exact ⟨_, rfl, htext ▸ isPlainWord_toDigits n⟩

end ElmLint
