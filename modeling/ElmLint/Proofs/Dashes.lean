import ElmLint.Proofs.Partition
import ElmLint.Proofs.WordTokens

/-!
# Double dashes

A double dash begins a line comment where a piece begins, and inside an operator it does not. In a token that is neither a literal
nor an operator, an operator character is followed by a character of another kind (`sparse_of_token`), so such a token holds no
double dash; and a piece before a dash ends with no operator character, for an operator would go on (`not_operator_before_dash`).
Hence the character before a double dash decides what it is (`Tiles.dashes_cases`).

* `Scanned.dashes_begin_comment`: outside literals and comments, a double dash begins a line comment unless an operator character
  comes right before it, and then it is part of an operator.
-/

namespace ElmLint

/-! ## Operator characters inside tokens -/

/-- An operator character is followed by a character of another kind. -/
def Sparse : List Char → Prop
  | [] => True
  | c :: w => (isOperatorChar c = true → w ≠ [] ∧ w.head?.any isOperatorChar = false) ∧ Sparse w

/-- A class without any of the operator characters has none of them. -/
theorem isOperatorChar_of {p : Char → Bool} (h : ("+-*/<>=!&|^%.:?\\~#@$".toList.all fun c => !p c) = true) {c : Char}
    (hc : p c = true) : isOperatorChar c = false := by
  rw [← Bool.not_eq_true, isOperatorChar, List.contains_iff_mem]
  intro hmem
  have hnone := List.all_eq_true.1 h c hmem
  rw [hc] at hnone
  cases hnone

theorem sparse_of_none : ∀ {w : List Char}, (∀ c ∈ w, isOperatorChar c = false) → Sparse w
  | [], _ => trivial
  | c :: _, h => ⟨fun hc => (nomatch (h c List.mem_cons_self).symm.trans hc),
      sparse_of_none fun d hd => h d (List.mem_cons_of_mem c hd)⟩

/-- Any character may stand before some that are of no operator. -/
theorem sparse_cons {c : Char} {w : List Char} (hne : w ≠ []) (h : ∀ d ∈ w, isOperatorChar d = false) : Sparse (c :: w) := by
  refine ⟨fun _ => ⟨hne, ?_⟩, sparse_of_none h⟩
  obtain ⟨d, w, rfl⟩ := List.exists_cons_of_ne_nil hne
  exact h d List.mem_cons_self

theorem Sparse.append {y : List Char} (hy : Sparse y) : ∀ {x : List Char}, Sparse x → Sparse (x ++ y)
  | [], _ => hy
  | c :: x, hx => by
    refine ⟨fun hc => ?_, hy.append hx.2⟩
    obtain ⟨hne, hhead⟩ := hx.1 hc
    obtain ⟨d, x, rfl⟩ := List.exists_cons_of_ne_nil hne
    exact ⟨List.cons_ne_nil _ _, hhead⟩

/-- An operator character in a sparse word is not its last one, and the next one is no operator character. -/
theorem Sparse.next {c : Char} {b : List Char} (hc : isOperatorChar c = true) : ∀ {a : List Char}, Sparse (a ++ c :: b) →
    b ≠ [] ∧ b.head?.any isOperatorChar = false
  | [], h => h.1 hc
  | _ :: _, h => Sparse.next hc h.2

theorem Sparse.last {w : List Char} (h : Sparse w) : w.getLast?.any isOperatorChar = false := by
  cases hlast : w.getLast? with
  | none => rfl
  | some c =>
    obtain ⟨a, rfl⟩ := List.getLast?_eq_some_iff.1 hlast
    rw [Option.any_some, ← Bool.not_eq_true]
    exact fun hc => (Sparse.next hc h).1 rfl

/-! ## Words of numbers -/

/-- Digits, and the letters of a number. -/
def isNumberChar (c : Char) : Bool := isDigit c || isHexDigit c || c == 'x'

/-- A decimal point or a sign. -/
def isNumberMark (c : Char) : Bool := c == '.' || c == '+' || c == '-'

/-- Digits and letters, and marks with digits right after them. -/
inductive NumberWord : List Char → Prop
  | plain {w : List Char} : (∀ c ∈ w, isNumberChar c = true) → NumberWord w
  | marked {mark : Char} {w : List Char} : isNumberMark mark = true → w ≠ [] → (∀ c ∈ w, isDigit c = true) →
      NumberWord (mark :: w)
  | append {x y : List Char} : NumberWord x → NumberWord y → NumberWord (x ++ y)

theorem isNumberChar_of_isDigit {c : Char} (h : isDigit c = true) : isNumberChar c = true := by simp [isNumberChar, h]

theorem isNumberChar_of_isHexDigit {c : Char} (h : isHexDigit c = true) : isNumberChar c = true := by simp [isNumberChar, h]

theorem NumberWord.sparse {w : List Char} (h : NumberWord w) : Sparse w := by
  induction h with
  | plain hplain => exact sparse_of_none fun c hc => isOperatorChar_of (by decide) (hplain c hc)
  | marked _ hne hdigits => exact sparse_cons hne fun c hc => isOperatorChar_of (by decide) (hdigits c hc)
  | append _ _ hx hy => exact hy.append hx

section Numbers

variable {w u : List Char}

theorem numberWord_of_someRun? {p : Char → Bool} (hp : ∀ c, p c = true → isNumberChar c = true)
    (h : someRun? p (w ++ u) = some w.length) : NumberWord w :=
  .plain fun c hc => hp c ((someRun?_append_iff.1 h).2.1 c hc)

theorem numberWord_of_hexLength? (h : hexLength? (w ++ u) = some w.length) : NumberWord w := by
  obtain ⟨w, rfl, hrun⟩ := exists_of_after (f := someRun? isHexDigit) ['0', 'x'] (fun _ => rfl) (fun _ => hexLength?_eq_none) h
  have hbase : ∀ c ∈ ['0', 'x'], isNumberChar c = true :=
    List.forall_mem_cons.2 ⟨isNumberChar_of_isHexDigit rfl, List.forall_mem_singleton.2 (Bool.or_true _)⟩
  exact (NumberWord.plain hbase).append (numberWord_of_someRun? (fun _ => isNumberChar_of_isHexDigit) hrun)

theorem numberWord_of_fractionLength? (h : fractionLength? isDigit (w ++ u) = some w.length) : NumberWord w := by
  obtain ⟨w, rfl, hrun⟩ := exists_of_after (f := someRun? isDigit) ['.'] (fun _ => rfl) (fun _ => fractionLength?_eq_none isDigit) h
  obtain ⟨hne, hdigits, -⟩ := someRun?_append_iff.1 hrun
  exact .marked rfl hne hdigits

theorem numberWord_of_exponentLength? (h : exponentLength? isDigit (w ++ u) = some w.length) : NumberWord w := by
  rcases w with _ | ⟨e, _ | ⟨sign, w⟩⟩
  · exact .plain (List.forall_mem_nil _)
  · exact absurd h (exponentLength?_ne_one isDigit _)
  · simp only [List.cons_append, exponentLength?, List.length_cons] at h
    split at h
    · next he =>
      have hletter : isNumberChar e = true := by
        rcases Bool.or_eq_true_iff.1 he with he | he <;> rw [beq_iff_eq.1 he] <;> exact isNumberChar_of_isHexDigit rfl
      have hrest : NumberWord (sign :: w) := by
        split at h
        · next hsign =>
          have hrun : someRun? isDigit (w ++ u) = some w.length := by simpa using h
          obtain ⟨hne, hdigits, -⟩ := someRun?_append_iff.1 hrun
          exact .marked (by rw [isNumberMark, Bool.or_assoc, hsign, Bool.or_true]) hne hdigits
        · have hrun : someRun? isDigit (sign :: w ++ u) = some (sign :: w).length := by simpa using h
          exact numberWord_of_someRun? (fun _ => isNumberChar_of_isDigit) hrun
      exact (NumberWord.plain (List.forall_mem_singleton.2 hletter)).append hrest
    · cases h

theorem numberWord_of_scaleLength? (h : scaleLength? isDigit (w ++ u) = some w.length) : NumberWord w := by
  rcases exists_of_scaleLength? isDigit h with ⟨-, hexponent⟩ | ⟨w₁, w₂, rfl, hfraction, hexponent | ⟨rfl, -⟩⟩
  · exact numberWord_of_exponentLength? hexponent
  · exact (numberWord_of_fractionLength? hfraction).append (numberWord_of_exponentLength? hexponent)
  · rw [List.append_nil]
    exact numberWord_of_fractionLength? hfraction

/-- What is read as a number is the word of one. -/
theorem numberWord_of_numberLength? (h : numberLength? isDigit (w ++ u) = some w.length) : NumberWord w := by
  simp only [numberLength?, Option.orElse_eq_orElse, Option.orElse_eq_or, Option.or_eq_some_iff] at h
  rcases h with hhex | ⟨-, hfloat | ⟨-, hrun⟩⟩
  · exact numberWord_of_hexLength? hhex
  · obtain ⟨w₁, w₂, rfl, hwhole, hscale⟩ := exists_of_floatLength? isDigit hfloat
    exact (numberWord_of_someRun? (fun _ => isNumberChar_of_isDigit) hwhole).append (numberWord_of_scaleLength? hscale)
  · exact numberWord_of_someRun? (fun _ => isNumberChar_of_isDigit) hrun

end Numbers

/-! ## Tokens that are no literals -/

section Words

variable {w u : List Char}

theorem isNameChar_of_nameLength? (h : nameLength? (fun c => isLetter c || c == '_') (w ++ u) = some w.length) :
    ∀ c ∈ w, isNameChar c = true := by
  cases w with
  | nil => nofun
  | cons c w =>
    obtain ⟨hc, hall, -⟩ := nameLength?_append_iff.1 h
    have hfirst : isNameChar c = true := by rw [isNameChar, Bool.or_right_comm, hc, Bool.true_or]
    exact List.forall_mem_cons.2 ⟨hfirst, hall⟩

/-- A bracket, a comma and a character that begins nothing else are tokens by themselves, and they are no operator characters. -/
theorem single_of_token {kind : Token.Kind} (h : firstPiece? (w ++ u) = some (.token kind, w.length))
    (hkind : kind = .bracket ∨ kind = .comma ∨ kind = .other) : ∃ c, w = [c] ∧ isOperatorChar c = false := by
  obtain ⟨c, w, rfl⟩ := List.exists_cons_of_ne_nil (List.length_pos_iff.1 (firstPiece?_pos h))
  have hone : (c :: w).length = 1 → isOperatorChar c = false → ∃ d, c :: w = [d] ∧ isOperatorChar d = false := by
    intro hlength hc
    obtain rfl : w = [] := List.eq_nil_of_length_eq_zero (by simpa using hlength)
    exact ⟨c, rfl, hc⟩
  rcases hkind with rfl | rfl | rfl
  · obtain ⟨hlength, hc⟩ := bracket_of_firstPiece? h
    exact hone hlength (isOperatorChar_of (p := isBracket) (by decide) hc)
  · obtain ⟨hlength, hc⟩ := comma_of_firstPiece? h
    exact hone hlength (by rw [Option.some.inj hc]; rfl)
  · rcases firstPiece?_cases h with ⟨hkind, -⟩ | ⟨hkind, -⟩ | ⟨p, hp, hkind, -⟩ | ⟨-, hlength, hnone⟩
    · cases hkind
    · cases hkind
    · simp only [pieceClasses, List.mem_cons, List.not_mem_nil, or_false] at hp
      rcases hp with rfl | rfl | rfl | rfl | rfl | rfl | rfl | rfl <;> cases hkind
    · exact hone hlength (someRun?_eq_none_iff.1 (hnone (.token .operator, someRun? isOperatorChar) (by simp [pieceClasses])))

/-- A token that is neither a literal nor an operator is a number, a name, or a character by itself. -/
theorem word_of_token {kind : Token.Kind} (h : firstPiece? (w ++ u) = some (.token kind, w.length))
    (hkind : kind ≠ .string ∧ kind ≠ .char ∧ kind ≠ .operator) :
    NumberWord w ∨ (∀ c ∈ w, isNameChar c = true) ∨ ∃ c, w = [c] ∧ isOperatorChar c = false := by
  cases kind with
  | string => exact absurd rfl hkind.1
  | char => exact absurd rfl hkind.2.1
  | operator => exact absurd rfl hkind.2.2
  | number => exact .inl (numberWord_of_numberLength? (length?_of_firstPiece? (numberLength? isDigit) (by simp [pieceClasses]) h))
  | name =>
    exact .inr (.inl (isNameChar_of_nameLength?
      (length?_of_firstPiece? (nameLength? fun c => isLetter c || c == '_') (by simp [pieceClasses]) h)))
  | bracket => exact .inr (.inr (single_of_token h (.inl rfl)))
  | comma => exact .inr (.inr (single_of_token h (.inr (.inl rfl))))
  | other => exact .inr (.inr (single_of_token h (.inr (.inr rfl))))

/-- A token that is neither a literal nor an operator is sparse. -/
theorem sparse_of_token {kind : Token.Kind} (h : firstPiece? (w ++ u) = some (.token kind, w.length))
    (hkind : kind ≠ .string ∧ kind ≠ .char ∧ kind ≠ .operator) : Sparse w := by
  rcases word_of_token h hkind with hnumber | hname | ⟨c, rfl, hc⟩
  · exact hnumber.sparse
  · exact sparse_of_none fun c hc => isOperatorChar_of (by decide) (hname c hc)
  · exact sparse_of_none (List.forall_mem_singleton.2 hc)

/-- An operator goes on as long as there are operator characters. -/
theorem operator_of_token (h : firstPiece? (w ++ u) = some (.token .operator, w.length)) :
    (∀ c ∈ w, isOperatorChar c = true) ∧ u.head?.any isOperatorChar = false :=
  (someRun?_append_iff.1 (length?_of_firstPiece? (someRun? isOperatorChar) (by simp [pieceClasses]) h)).2

/-- A piece before a dash ends with no operator character. -/
theorem not_operator_before_dash {kind : Piece.Kind} (h : firstPiece? (w ++ '-' :: u) = some (kind, w.length)) :
    w.getLast?.any isOperatorChar = false := by
  have hlast : ∀ {p : Char → Bool}, ("+-*/<>=!&|^%.:?\\~#@$".toList.all fun c => !p c) = true → w.getLast?.any p = true →
      w.getLast?.any isOperatorChar = false := by
    intro p hp hany
    cases hc : w.getLast? with
    | none => rfl
    | some c =>
      rw [hc] at hany
      exact isOperatorChar_of hp hany
  have hveil : Veil ('-' :: u) [] := .ending (List.forall_mem_nil _)
  cases kind with
  | blank =>
    have hblank := isBlank_of_firstPiece? h
    refine hlast (p := isBlank) (by decide) ?_
    rw [List.getLast?_eq_some_getLast (List.length_pos_iff.1 (firstPiece?_pos h))]
    exact hblank _ (List.getLast_mem _)
  | comment =>
    obtain ⟨a, b, rest, rfl, -, hend | hend | ⟨_, hend⟩⟩ := comment_of_firstPiece? h
    · refine hlast (p := (· == '}')) (by decide) ?_
      rw [getLast?_cons_of_some hend]
      rfl
    · cases hend
    · cases hend
  | token kind =>
    by_cases hsparse : kind ≠ .string ∧ kind ≠ .char ∧ kind ≠ .operator
    · exact (sparse_of_token h hsparse).last
    · cases kind with
      | string =>
        have hstring := length?_of_firstPiece? (stringLength? true) (by simp [pieceClasses]) h
        exact hlast (by decide) (whole_of_string hveil hstring).last
      | char =>
        have hchar := length?_of_firstPiece? (charLength? true) (by simp [pieceClasses]) h
        exact hlast (p := isQuote) (by decide) (whole_of_char (l := []) hchar).last
      | operator => cases (operator_of_token h).2
      | _ => exact absurd (by decide) hsparse

/-- A piece that begins with a double dash is a line comment. -/
theorem lineComment_of_dashes {kind : Piece.Kind} (h : firstPiece? (w ++ u) = some (kind, w.length)) (hdashes : ['-', '-'] <+: w ++ u) :
    kind = .comment ∧ w = (w ++ u).takeWhile (· != '\n') := by
  obtain ⟨after, hafter⟩ := hdashes
  have hcomment : firstPiece? (['-', '-'] ++ after) = some (.comment, runLength (· != '\n') after + 2) := rfl
  rw [hafter, h] at hcomment
  obtain ⟨hkind, hlength⟩ := Prod.mk.inj (Option.some.inj hcomment)
  refine ⟨hkind, ?_⟩
  have hcut : w = (w ++ u).take w.length := List.take_left.symm
  rw [← hafter, hlength] at hcut
  rw [← hafter, hcut]
  exact congrArg (fun l => '-' :: '-' :: l) (List.prefix_iff_eq_take.1 (List.takeWhile_prefix _)).symm

/-- A piece that goes on with a double dash is an operator, which holds both dashes, or it is a literal or a comment. -/
theorem operator_of_dashes {kind : Piece.Kind} {a b : List Char} (h : firstPiece? (a ++ '-' :: b ++ u) = some (kind, (a ++ '-' :: b).length))
    (ha : a ≠ []) (hnext : (b ++ u).head? = some '-') :
    (kind = .token .operator ∧ b.head? = some '-' ∧ a.getLast?.any isOperatorChar = true) ∨
      kind = .comment ∨ kind = .token .string ∨ kind = .token .char := by
  cases kind with
  | comment => exact .inr (.inl rfl)
  | blank => cases isBlank_of_firstPiece? h '-' (List.mem_append_right a List.mem_cons_self)
  | token kind =>
    by_cases hsparse : kind ≠ .string ∧ kind ≠ .char ∧ kind ≠ .operator
    · obtain ⟨hne, hhead⟩ := Sparse.next rfl (sparse_of_token h hsparse)
      rw [List.head?_append_of_ne_nil _ hne] at hnext
      rw [hnext] at hhead
      cases hhead
    · cases kind with
      | string => exact .inr (.inr (.inl rfl))
      | char => exact .inr (.inr (.inr rfl))
      | operator =>
        obtain ⟨hall, hend⟩ := operator_of_token h
        refine .inl ⟨rfl, ?_, ?_⟩
        · -- The second dash is an operator character too.
          cases b with
          | nil =>
            rw [List.nil_append] at hnext
            rw [hnext] at hend
            cases hend
          | cons d b => exact hnext
        · rw [List.getLast?_eq_some_getLast ha]
          exact hall _ (List.mem_append_left _ (List.getLast_mem ha))
      | _ => exact absurd (by decide) hsparse

end Words

/-! ## What a double dash is -/

/-- Whether an operator character comes right before an offset. -/
def afterOperator (source : List Char) (o : Nat) : Bool := (source.take o).getLast?.any isOperatorChar

theorem afterOperator_eq {source a b : List Char} {start : Nat} (hne : a ≠ []) (h : source.drop start = a ++ b) :
    afterOperator source (start + a.length) = a.getLast?.any isOperatorChar := by
  rw [afterOperator, List.take_add, h, List.take_left, List.getLast?_append, List.getLast?_eq_some_getLast hne]
  rfl

namespace Tiles

variable {ps : List Piece} {source : List Char} (h : Tiles 0 ps source)

include h

/-- No operator character comes right before a piece that begins with a dash. -/
theorem afterOperator_start {p : Piece} (hp : p ∈ ps) {rest : List Char} (hdash : source.drop p.start = '-' :: rest) :
    afterOperator source p.start = false := by
  by_cases hzero : p.start = 0
  · rw [hzero]
    rfl
  have hp' := h.bounds p hp
  obtain ⟨q, hq, hle, hlt⟩ := h.exists_piece (o := p.start - 1) (Nat.zero_le _) (by omega)
  have hstop : q.stop = p.start := by
    rcases h.disjoint hq hp (by rintro rfl; omega) with hbefore | hafter <;> omega
  obtain ⟨rest', hcut, hfirst⟩ := h.cut q hq
  rw [Nat.sub_zero] at hcut
  have hrest : rest' = '-' :: rest := by
    rw [← hdash, ← hstop, Piece.stop, ← List.drop_drop, hcut, List.drop_left]
  have hne : q.text ≠ [] := List.length_pos_iff.1 (firstPiece?_pos hfirst)
  rw [← hstop, Piece.stop, afterOperator_eq hne hcut]
  exact not_operator_before_dash (hrest ▸ hfirst)

/-- A double dash is the beginning of a line comment, or it is inside an operator, a literal or a comment. -/
theorem dashes_cases {p : Piece} (hp : p ∈ ps) {o : Nat} (ho : InSpan o p.span) (hdashes : ['-', '-'] <+: source.drop o) :
    (p.kind = .comment ∧ p.start = o ∧ p.text = (source.drop o).takeWhile (· != '\n') ∧ afterOperator source o = false) ∨
    (p.kind = .token .operator ∧ ['-', '-'] <:+: p.text ∧ afterOperator source o = true) ∨
    (p.start < o ∧ (p.kind = .comment ∨ p.kind = .token .string ∨ p.kind = .token .char)) := by
  obtain ⟨hle, hlt⟩ : p.start ≤ o ∧ o < p.stop := ho
  obtain ⟨rest, hcut, hfirst⟩ := h.cut p hp
  rw [Nat.sub_zero] at hcut
  obtain ⟨after, hafter⟩ := hdashes
  rcases Nat.eq_or_lt_of_le hle with rfl | hstart
  · obtain ⟨hkind, htext⟩ := lineComment_of_dashes hfirst ⟨after, hafter.trans hcut⟩
    exact .inl ⟨hkind, rfl, hcut ▸ htext, h.afterOperator_start hp hafter.symm⟩
  · obtain ⟨a, b, hsplit, hlength⟩ := exists_append_of_le (n := o - p.start) (w := p.text) (by rw [Piece.stop] at hlt; omega)
    obtain rfl : o = p.start + a.length := by omega
    have ha : a ≠ [] := List.length_pos_iff.1 (by omega)
    have hb : b ≠ [] := by
      rintro rfl
      rw [Piece.stop, hsplit, List.append_nil] at hlt
      omega
    obtain ⟨c, b, rfl⟩ := List.exists_cons_of_ne_nil hb
    rw [hsplit] at hfirst hcut ⊢
    rw [List.append_assoc] at hcut
    rw [← List.drop_drop, hcut, List.drop_left] at hafter
    obtain ⟨rfl, hnext⟩ : '-' = c ∧ '-' :: after = b ++ rest := List.cons_eq_cons.1 hafter
    rcases operator_of_dashes hfirst ha (by rw [← hnext]; rfl) with ⟨hkind, hsecond, hbefore⟩ | hkind
    · obtain ⟨b, rfl⟩ := List.head?_eq_some_iff.1 hsecond
      exact .inr (.inl ⟨hkind, ⟨a, b, by rw [List.append_assoc]; rfl⟩, (afterOperator_eq ha hcut).trans hbefore⟩)
    · exact .inr (.inr ⟨hstart, hkind⟩)

end Tiles

namespace Scanned

/-- A double dash that is inside neither a literal nor a comment, unless it begins the comment. -/
structure DashesAt (source : List Char) (s : Scanned) (o : Nat) : Prop where
  dashes : ['-', '-'] <+: source.drop o
  no_literal : ∀ t ∈ s.tokens, t.kind = .string ∨ t.kind = .char → ¬ InSpan o t.span
  no_comment : ∀ c ∈ s.comments, InSpan o (c.span source) → (c.span source).1 = o

/-- A comment begins at an offset and takes up the rest of the line. -/
def LineCommentAt (source : List Char) (s : Scanned) (o : Nat) : Prop :=
  ∃ c ∈ s.comments, (c.span source).1 = o ∧ c.text.toList = (source.drop o).takeWhile (· != '\n')

variable {source : List Char} {s : Scanned}

/-- A double dash outside literals and comments begins a line comment, or it is inside an operator. -/
theorem DashesAt.cases (hs : ofSource source = .ok s) {o : Nat} (h : s.DashesAt source o) :
    (s.LineCommentAt source o ∧ afterOperator source o = false) ∨
    (¬ s.LineCommentAt source o ∧ afterOperator source o = true ∧ ∃ t ∈ s.tokens, t.kind = .operator ∧ ['-', '-'] <:+: t.text.toList) := by
  obtain ⟨ps, htiles, rfl⟩ := ofSource_ok_iff.1 hs
  obtain ⟨after, hafter⟩ := h.dashes
  have hlt : o < source.length := by
    have hlength := congrArg List.length hafter
    simp only [List.length_append, List.length_cons, List.length_nil, List.length_drop] at hlength
    omega
  obtain ⟨p, hp, ho⟩ : ∃ p ∈ ps, InSpan o p.span := htiles.exists_piece (Nat.zero_le o) (by omega)
  have hpiece := htiles.cases_of_piece hp
  rcases htiles.dashes_cases hp ho h.dashes with ⟨hkind, rfl, htext, hbefore⟩ | ⟨hkind, hdouble, hbefore⟩ | ⟨hstart, hkind⟩
  · refine .inl ⟨?_, hbefore⟩
    rcases hpiece with ⟨t, -, hkind', -⟩ | ⟨-, c, hc, htext', hspan⟩ | ⟨hkind', -⟩
    · cases hkind.symm.trans hkind'
    · exact ⟨c, hc, congrArg Prod.fst hspan, htext'.trans htext⟩
    · cases hkind.symm.trans hkind'
  · refine .inr ⟨?_, hbefore, ?_⟩
    · rintro ⟨c, hc, hstart, -⟩
      obtain ⟨q, hq, hkind', -, hspan⟩ := htiles.piece_of_comment hc
      have hq' := htiles.bounds q hq
      obtain rfl : p = q := by
        refine htiles.eq_of_inSpan hp hq ho ?_
        rw [← hstart, hspan]
        exact ⟨Nat.le_refl _, hq'.2.1⟩
      cases hkind.symm.trans hkind'
    · rcases hpiece with ⟨t, ht, hkind', htext, -⟩ | ⟨hkind', -⟩ | ⟨hkind', -⟩
      · obtain hkind' : Token.Kind.operator = t.kind := by simpa using hkind.symm.trans hkind'
        exact ⟨t, ht, hkind'.symm, htext ▸ hdouble⟩
      · cases hkind.symm.trans hkind'
      · cases hkind.symm.trans hkind'
  · rcases hpiece with ⟨t, ht, hkind', -, hspan⟩ | ⟨-, c, hc, -, hspan⟩ | ⟨hkind', -⟩
    · have hliteral : t.kind = .string ∨ t.kind = .char := by simpa [hkind'] using hkind
      exact absurd (hspan ▸ ho) (h.no_literal t ht hliteral)
    · have hbegins := h.no_comment c hc (hspan ▸ ho)
      rw [hspan, Piece.span] at hbegins
      omega
    · simp [hkind'] at hkind

/-- A double dash in a token other than a literal is inside an operator, after another operator character. -/
theorem exists_dashesAt (hs : ofSource source = .ok s) {t : Token} (ht : t ∈ s.tokens) (hstring : t.kind ≠ .string)
    (hchar : t.kind ≠ .char) (hdouble : ['-', '-'] <:+: t.text.toList) :
    (t.kind = .operator ∧ ¬ ['-', '-'] <+: t.text.toList) ∧ ∃ o, s.DashesAt source o ∧ afterOperator source o = true := by
  obtain ⟨ps, htiles, rfl⟩ := ofSource_ok_iff.1 hs
  obtain ⟨p, hp, hpkind, htext, -⟩ := htiles.piece_of_token ht
  obtain ⟨rest, hcut, hfirst⟩ := htiles.cut p hp
  rw [Nat.sub_zero] at hcut
  rw [htext] at hdouble ⊢
  obtain ⟨a, b, hab⟩ := hdouble
  have hdashes : ['-', '-'] <+: source.drop (p.start + a.length) := by
    refine ⟨b ++ rest, ?_⟩
    rw [← List.drop_drop, hcut, ← hab, List.append_assoc, List.append_assoc, List.drop_left]
  have ho : InSpan (p.start + a.length) p.span := by
    refine ⟨Nat.le_add_right _ _, ?_⟩
    rw [Piece.span, Piece.stop, ← hab, List.length_append, List.length_append]
    simp only [List.length_cons, List.length_nil]
    omega
  rcases htiles.dashes_cases hp ho hdashes with ⟨hkind, -⟩ | ⟨hkind, -, hbefore⟩ | ⟨-, hkind⟩
  · cases hpkind.symm.trans hkind
  · have hoperator : t.kind = .operator := by simpa using hpkind.symm.trans hkind
    refine ⟨⟨hoperator, fun hbegins => ?_⟩, p.start + a.length, ⟨hdashes, ?_, ?_⟩, hbefore⟩
    · rw [hpkind] at hfirst
      exact (not_comment_of_token hfirst).2 (hbegins.trans (List.prefix_append _ _))
    · intro u hu hliteral hin
      obtain ⟨q, hq, hqkind, -, hspan, -⟩ := htiles.piece_of_token hu
      obtain rfl := htiles.eq_of_inSpan hp hq ho (hspan ▸ hin)
      rw [hkind] at hqkind
      rcases hliteral with hliteral | hliteral <;> rw [hliteral] at hqkind <;> cases hqkind
    · intro c hc hin
      obtain ⟨q, hq, hqkind, -, hspan⟩ := htiles.piece_of_comment hc
      obtain rfl := htiles.eq_of_inSpan hp hq ho (hspan ▸ hin)
      cases hkind.symm.trans hqkind
  · rcases hkind with hkind | hkind | hkind
    · cases hpkind.symm.trans hkind
    · exact absurd (by simpa using hpkind.symm.trans hkind) hstring
    · exact absurd (by simpa using hpkind.symm.trans hkind) hchar

/-- **A double dash outside literals and comments begins a line comment unless an operator character comes right before it.** A
token other than a literal holds one only if it is an operator that begins otherwise; so there is no such token just when no
operator character comes right before a double dash. -/
theorem dashes_begin_comment (hs : ofSource source = .ok s) :
    (∀ o, s.DashesAt source o → (s.LineCommentAt source o ↔ afterOperator source o = false)) ∧
    (∀ t ∈ s.tokens, t.kind ≠ .string → t.kind ≠ .char → ['-', '-'] <:+: t.text.toList →
      t.kind = .operator ∧ ¬ ['-', '-'] <+: t.text.toList) ∧
    ((∀ t ∈ s.tokens, t.kind ≠ .string → t.kind ≠ .char → ¬ ['-', '-'] <:+: t.text.toList) ↔
      ∀ o, s.DashesAt source o → afterOperator source o = false) := by
  refine ⟨fun o ho => ?_, fun t ht hstring hchar hdouble => (exists_dashesAt hs ht hstring hchar hdouble).1, ?_, ?_⟩
  · rcases ho.cases hs with ⟨hcomment, hbefore⟩ | ⟨hcomment, hbefore, -⟩
    · exact iff_of_true hcomment hbefore
    · exact iff_of_false hcomment (by rw [hbefore]; nofun)
  · intro hnone o ho
    rcases ho.cases hs with ⟨-, hbefore⟩ | ⟨-, -, t, ht, hkind, hdouble⟩
    · exact hbefore
    · exact absurd hdouble (hnone t ht (by rw [hkind]; nofun) (by rw [hkind]; nofun))
  · intro hall t ht hstring hchar hdouble
    obtain ⟨-, o, ho, hbefore⟩ := exists_dashesAt hs ht hstring hchar hdouble
    cases (hall o ho).symm.trans hbefore

/-- One double dash after a name and one after an equals sign. -/
theorem dashes_begin_comment_once : ∃ s, ofSource "a--b\n=--".toList = .ok s ∧
    s.LineCommentAt "a--b\n=--".toList 1 ∧ ¬ s.LineCommentAt "a--b\n=--".toList 6 := by
  have hs : ofSource "a--b\n=--".toList =
      .ok ⟨"a   \n=--".toList, [⟨.name, "a", 0, 1, 1, 1, 1⟩, ⟨.operator, "=--", 5, 8, 2, 1, 2⟩], [⟨"--b", ⟨1, 2⟩, ⟨1, 5⟩⟩]⟩ := rfl
  have hfirst := (dashes_begin_comment hs).1 1 ⟨by decide, by decide, by decide⟩
  have hsecond := (dashes_begin_comment hs).1 6 ⟨by decide, by decide, by decide⟩
  exact ⟨_, hs, hfirst.2 rfl, fun hcomment => nomatch hsecond.1 hcomment⟩

/-- A note right after an equals sign is no comment. -/
theorem dashes_begin_no_comment : ∃ s, ofSource "x =-- note\n    1\n".toList = .ok s ∧
    (∃ t ∈ s.tokens, t.kind = .operator ∧ ['-', '-'] <:+: t.text.toList) ∧
    s.DashesAt "x =-- note\n    1\n".toList 3 ∧ ¬ s.LineCommentAt "x =-- note\n    1\n".toList 3 := by
  have hs : ofSource "x =-- note\n    1\n".toList =
      .ok ⟨"x =-- note\n    1\n".toList, [⟨.name, "x", 0, 1, 1, 1, 1⟩, ⟨.operator, "=--", 2, 5, 1, 3, 1⟩,
        ⟨.name, "note", 6, 10, 1, 7, 1⟩, ⟨.number, "1", 15, 16, 2, 5, 2⟩], []⟩ := rfl
  refine ⟨_, hs, ⟨⟨.operator, "=--", 2, 5, 1, 3, 1⟩, by simp, rfl, by decide⟩, ⟨by decide, by decide, nofun⟩, ?_⟩
  rintro ⟨c, hc, -⟩
  cases hc

end Scanned

end ElmLint
