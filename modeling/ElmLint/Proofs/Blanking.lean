import ElmLint.Proofs.Partition
import ElmLint.Proofs.WordTokens

/-!
# Scanning a scanned text again

In the text of a scanned source the comments are blanked out, so after a token there may be less than there was. A word of most
classes stays a word when there is less after it (`Settled`), and a quote that is left open stays so (`Whole`). Hence every
token of the source is a token of the scanned text (`Faded.firstPiece?_token`), while blanks and comments run together into blanks
(`Tiles.rescanned`).

* `Scanned.ofSource_text`: a scanned text is scanned into itself, with the same tokens and no comments, and it is laid out like the
  source.
-/

namespace ElmLint

/-! ## Words with less text after them -/

/-- A length that less text does not change: a word stays a word, and where there is none there is still none. -/
structure Settled (length? : List Char → Option Nat) : Prop where
  word : ∀ {w v r : List Char}, length? (w ++ (v ++ r)) = some w.length → length? (w ++ v) = some w.length
  none : ∀ {v r : List Char}, length? (v ++ r) = none → length? v = none

theorem head?_any_of_append {p : Char → Bool} {v r : List Char} (h : (v ++ r).head?.any p = false) : v.head?.any p = false := by
  cases v with
  | nil => rfl
  | cons c v => exact h

theorem settled_someRun? (p : Char → Bool) : Settled (someRun? p) := by
  constructor
  · intro w v r h
    rw [someRun?_append_iff] at h ⊢
    exact ⟨h.1, h.2.1, head?_any_of_append h.2.2⟩
  · intro v r h
    rw [someRun?_eq_none_iff] at h ⊢
    exact head?_any_of_append h

theorem settled_nameLength? (first : Char → Bool) : Settled (nameLength? first) := by
  constructor
  · intro w v r h
    cases w with
    | nil => exact absurd (reads_nameLength? first _ _ h).1 (Nat.lt_irrefl 0)
    | cons c w =>
      rw [nameLength?_append_iff] at h ⊢
      exact ⟨h.1, h.2.1, head?_any_of_append h.2.2⟩
  · intro v r h
    cases v with
    | nil => rfl
    | cons c v =>
      simp only [List.cons_append, nameLength?] at h ⊢
      split at h
      · cases h
      · next hc => rw [if_neg hc]

theorem settled_exactLength? (text : List Char) : Settled (exactLength? text) := by
  constructor
  · intro w v r h
    obtain ⟨hbegins, hlength⟩ := exactLength?_eq_some_iff.1 h
    have hw : text <+: w := List.prefix_of_prefix_length_le hbegins (List.prefix_append _ _) hlength.ge
    exact exactLength?_eq_some_iff.2 ⟨hw.trans (List.prefix_append _ _), hlength⟩
  · intro v r h
    unfold exactLength? at h ⊢
    split at h
    · cases h
    · next hnot =>
      refine if_neg fun hbegins => hnot ?_
      exact List.isPrefixOf_iff_prefix.2 ((List.isPrefixOf_iff_prefix.1 hbegins).trans (List.prefix_append _ _))

theorem settled_orElse {f g : List Char → Option Nat} (hf : Settled f) (hg : Settled g) : Settled fun cs => f cs <|> g cs := by
  constructor
  · intro w v r h
    simp only [Option.orElse_eq_orElse, Option.orElse_eq_or, Option.or_eq_some_iff] at h ⊢
    rcases h with h | ⟨hnone, h⟩
    · exact .inl (hf.word h)
    · rw [← List.append_assoc] at hnone
      exact .inr ⟨hf.none hnone, hg.word h⟩
  · intro v r h
    simp only [Option.orElse_eq_orElse, Option.orElse_eq_or, Option.or_eq_none_iff] at h ⊢
    exact ⟨hf.none h.1, hg.none h.2⟩

/-- A given text before what a settled length tells of. -/
theorem settled_after (text : List Char) {f g : List Char → Option Nat} (hf : Settled f)
    (hg : ∀ rest, g (text ++ rest) = (f rest).map (· + text.length)) (hnone : ∀ cs, ¬ text <+: cs → g cs = none) : Settled g := by
  constructor
  · intro w v r h
    obtain ⟨w, rfl, hword⟩ := exists_of_after text hg hnone h
    rw [List.append_assoc, hg, hf.word hword, Option.map_some, List.length_append, Nat.add_comm]
  · intro v r h
    by_cases hbegins : text <+: v
    · obtain ⟨v, rfl⟩ := hbegins
      rw [List.append_assoc, hg, Option.map_eq_none_iff] at h
      rw [hg, hf.none h]
      rfl
    · exact hnone v hbegins

theorem settled_hexLength? : Settled hexLength? :=
  settled_after ['0', 'x'] (settled_someRun? isHexDigit) (fun _ => rfl) fun _ => hexLength?_eq_none

section Digits

variable (digit : Char → Bool)

theorem settled_fractionLength? : Settled (fractionLength? digit) :=
  settled_after ['.'] (settled_someRun? digit) (fun _ => rfl) fun _ => fractionLength?_eq_none digit

theorem settled_exponentLength? : Settled (exponentLength? digit) := by
  have hrun := settled_someRun? digit
  constructor
  · intro w v r h
    rcases w with _ | ⟨e, _ | ⟨sign, w⟩⟩
    · exact absurd (reads_exponentLength? digit _ _ h).1 (Nat.lt_irrefl 0)
    · exact absurd h (exponentLength?_ne_one digit _)
    · simp only [List.cons_append, exponentLength?, List.length_cons] at h ⊢
      split at h
      · next he =>
        rw [if_pos he]
        split at h
        · next hsign =>
          rw [if_pos hsign, hrun.word (w := w) (r := r) (by simpa using h)]
          rfl
        · next hsign =>
          have hword := hrun.word (w := sign :: w) (v := v) (r := r) (by simpa using h)
          rw [List.cons_append] at hword
          rw [if_neg hsign, hword]
          rfl
      · cases h
  · intro v r h
    rcases v with _ | ⟨e, _ | ⟨sign, v⟩⟩
    · rfl
    · rfl
    · simp only [List.cons_append, exponentLength?] at h ⊢
      split at h
      · next he =>
        rw [if_pos he]
        split at h
        · next hsign =>
          rw [if_pos hsign, hrun.none (Option.map_eq_none_iff.1 h)]
          rfl
        · next hsign =>
          rw [if_neg hsign, hrun.none (v := sign :: v) (Option.map_eq_none_iff.1 h)]
          rfl
      · next he => rw [if_neg he]

theorem settled_scaleLength? : Settled (scaleLength? digit) := by
  have hfractions := settled_fractionLength? digit
  have hexponents := settled_exponentLength? digit
  constructor
  · intro w v r h
    rcases exists_of_scaleLength? digit h with ⟨hfraction, hexponent⟩ | ⟨w₁, w₂, rfl, hfraction, hexponent⟩
    · rw [← List.append_assoc] at hfraction
      rw [scaleLength?, hfractions.none hfraction]
      exact hexponents.word hexponent
    · have hrest : (exponentLength? digit (w₂ ++ v)).getD 0 = w₂.length := by
        rcases hexponent with hexponent | ⟨rfl, hexponent⟩
        · rw [hexponents.word hexponent]
          rfl
        · rw [List.nil_append, hexponents.none hexponent]
          rfl
      rw [← List.append_assoc w₂] at hfraction
      rw [scaleLength?, List.append_assoc, hfractions.word hfraction]
      simp only [List.drop_left, List.length_append, hrest]
  · intro v r h
    unfold scaleLength? at h
    split at h
    · cases h
    · next hfraction =>
      rw [scaleLength?, hfractions.none hfraction]
      exact hexponents.none h

theorem settled_floatLength? : Settled (floatLength? digit) := by
  constructor
  · intro w v r h
    obtain ⟨w₁, w₂, rfl, hwhole, hscale⟩ := exists_of_floatLength? digit h
    rw [← List.append_assoc w₂] at hwhole
    rw [floatLength?_eq, List.append_assoc, (settled_someRun? digit).word hwhole, Option.bind_some, List.drop_left,
      (settled_scaleLength? digit).word hscale, Option.map_some, List.length_append]
  · intro v r h
    rw [floatLength?_eq, Option.bind_eq_none_iff] at h ⊢
    intro whole hwhole
    obtain ⟨v₁, v₂, rfl, rfl⟩ := exists_append_of_le (reads_someRun? digit _ whole hwhole).2
    rw [List.drop_left]
    cases v₂ with
    | nil => rfl
    | cons c v₂ =>
      -- The digits end before `c`, also when more comes after it.
      rw [someRun?_append_iff] at hwhole
      have hsame : someRun? digit (v₁ ++ (c :: v₂ ++ r)) = some v₁.length := someRun?_append_iff.2 hwhole
      rw [List.append_assoc] at h
      have hnone := h v₁.length hsame
      rw [List.drop_left, Option.map_eq_none_iff] at hnone
      rw [(settled_scaleLength? digit).none hnone]
      rfl

theorem settled_numberLength? : Settled (numberLength? digit) :=
  settled_orElse settled_hexLength? (settled_orElse (settled_floatLength? digit) (settled_someRun? digit))

end Digits

/-- Tokens other than literals and characters by themselves stay tokens when there is less text after them. -/
theorem settled_pieceClasses {p : Piece.Kind × (List Char → Option Nat)} (hp : p ∈ pieceClasses) {kind : Token.Kind}
    (hkind : p.1 = .token kind) (hsolid : kind.isSolidKind = true) : Settled p.2 := by
  simp only [pieceClasses, List.mem_cons, List.not_mem_nil, or_false] at hp
  rcases hp with rfl | rfl | rfl | rfl | rfl | rfl | rfl | rfl
  · cases hkind
    cases hsolid
  · cases hkind
    cases hsolid
  · exact settled_numberLength? isDigit
  · exact settled_nameLength? _
  · constructor
    · intro w v r h
      cases w with
      | nil =>
        simp only at h
        split at h <;> cases h
      | cons c w => exact h
    · intro v r h
      cases v with
      | nil => rfl
      | cons c v => exact h
  · exact settled_exactLength? _
  · exact settled_someRun? _
  · cases hkind

/-! ## Texts with comments blanked out -/

/-- A text and what is left of it with its comments blanked out. A quote or a backslash is followed by what it was, or by less;
solid characters are followed by those that were there, up to a comment. -/
structure Faded (cs l : List Char) : Prop where
  veil : Veil cs l
  backslash : Veil ('\\' :: cs) ('\\' :: l)
  line : ∀ cs', cs = '\n' :: cs' → ∃ l', l = '\n' :: l' ∧ Veil cs' l'
  solid : l.takeWhile isSolid <+: cs.takeWhile isSolid
  quote : cs.head? = some '\'' → l.head? = some '\''

theorem Veil.refl (s : List Char) : Veil s s := by
  have hnil : Veil [] [] := .ending (List.forall_mem_nil _)
  have hback : Veil ['\\'] ['\\'] := .ending (by simp [isQuote])
  simpa using hnil.append s fun _ => hback

namespace Faded

variable {cs l : List Char}

theorem nil : Faded [] [] := ⟨.refl _, .refl _, nofun, List.prefix_refl _, nofun⟩

/-- The same characters may stand before both. -/
theorem same (h : Faded cs l) (t : List Char) : Faded (t ++ cs) (t ++ l) := by
  cases t with
  | nil => exact h
  | cons c t =>
    have hafter : Veil (t ++ cs) (t ++ l) := h.veil.append t fun _ => h.backslash
    refine ⟨h.veil.append _ fun _ => h.backslash, .escape c c hafter, fun cs' hcs => ?_, ?_, id⟩
    · obtain ⟨rfl, rfl⟩ := List.cons_eq_cons.1 hcs
      exact ⟨t ++ l, rfl, hafter⟩
    · rw [List.takeWhile_append, List.takeWhile_append]
      split
      · exact (List.prefix_append_right_inj _).2 h.solid
      · exact List.prefix_refl _

/-- A comment may be blanked out before both. -/
theorem comment (h : Faded cs l) {text : List Char} (hfirst : firstPiece? (text ++ cs) = some (.comment, text.length)) :
    Faded (text ++ cs) (text.map blanked ++ l) := by
  obtain ⟨a, rest, rfl, hhead, hveil, hrest⟩ := h.veil.blankedOut hfirst h.line
  refine ⟨hveil, .escape a (blanked a) hrest, fun cs' hcs => ?_, ?_, fun hquote => ?_⟩
  · obtain ⟨rfl, -⟩ := List.cons_eq_cons.1 hcs
    rcases hhead with hhead | hhead <;> cases hhead
  · have hblank : ¬ isSolid (blanked a) = true := by rcases blanked_cases a with ha | ⟨-, ha⟩ <;> rw [ha] <;> decide
    rw [List.map_cons, List.cons_append, List.takeWhile_cons_of_neg hblank]
    exact List.nil_prefix
  · obtain rfl : a = '\'' := Option.some.inj hquote
    rcases hhead with hhead | hhead <;> cases hhead

end Faded

/-- What is visible of a text is the text with its comments blanked out. -/
theorem Tiles.faded {offset : Nat} {ps : List Piece} {cs : List Char} (h : Tiles offset ps cs) :
    Faded cs (ps.flatMap Piece.visible) := by
  induction h with
  | nil => exact .nil
  | @cons offset p ps cs _ _ hfirst _ ih =>
    rw [List.flatMap_cons, Piece.visible]
    split
    · next hkind =>
      rw [hkind] at hfirst
      exact ih.comment hfirst
    · exact ih.same p.text

/-! ## Tokens with less text after them -/

/-- Where a piece of a class other than literals can begin, one does. -/
theorem Piece.Kind.exists_length? {p : Piece.Kind × (List Char → Option Nat)} (hp : p ∈ pieceClasses)
    (hliteral : p.1 ≠ .token .string ∧ p.1 ≠ .token .char) {c : Char} (hc : p.1.begins c = true) (cs : List Char) :
    ∃ n, p.2 (c :: cs) = some n := by
  have hrun : ∀ {q : Char → Bool}, q c = true → ∃ n, someRun? q (c :: cs) = some n := by
    intro q hq
    cases hnone : someRun? q (c :: cs) with
    | none =>
      rw [someRun?_eq_none_iff, List.head?_cons, Option.any_some, hq] at hnone
      cases hnone
    | some n => exact ⟨n, rfl⟩
  simp only [pieceClasses, List.mem_cons, List.not_mem_nil, or_false] at hp
  rcases hp with rfl | rfl | rfl | rfl | rfl | rfl | rfl | rfl
  · exact absurd rfl hliteral.1
  · exact absurd rfl hliteral.2
  · obtain ⟨n, hn⟩ := hrun (q := isDigit) hc
    simp only [numberLength?, hn]
    cases hexLength? (c :: cs) <;> cases floatLength? isDigit (c :: cs) <;> exact ⟨_, rfl⟩
  · exact ⟨_, if_pos hc⟩
  · exact ⟨1, if_pos hc⟩
  · obtain rfl := beq_iff_eq.1 hc
    exact ⟨1, rfl⟩
  · exact hrun hc
  · exact hrun hc

namespace Faded

variable {cs l w : List Char} {kind : Token.Kind}

/-- A literal, or a quote that is left open, stays what it is. -/
theorem literal_eq (h : Faded cs l) (hfirst : firstPiece? (w ++ cs) = some (.token kind, w.length)) :
    stringLength? true (w ++ l) = stringLength? true (w ++ cs) ∧ charLength? true (w ++ l) = charLength? true (w ++ cs) := by
  have hne : w ≠ [] := List.length_pos_iff.1 (firstPiece?_pos hfirst)
  obtain ⟨c, w, rfl⟩ := List.exists_cons_of_ne_nil hne
  by_cases hquote : isQuote c = true
  · have hwhole : Whole (c :: w) l := whole_of_token hquote hfirst h.veil fun _ => h.quote
    have hwhole' : Whole (c :: w) cs := whole_of_token hquote hfirst (.refl cs) fun _ => id
    exact ⟨hwhole.string.trans hwhole'.string.symm, hwhole.char.trans hwhole'.char.symm⟩
  · have hstring : ∀ rest, stringLength? true (c :: rest) = none := fun rest =>
      Option.eq_none_iff_forall_ne_some.2 fun n hn => hquote (by rw [eq_of_stringLength? hn]; rfl)
    have hchar : ∀ rest, charLength? true (c :: rest) = none := fun rest =>
      Option.eq_none_iff_forall_ne_some.2 fun n hn => hquote (by rw [eq_of_charLength? hn]; rfl)
    simp only [List.cons_append, hstring, hchar, and_self]

/-- A class that has no piece at the start of the text has none at the start of what is left of it. -/
theorem length?_eq_none (h : Faded cs l) (hfirst : firstPiece? (w ++ cs) = some (.token kind, w.length))
    {p : Piece.Kind × (List Char → Option Nat)} (hp : p ∈ pieceClasses) (hnone : p.2 (w ++ cs) = none) : p.2 (w ++ l) = none := by
  by_cases hliteral : p.1 ≠ .token .string ∧ p.1 ≠ .token .char
  · -- Other classes tell by the first character.
    obtain ⟨c, w, rfl⟩ := List.exists_cons_of_ne_nil (List.length_pos_iff.1 (firstPiece?_pos hfirst))
    refine Option.eq_none_iff_forall_ne_some.2 fun n hn => ?_
    obtain ⟨m, hm⟩ := Piece.Kind.exists_length? hp hliteral (Piece.Kind.begins_of_length? hp hn) (w ++ cs)
    cases hnone.symm.trans hm
  · obtain ⟨hstring, hchar⟩ := h.literal_eq hfirst
    simp only [pieceClasses, List.mem_cons, List.not_mem_nil, or_false] at hp
    rcases hp with rfl | rfl | rfl | rfl | rfl | rfl | rfl | rfl
    · exact hstring.trans hnone
    · exact hchar.trans hnone
    all_goals exact absurd (by decide) hliteral

/-- A class that has the token at the start of the text still has it at the start of what is left of it. -/
theorem length?_eq_some (h : Faded cs l) (hfirst : firstPiece? (w ++ cs) = some (.token kind, w.length))
    {p : Piece.Kind × (List Char → Option Nat)} (hp : p ∈ pieceClasses) (hkind : p.1 = .token kind)
    (hsome : p.2 (w ++ cs) = some w.length) : p.2 (w ++ l) = some w.length := by
  by_cases hsolid : kind.isSolidKind = true
  · have hcontained := contained_pieceClasses hp hkind hsolid
    have hw := hcontained.isSolid (reads_pieceClasses p hp) hsome
    rw [List.take_left] at hw
    obtain ⟨rest, hrest⟩ := h.solid
    rw [← hcontained, List.takeWhile_append_of_pos hw, ← hrest] at hsome
    rw [← hcontained, List.takeWhile_append_of_pos hw]
    exact (settled_pieceClasses hp hkind hsolid).word hsome
  · obtain ⟨hstring, hchar⟩ := h.literal_eq hfirst
    simp only [pieceClasses, List.mem_cons, List.not_mem_nil, or_false] at hp
    rcases hp with rfl | rfl | rfl | rfl | rfl | rfl | rfl | rfl
    · exact hstring.trans hsome
    · exact hchar.trans hsome
    all_goals
      cases hkind
      try exact absurd rfl hsolid

/-- No comment begins where none did. -/
theorem prefix_of_minus (h : Faded cs l) (hne : w ≠ []) {d : Char} (hbegins : [d, '-'] <+: w ++ l) : [d, '-'] <+: w ++ cs := by
  obtain ⟨c, w, rfl⟩ := List.exists_cons_of_ne_nil hne
  obtain ⟨hd, hminus⟩ := List.cons_prefix_cons.1 hbegins
  refine List.cons_prefix_cons.2 ⟨hd, ?_⟩
  cases w with
  | nil =>
    have hl : ['-'] <+: l.takeWhile isSolid := (prefix_takeWhile_iff (List.forall_mem_singleton.2 rfl)).2 hminus
    exact (hl.trans h.solid).trans (List.takeWhile_prefix _)
  | cons e w =>
    obtain ⟨rfl, -⟩ := List.cons_prefix_cons.1 hminus
    exact ⟨w ++ cs, rfl⟩

/-- **A token stays a token** with the comments after it blanked out. -/
theorem firstPiece?_token (h : Faded cs l) (hfirst : firstPiece? (w ++ cs) = some (.token kind, w.length)) :
    firstPiece? (w ++ l) = some (.token kind, w.length) := by
  have hne : w ≠ [] := List.length_pos_iff.1 (firstPiece?_pos hfirst)
  obtain ⟨hblock, hline⟩ := not_comment_of_token hfirst
  have heq := hfirst
  rw [firstPiece?_eq hblock hline] at heq
  rw [firstPiece?_eq (fun hbegins => hblock (h.prefix_of_minus hne hbegins)) fun hbegins => hline (h.prefix_of_minus hne hbegins),
    ← heq]
  congr 2
  cases hfound : pieceClasses.findSome? fun p => (p.2 (w ++ cs)).map (p.1, ·) with
  | none =>
    rw [List.findSome?_eq_none_iff] at hfound ⊢
    exact fun p hp => Option.map_eq_none_iff.2 (h.length?_eq_none hfirst hp (Option.map_eq_none_iff.1 (hfound p hp)))
  | some found =>
    rw [hfound] at heq
    obtain rfl : found = (.token kind, w.length) := Option.some.inj heq
    obtain ⟨before, p, after, hclasses, hp, hbefore⟩ := List.findSome?_eq_some_iff.1 hfound
    obtain ⟨n, hn, hpair⟩ := Option.map_eq_some_iff.1 hp
    obtain ⟨hkind, rfl⟩ := Prod.mk.inj hpair
    have hmem : ∀ q ∈ before ++ [p], q ∈ pieceClasses := by
      intro q hq
      rw [hclasses]
      simp only [List.mem_append, List.mem_cons, List.not_mem_nil, or_false] at hq ⊢
      tauto
    refine List.findSome?_eq_some_iff.2 ⟨before, p, after, hclasses, ?_, fun q hq => ?_⟩
    · change (p.2 (w ++ l)).map (p.1, ·) = _
      rw [h.length?_eq_some hfirst (hmem p (by simp)) hkind hn, ← hkind]
      rfl
    · change (q.2 (w ++ l)).map (q.1, ·) = _
      rw [h.length?_eq_none hfirst (hmem q (by simp [hq])) (Option.map_eq_none_iff.1 (hbefore q hq))]
      rfl

end Faded

/-! ## Pieces of a scanned text -/

/-- Pieces that make up a text with no comment among them are visible as they are. -/
theorem Tiles.flatMap_visible_of_no_comment {offset : Nat} {ps : List Piece} {cs : List Char} (h : Tiles offset ps cs) :
    (∀ p ∈ ps, p.kind ≠ .comment) → ps.flatMap Piece.visible = cs := by
  induction h with
  | nil => exact fun _ => rfl
  | @cons offset p ps cs _ _ _ _ ih =>
    intro hnone
    rw [List.flatMap_cons, Piece.visible, if_neg (hnone p List.mem_cons_self), ih fun q hq => hnone q (List.mem_cons_of_mem p hq)]

/-- Blanks may stand before pieces that do not begin with one. -/
theorem Tiles.blanks {offset start : Nat} {ps : List Piece} {cs bs : List Char} (h : Tiles offset ps cs)
    (hcs : ∀ c ∈ cs.head?, isBlank c = false) (hbs : ∀ c ∈ bs, isBlank c = true) (hoffset : start + bs.length = offset) :
    ∃ before, (∀ p ∈ before, p.kind = .blank) ∧ Tiles start (before ++ ps) (bs ++ cs) := by
  by_cases hne : bs = []
  · subst hne hoffset
    exact ⟨[], nofun, h⟩
  · refine ⟨[⟨.blank, start, bs⟩], by simp, .cons rfl hne (firstPiece?_blanks hne hbs hcs) ?_⟩
    rw [Piece.stop, hoffset]
    exact h

/-- Blanks before some pieces bring neither a comment nor a token. -/
theorem Piece.filterMap_blanks {before ps : List Piece} (starts : List Nat) (hbefore : ∀ p ∈ before, p.kind = .blank)
    (hps : ∀ p ∈ ps, p.kind ≠ .comment) : (∀ p ∈ before ++ ps, p.kind ≠ .comment) ∧
      (before ++ ps).filterMap (Piece.token? starts) = ps.filterMap (Piece.token? starts) := by
  constructor
  · intro p hp
    rcases List.mem_append.1 hp with hp | hp
    · rw [hbefore p hp]
      nofun
    · exact hps p hp
  · have hnone : before.filterMap (Piece.token? starts) = [] :=
      List.filterMap_eq_nil_iff.2 fun p hp => by rw [Piece.token?, hbefore p hp]
    rw [List.filterMap_append, hnone, List.nil_append]

/-- What is visible of some pieces, after blanks, is cut into the same tokens and into blanks. -/
theorem Tiles.rescanned (starts : List Nat) {offset : Nat} {ps : List Piece} {cs : List Char} (h : Tiles offset ps cs) :
    ∀ (start : Nat) (bs : List Char), start + bs.length = offset → (∀ c ∈ bs, isBlank c = true) →
    ∃ qs, Tiles start qs (bs ++ ps.flatMap Piece.visible) ∧ (∀ q ∈ qs, q.kind ≠ .comment) ∧
      qs.filterMap (Piece.token? starts) = ps.filterMap (Piece.token? starts) := by
  induction h with
  | nil offset =>
    intro start bs hoffset hbs
    obtain ⟨before, hbefore, htiles⟩ := (Tiles.nil offset).blanks (fun c hc => by cases hc) hbs hoffset
    exact ⟨before ++ [], htiles, Piece.filterMap_blanks starts hbefore (List.forall_mem_nil _)⟩
  | @cons offset p ps cs hstart htext hfirst htail ih =>
    intro start bs hoffset hbs
    rw [List.flatMap_cons]
    cases ht : p.token? starts with
    | none =>
      -- Blanks and comments join the blanks before them.
      have hvisible := Piece.isBlank_visible ht hfirst
      have hstop : start + (bs ++ p.visible).length = p.stop := by
        rw [List.length_append, length_visible, Piece.stop, hstart, ← hoffset, Nat.add_assoc]
      obtain ⟨qs, htiles, hqs, htokens⟩ := ih start (bs ++ p.visible) hstop
        fun c hc => (List.mem_append.1 hc).elim (hbs c) (hvisible c)
      rw [List.append_assoc] at htiles
      exact ⟨qs, htiles, hqs, by rw [htokens, List.filterMap_cons_none ht]⟩
    | some t =>
      have hkind := (Piece.of_token? ht).1
      obtain ⟨qs, htiles, hqs, htokens⟩ := ih p.stop [] rfl (List.forall_mem_nil _)
      have hsame : firstPiece? (p.text ++ ps.flatMap Piece.visible) = some (p.kind, p.text.length) := by
        rw [hkind] at hfirst ⊢
        exact htail.faded.firstPiece?_token hfirst
      have hhead : ∀ c ∈ (p.text ++ ps.flatMap Piece.visible).head?, isBlank c = false := by
        intro c hc
        rw [hkind] at hfirst
        rw [List.head?_append_of_ne_nil _ htext] at hc
        exact isBlank_of_token hfirst c hc
      obtain ⟨before, hbefore, hall⟩ := (Tiles.cons hstart htext hsame htiles).blanks hhead hbs hoffset
      rw [Layout.visible_of_token? ht]
      have hplain : p.kind ≠ .comment := by
        rw [hkind]
        exact Piece.Kind.noConfusion
      have hnone : ∀ q ∈ p :: qs, q.kind ≠ .comment := by
        intro q hq
        rcases List.mem_cons.1 hq with rfl | hq
        · exact hplain
        · exact hqs q hq
      obtain ⟨hcomments, hfilter⟩ := Piece.filterMap_blanks starts hbefore hnone
      exact ⟨before ++ p :: qs, hall, hcomments, by
        rw [hfilter, List.filterMap_cons_some ht, List.filterMap_cons_some ht, htokens]⟩

namespace Scanned

variable {source : List Char} {s : Scanned}

/-- **Blanking comments out is done once and for all**: a scanned text is scanned into itself, with the same tokens and no
comments, and so it is laid out like the source. -/
theorem ofSource_text (hs : ofSource source = .ok s) : ofSource s.text = .ok { s with comments := [] } ∧
    ∃ l l', LaidOut.ofSource source = .ok l ∧ LaidOut.ofSource s.text = .ok l' ∧ l'.text = l.text ∧ l'.markers = l.markers := by
  have htext : ofSource s.text = .ok { s with comments := [] } := by
    obtain ⟨ps, htiles, rfl⟩ := ofSource_ok_iff.1 hs
    obtain ⟨qs, htiles', hcomments, htokens⟩ := htiles.rescanned (lineStarts source) 0 [] rfl nofun
    have hnone : qs.filterMap (Piece.comment? (lineStarts source)) = [] :=
      List.filterMap_eq_nil_iff.2 fun q hq => if_neg (hcomments q hq)
    refine ofSource_ok_iff.2 ⟨qs, htiles', ?_⟩
    rw [htiles.lineStarts_visible, htokens, hnone, htiles'.flatMap_visible_of_no_comment hcomments]
    rfl
  exact ⟨htext, _, _, LaidOut.ofSource_ok_iff.2 ⟨s, hs, rfl⟩, LaidOut.ofSource_ok_iff.2 ⟨_, htext, rfl⟩, rfl, rfl⟩

/-- A quote left open before a comment with an escaped quote, a comment inside what would be a number, and one that ends with a
backslash. -/
theorem ofSource_text_openQuote : ∃ s, ofSource "x=\" \x7b-\\\"-\x7d 1e-\x7b-2-\x7d5--\\\n y".toList = .ok s ∧
    s.text = "x=\"        1e-     5   \n y".toList ∧ s.comments.length = 3 ∧ s.tokens.length = 8 ∧
    ofSource s.text = .ok { s with comments := [] } ∧
    ∃ l l', LaidOut.ofSource "x=\" \x7b-\\\"-\x7d 1e-\x7b-2-\x7d5--\\\n y".toList = .ok l ∧
      LaidOut.ofSource s.text = .ok l' ∧ l'.text = l.text ∧ l'.markers = l.markers := by
  have hs : ∃ s, ofSource "x=\" \x7b-\\\"-\x7d 1e-\x7b-2-\x7d5--\\\n y".toList = .ok s ∧
      s.text = "x=\"        1e-     5   \n y".toList ∧ s.comments.length = 3 ∧ s.tokens.length = 8 :=
    ⟨_, rfl, by decide, by decide, by decide⟩
  obtain ⟨s, hs, htext, hcomments, htokens⟩ := hs
  exact ⟨s, hs, htext, hcomments, htokens, ofSource_text hs⟩

end Scanned

end ElmLint
