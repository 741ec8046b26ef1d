import ElmLint.Proofs.Insertions
import ElmLint.Proofs.LaidQuotes
import ElmLint.Proofs.OffSide
import ElmLint.Proofs.Partition
import Mathlib.Data.List.Basic
import Mathlib.Data.List.Induction

/-!
# Items without a token

A closing bracket, or a comma between brackets, ends the blocks that were opened inside these brackets. Layout looks at the column of
such a token before it looks at the token itself. So where the token starts a line in the column of a block that it ends, it separates
an item first, and this item is empty. That is the only way to get an empty item:

* `Layout.step_separates_iff` tells which tokens separate items, and `Layout.delimit_eq_nil` which of these end no block;
* `Layout.Stacked` is the order of the open blocks by their brackets, which every step keeps (`Layout.Stacked.step`); by it the blocks of
  a bracket are ended whatever the columns are (`Layout.depth_lt_of_ends`);
* `LaidOut.empty_items_are_aligned` puts this together, for every source with matched brackets.
-/

namespace ElmLint

/-! ## Brackets -/

/-- How many brackets are open after a token when `n` are open before it. -/
def Token.bracketsAfter (t : Token) (n : Nat) : Nat := if t.opens then n + 1 else if t.closes then n - 1 else n

/-- How many brackets are open after some tokens. -/
def openBrackets (tokens : List Token) : Nat := tokens.foldl (fun n t => t.bracketsAfter n) 0

/-- Inside `n` brackets, every closing bracket closes one that is open, and none is left open. -/
def matchedFrom : Nat → List Token → Bool
  | n, [] => n == 0
  | n, t :: ts => (!t.closes || n != 0) && matchedFrom (t.bracketsAfter n) ts

/-- The brackets among tokens are matched. -/
def Matched (tokens : List Token) : Prop := matchedFrom 0 tokens = true

instance (tokens : List Token) : Decidable (Matched tokens) := inferInstanceAs (Decidable (_ = true))

/-- A token that ends the blocks inside its brackets: a closing bracket, or a comma between brackets. -/
def Token.Ends (t : Token) (depth : Nat) : Prop := t.closes = true ∨ t.kind = .comma ∧ 0 < depth

theorem matchedFrom_append {rest : List Token} : ∀ (before : List Token) {n : Nat},
    matchedFrom n (before ++ rest) = true → matchedFrom (before.foldl (fun n t => t.bracketsAfter n) n) rest = true
  | [], _, h => h
  | t :: before, n, h => by
    rw [List.cons_append, matchedFrom, Bool.and_eq_true] at h
    exact matchedFrom_append before h.2

/-- Where brackets are matched, a token that ends blocks stands between brackets. -/
theorem Matched.openBrackets_pos {before after : List Token} {t : Token} (h : Matched (before ++ t :: after))
    (ht : t.Ends (openBrackets before)) : 0 < openBrackets before := by
  have hrest := matchedFrom_append before h
  rw [matchedFrom, Bool.and_eq_true] at hrest
  rcases ht with hcloses | ⟨-, hpos⟩
  · have hne := hrest.1
    rw [hcloses] at hne
    refine Nat.pos_of_ne_zero ?_
    simpa [openBrackets] using hne
  · exact hpos

namespace Layout

/-! ## Which markers a step writes -/

theorem closeDeeper_eq (column : Nat) : ∀ blocks : List Block,
    (∀ m ∈ (closeDeeper column blocks).1, m = .closing) ∧
      (closeDeeper column blocks).2.1 = blocks.dropWhile fun b => column < b.column
  | [] => ⟨nofun, rfl⟩
  | b :: blocks => by
    obtain ⟨hclosing, hleft⟩ := closeDeeper_eq column blocks
    rw [closeDeeper, List.dropWhile_cons]
    by_cases h : column < b.column
    · simp only [if_pos h, decide_eq_true h]
      exact ⟨List.forall_mem_cons.2 ⟨rfl, hclosing⟩, hleft⟩
    · simp [h]

theorem closeBracketed_eq (depth : Nat) : ∀ blocks : List Block,
    (∀ m ∈ (closeBracketed depth blocks).1, m = .closing) ∧
      (closeBracketed depth blocks).2 = blocks.dropWhile fun b => depth ≤ b.depth
  | [] => ⟨nofun, rfl⟩
  | b :: blocks => by
    obtain ⟨hclosing, hleft⟩ := closeBracketed_eq depth blocks
    rw [closeBracketed, List.dropWhile_cons]
    by_cases h : depth ≤ b.depth
    · simp only [if_pos h, decide_eq_true h]
      exact ⟨List.forall_mem_cons.2 ⟨rfl, hclosing⟩, hleft⟩
    · simp [h]

theorem closeLet_some {depth : Nat} : ∀ {blocks left : List Block} {ms : List Marker},
    closeLet depth blocks = some (ms, left) → (∀ m ∈ ms, m = .closing) ∧ left <:+ blocks
  | [], _, _, h => by cases h
  | b :: blocks, left, ms, h => by
    unfold closeLet at h
    split at h
    · cases h
    · split at h
      · cases h
        exact ⟨by simp, List.suffix_cons b blocks⟩
      · obtain ⟨⟨ms', left'⟩, hrest, heq⟩ := Option.map_eq_some_iff.1 h
        cases heq
        obtain ⟨hclosing, hleft⟩ := closeLet_some hrest
        exact ⟨List.forall_mem_cons.2 ⟨rfl, hclosing⟩, hleft.trans (List.suffix_cons b blocks)⟩

/-- What a token does by itself: its markers close blocks, the blocks left are outer ones, and it counts its bracket. -/
theorem delimit_spec (s : State) (t : Token) : (∀ m ∈ (delimit s t).1, m = .closing) ∧
    (delimit s t).2.blocks <:+ s.blocks ∧ (delimit s t).2.depth = t.bracketsAfter s.depth ∧
    (delimit s t).2.pending = if t.isName "of" then some .ofBlock else if t.isName "let" then some .letBlock else s.pending := by
  obtain ⟨hclosing, hleft⟩ := closeBracketed_eq s.depth s.blocks
  have hsuffix : (closeBracketed s.depth s.blocks).2 <:+ s.blocks := by
    rw [hleft]
    exact List.dropWhile_suffix _
  unfold delimit Token.bracketsAfter Token.opens Token.closes Token.isName
  cases t.kind with
  | bracket =>
    simp only
    split
    · next hopens => simp [hopens]
    · next hopens => simpa [hopens] using ⟨hclosing, hsuffix⟩
  | comma =>
    simp only
    split
    · simp
    · simpa using ⟨hclosing, hsuffix⟩
  | name =>
    simp only
    split
    · next hof => simp [beq_iff_eq.1 hof]
    · next hof =>
      split
      · next hlet => simp [beq_iff_eq.1 hlet]
      · next hlet =>
        split
        · next hin =>
          split
          · simp [beq_iff_eq.1 hin]
          · split
            · next hclose => simpa [beq_iff_eq.1 hin] using closeLet_some hclose
            · simp [beq_iff_eq.1 hin]
        · simp_all
  | _ => simp

/-- A token of another text than `in` that ends no block by itself writes nothing by itself. -/
theorem delimit_eq_nil {s : State} {t : Token} (hin : t.text ≠ "in") (h : ¬t.Ends s.depth) : (delimit s t).1 = [] := by
  rw [Token.Ends, not_or, not_and] at h
  obtain ⟨hcloses, hcomma⟩ := h
  unfold delimit
  cases hkind : t.kind with
  | bracket =>
    simp only [Token.closes, hkind, beq_self_eq_true, Bool.true_and, Bool.not_eq_true', Bool.not_eq_false] at hcloses
    simp only [hcloses, if_true]
  | comma =>
    have hzero : s.depth = 0 := Nat.eq_zero_of_not_pos (hcomma hkind)
    simp [hzero]
  | name =>
    simp only [beq_iff_eq, hin, if_false]
    split
    · rfl
    · split <;> rfl
  | _ => rfl

/-- A token that ends blocks closes those that were opened inside as many brackets as are open. -/
theorem delimit_of_ends {s : State} {t : Token} (h : t.Ends s.depth) :
    (delimit s t).1 = (closeBracketed s.depth s.blocks).1 ∧
      (delimit s t).2.blocks = s.blocks.dropWhile fun b => s.depth ≤ b.depth := by
  rw [← (closeBracketed_eq s.depth s.blocks).2]
  rcases h with hcloses | ⟨hcomma, hpos⟩
  · rw [delimit_closes hcloses]
    exact ⟨rfl, rfl⟩
  · rw [delimit_comma hcomma (Nat.ne_of_gt hpos)]
    exact ⟨rfl, rfl⟩

/-- The blocks that a token which starts a line does not close by its column. -/
def State.blocksAt (s : State) (column : Nat) : List Block := s.blocks.dropWhile fun b => column < b.column

/-- A token that starts a line where an item of the innermost block left starts. -/
def Separates (s : State) (t : Token) : Prop :=
  s.pending = none ∧ s.previousLine.any (· ≠ t.line) = true ∧ atItemStart (s.blocksAt t.column) t.column s.depth = true ∧
    t.text ≠ "in"

/-- The place of a token opens the pending block, or closes blocks; after that it may separate an item. -/
theorem indent_spec (s : State) (t : Token) : (indent s t).2.depth = s.depth ∧
    ((∃ kind, s.pending = some kind ∧ indent s t = ([.opening], { s with
        blocks := ⟨kind, t.column, s.depth⟩ :: s.blocks, pending := none, previousLine := some t.endLine })) ∨
      (indent s t).2.blocks <:+ s.blocks ∧ ∃ closings, (∀ m ∈ closings, m = .closing) ∧
        (Separates s t ∧ (indent s t).1 = closings ++ [.separating] ∧ (indent s t).2.blocks = s.blocksAt t.column ∨
          ¬Separates s t ∧ (indent s t).1 = closings)) := by
  cases hpending : s.pending with
  | some kind =>
    have hopening := indent_opening (t := t) hpending
    refine ⟨by rw [hopening], .inl ⟨kind, rfl, hopening⟩⟩
  | none =>
    obtain ⟨hclosing, hleft⟩ := closeDeeper_eq t.column s.blocks
    cases hprevious : s.previousLine with
    | none =>
      have hfirst : indent s t = ([], { s with previousLine := some t.endLine }) := by simp [indent, hpending, hprevious]
      have hblocks : (indent s t).2.blocks = s.blocks := by rw [hfirst]
      refine ⟨by rw [hfirst], .inr ⟨hblocks ▸ List.suffix_rfl, [], List.forall_mem_nil _, .inr ⟨?_, by rw [hfirst]⟩⟩⟩
      rintro ⟨-, hline, -⟩
      rw [hprevious] at hline
      cases hline
    | some previous =>
      by_cases hstarts : StartsLine previous t
      · have hline := indent_line hpending hprevious hstarts
        have hany : s.previousLine.any (· ≠ t.line) = true := by
          rw [hprevious]
          exact decide_eq_true fun e => hstarts e.symm
        refine ⟨by rw [hline], .inr ⟨?_, (closeDeeper t.column s.blocks).1, hclosing, ?_⟩⟩
        · rw [hline, hleft]
          exact List.dropWhile_suffix _
        · rw [hline, hleft]
          by_cases hitem : (atItemStart (s.blocksAt t.column) t.column s.depth && t.text != "in") = true
          · have hboth := Bool.and_eq_true_iff.1 hitem
            refine .inl ⟨⟨hpending, hany, hboth.1, by simpa using hboth.2⟩, ?_, rfl⟩
            exact congrArg _ (if_pos hitem)
          · refine .inr ⟨fun h => hitem ?_, ?_⟩
            · simp [h.2.2.1, h.2.2.2]
            · exact (congrArg _ (if_neg hitem)).trans (List.append_nil _)
      · have hinline := indent_inline hpending hprevious hstarts
        have hblocks : (indent s t).2.blocks = s.blocks := by rw [hinline]
        refine ⟨by rw [hinline], .inr ⟨hblocks ▸ List.suffix_rfl, [], List.forall_mem_nil _, .inr ⟨?_, by rw [hinline]⟩⟩⟩
        rintro ⟨-, hline, -⟩
        rw [hprevious] at hline
        exact hstarts fun e => of_decide_eq_true hline e.symm

/-- A step separates an item if the place of the token does, and then the rest of its markers are those of the token itself. -/
theorem step_separates_iff {s : State} {t : Token} {ms' : List Marker} :
    (∃ ms, (step s t).1 = ms ++ .separating :: ms') ↔ Separates s t ∧ ms' = (delimit (indent s t).2 t).1 := by
  have hstep : (step s t).1 = (indent s t).1 ++ (delimit (indent s t).2 t).1 := rfl
  have hdelimited : ∀ m ∈ (delimit (indent s t).2 t).1, m = .closing := (delimit_spec _ t).1
  have hnone : Marker.separating ∉ (delimit (indent s t).2 t).1 := fun h => Marker.noConfusion (hdelimited _ h)
  obtain ⟨-, ⟨kind, hpending, hopening⟩ | ⟨-, closings, hclosings, hcase⟩⟩ := indent_spec s t
  · constructor
    · rintro ⟨ms, hms⟩
      have hmem : Marker.separating ∈ (step s t).1 := by simp [hms]
      rw [hstep, List.mem_append, hopening] at hmem
      rcases hmem with hmem | hmem
      · simp at hmem
      · rw [hopening] at hnone
        exact absurd hmem hnone
    · rintro ⟨⟨hnot, -⟩, -⟩
      rw [hpending] at hnot
      cases hnot
  · have hnot : Marker.separating ∉ closings := fun h => Marker.noConfusion (hclosings _ h)
    rcases hcase with ⟨hseparates, hmarkers, -⟩ | ⟨hseparates, hmarkers⟩
    · rw [hstep, hmarkers, List.append_assoc, List.singleton_append]
      constructor
      · rintro ⟨ms, hms⟩
        obtain ⟨-, -, hrest⟩ := (List.append_cons_inj_of_notMem hnot hnone).1 hms
        exact ⟨hseparates, hrest.symm⟩
      · rintro ⟨-, rfl⟩
        exact ⟨closings, rfl⟩
    · constructor
      · rintro ⟨ms, hms⟩
        have hmem : Marker.separating ∈ (step s t).1 := by simp [hms]
        rw [hstep, hmarkers, List.mem_append] at hmem
        exact absurd hmem (not_or.2 ⟨hnot, hnone⟩)
      · rintro ⟨h, -⟩
        exact absurd h hseparates

/-- A token that separates an item of a block which it ends itself closes the block right away. -/
theorem delimit_of_separates {s : State} {t : Token} {b : Block} (hseparates : Separates s t) (hends : t.Ends s.depth)
    (hb : (s.blocksAt t.column).head? = some b) (hdepth : b.depth = s.depth) :
    ∃ ms, (delimit (indent s t).2 t).1 = .closing :: ms := by
  obtain ⟨hsame, ⟨kind, hpending, -⟩ | ⟨-, closings, -, hcase⟩⟩ := indent_spec s t
  · rw [hseparates.1] at hpending
    cases hpending
  · rcases hcase with ⟨-, -, hblocks⟩ | ⟨hnot, -⟩
    · obtain ⟨left, hleft⟩ := List.head?_eq_some_iff.1 hb
      rw [← hsame] at hends
      rw [(delimit_of_ends hends).1, hblocks, hleft, hsame, closeBracketed, if_pos (Nat.le_of_eq hdepth.symm)]
      exact ⟨_, rfl⟩
    · exact absurd hseparates hnot

/-! ## The state after some tokens -/

/-- What layout remembers after some tokens. -/
def State.after (s : State) (tokens : List Token) : State := tokens.foldl (fun s t => (step s t).2) s

/-- The open blocks are in the order of their brackets, and none has more brackets around it than are open. -/
structure Stacked (s : State) : Prop where
  descending : s.blocks.Pairwise fun inner outer => outer.depth ≤ inner.depth
  depth_le : ∀ b ∈ s.blocks, b.depth ≤ s.depth

theorem after_append (before : List Token) (t : Token) : State.start.after (before ++ [t]) = (step (State.start.after before) t).2 := by
  simp [State.after]

theorem openBrackets_append (before : List Token) (t : Token) :
    openBrackets (before ++ [t]) = t.bracketsAfter (openBrackets before) := by
  simp [openBrackets]

theorem depth_after (tokens : List Token) : (State.start.after tokens).depth = openBrackets tokens := by
  induction tokens using List.reverseRecOn with
  | nil => rfl
  | append_singleton before t ih =>
    have hindent := (indent_spec (State.start.after before) t).1
    have hdelimit := (delimit_spec (indent (State.start.after before) t).2 t).2.2.1
    rw [after_append, openBrackets_append, ← ih, ← hindent]
    exact hdelimit

/-- After the last token, layout knows its last line, and opens a block next if it is `of` or `let`. -/
theorem after_last (before : List Token) (last : Token) :
    (State.start.after (before ++ [last])).previousLine = some last.endLine ∧
      ((State.start.after (before ++ [last])).pending = none ↔ last.isName "of" = false ∧ last.isName "let" = false) := by
  rw [after_append]
  refine ⟨(step_state _ _).1, ?_⟩
  have hpending := (delimit_spec (indent (State.start.after before) last).2 last).2.2.2
  rw [(indent_state (State.start.after before) last).2] at hpending
  have hstep : (step (State.start.after before) last).2.pending = (delimit (indent (State.start.after before) last).2 last).2.pending := rfl
  rw [hstep, hpending]
  cases last.isName "of" <;> cases last.isName "let" <;> simp

/-- Blocks left by brackets have fewer brackets around them. -/
theorem Stacked.depth_lt {s : State} (h : Stacked s) : ∀ b ∈ s.blocks.dropWhile (fun b => s.depth ≤ b.depth), b.depth < s.depth := by
  intro b hb
  cases hleft : s.blocks.dropWhile fun b => s.depth ≤ b.depth with
  | nil => rw [hleft] at hb; cases hb
  | cons c left =>
    have hc : c.depth < s.depth := by
      have := List.head?_dropWhile_not (fun b : Block => decide (s.depth ≤ b.depth)) s.blocks
      rw [hleft] at this
      simpa using this
    have hdescending := h.descending.sublist (List.dropWhile_sublist fun b : Block => decide (s.depth ≤ b.depth))
    rw [hleft] at hdescending hb
    rcases List.mem_cons.1 hb with rfl | hb
    · exact hc
    · exact Nat.lt_of_le_of_lt ((List.pairwise_cons.1 hdescending).1 b hb) hc

theorem Stacked.indent {s : State} (h : Stacked s) (t : Token) : Stacked (indent s t).2 := by
  obtain ⟨hdepth, ⟨kind, -, hopening⟩ | ⟨hsuffix, -⟩⟩ := indent_spec s t
  · rw [hopening]
    exact ⟨List.pairwise_cons.2 ⟨h.depth_le, h.descending⟩, List.forall_mem_cons.2 ⟨Nat.le_refl _, h.depth_le⟩⟩
  · refine ⟨h.descending.sublist hsuffix.sublist, fun b hb => ?_⟩
    rw [hdepth]
    exact h.depth_le b (hsuffix.subset hb)

theorem Stacked.delimit {s : State} (h : Stacked s) (t : Token) : Stacked (delimit s t).2 := by
  obtain ⟨-, hsuffix, hdepth, -⟩ := delimit_spec s t
  refine ⟨h.descending.sublist hsuffix.sublist, fun b hb => ?_⟩
  rw [hdepth, Token.bracketsAfter]
  have hle := h.depth_le b (hsuffix.subset hb)
  by_cases hcloses : t.closes = true
  · have hopens : t.opens = false := by
      simp only [Token.closes, Bool.and_eq_true] at hcloses
      simp only [Token.opens, Bool.and_eq_false_iff]
      exact .inr (by simpa using hcloses.2)
    -- What a closing bracket leaves open has fewer brackets around it.
    rw [(delimit_of_ends (.inl hcloses)).2] at hb
    have := h.depth_lt b hb
    simp only [hopens, hcloses, Bool.false_eq_true, if_false, if_true]
    omega
  · rw [if_neg hcloses]
    split <;> omega

theorem Stacked.step {s : State} (h : Stacked s) (t : Token) : Stacked (step s t).2 := (h.indent t).delimit t

theorem stacked_after (tokens : List Token) : Stacked (State.start.after tokens) := by
  induction tokens using List.reverseRecOn with
  | nil => exact ⟨.nil, nofun⟩
  | append_singleton before t ih =>
    rw [after_append]
    exact ih.step t

/-- A token that ends blocks leaves none open that was opened inside as many brackets, whatever the columns are. -/
theorem depth_lt_of_ends {before : List Token} {t : Token} (ht : t.Ends (openBrackets before)) :
    ∀ b ∈ (State.start.after (before ++ [t])).blocks, b.depth < openBrackets before := by
  have hdepth : (indent (State.start.after before) t).2.depth = openBrackets before :=
    (indent_spec (State.start.after before) t).1.trans (depth_after before)
  have hstacked := (stacked_after before).indent t
  intro b hb
  rw [after_append] at hb
  rw [← hdepth] at ht ⊢
  refine hstacked.depth_lt b ?_
  rw [← (delimit_of_ends ht).2]
  exact hb

/-! ## Empty items among the tokens -/

/-- A token that ends blocks and starts a line in the column of one of them, where no block is opened. The block is the innermost one
that does not lie to the right of the token, and it was opened inside as many brackets as are open. -/
structure EndsAligned (before : List Token) (t : Token) : Prop where
  ends : t.Ends (openBrackets before)
  startsLine : ∃ last, before.getLast? = some last ∧ last.isName "of" = false ∧ last.isName "let" = false ∧
    StartsLine last.endLine t
  aligned : ∃ b, ((State.start.after before).blocksAt t.column).head? = some b ∧ b.column = t.column ∧ b.depth = openBrackets before

theorem endsAligned_iff {before after : List Token} {t : Token} (hmatched : Matched (before ++ t :: after))
    (htext : t.Ends (openBrackets before) → t.text ≠ "in") : EndsAligned before t ↔ t.Ends (openBrackets before) ∧ Separates (State.start.after before) t := by
  constructor
  · rintro ⟨hends, ⟨last, hlast, hof, hlet, hstarts⟩, b, hb, hcolumn, hdepth⟩
    obtain ⟨init, rfl⟩ := List.getLast?_eq_some_iff.1 hlast
    obtain ⟨hprevious, hpending⟩ := after_last init last
    obtain ⟨left, hleft⟩ := List.head?_eq_some_iff.1 hb
    refine ⟨hends, hpending.2 ⟨hof, hlet⟩, ?_, ?_, htext hends⟩
    · rw [hprevious]
      exact decide_eq_true fun e => hstarts e.symm
    · simp [hleft, atItemStart, hcolumn, depth_after, hdepth]
  · rintro ⟨hends, hpending, hline, hitem, -⟩
    have hpos := hmatched.openBrackets_pos hends
    refine ⟨hends, ?_, ?_⟩
    · rcases List.eq_nil_or_concat before with rfl | ⟨init, last, rfl⟩
      · cases hline
      · rw [List.concat_eq_append] at hline hpending ⊢
        obtain ⟨hprevious, hpendingIff⟩ := after_last init last
        obtain ⟨hof, hlet⟩ := hpendingIff.1 hpending
        rw [hprevious] at hline
        exact ⟨last, by simp, hof, hlet, fun e => of_decide_eq_true hline e.symm⟩
    · rw [depth_after] at hitem
      cases hleft : (State.start.after before).blocksAt t.column with
      | nil =>
        rw [hleft, atItemStart, Bool.and_eq_true, beq_iff_eq, beq_iff_eq] at hitem
        omega
      | cons b left =>
        rw [hleft, atItemStart, Bool.and_eq_true, beq_iff_eq, beq_iff_eq] at hitem
        exact ⟨b, rfl, hitem.1.symm, hitem.2.symm⟩

/-- The markers before a token come after those of the tokens before it. -/
theorem exists_insertionsFrom_eq (t : Token) (after : List Token) : ∀ (before : List Token) (s : State), ∃ earlier later,
    insertionsFrom s (before ++ t :: after) =
      earlier ++ ((step (s.after before) t).1.map (t.start, ·) ++ later)
  | [], s => ⟨[], _, rfl⟩
  | u :: before, s => by
    obtain ⟨earlier, later, heq⟩ := exists_insertionsFrom_eq t after before (step s u).2
    have hmore : (before ++ t :: after).isEmpty = false := by simp
    refine ⟨(step s u).1.map (u.start, ·) ++ earlier, later, ?_⟩
    rw [List.cons_append, insertionsFrom, hmore, heq, List.append_assoc]
    rfl

/-- An element of two lists, one after the other, is in the first one or in the second one. -/
theorem exists_of_append_eq {α : Type} {as bs previous next : List α} {x : α} (h : as ++ bs = previous ++ x :: next) :
    (∃ more, as = previous ++ x :: more ∧ next = more ++ bs) ∨ ∃ more, bs = more ++ x :: next := by
  rcases List.append_eq_append_iff.1 h with ⟨more, -, hmore⟩ | ⟨more, has, hmore⟩
  · exact .inr ⟨more, hmore⟩
  · rcases List.cons_eq_append_iff.1 hmore with ⟨rfl, hbs⟩ | ⟨rest, rfl, hnext⟩
    · exact .inr ⟨[], hbs⟩
    · exact .inl ⟨rest, has, hnext⟩

/-- A marker that separates stands before a token that writes it; what comes next is written by the same token, or belongs to
later ones. -/
theorem of_separating_insertionsFrom {n : Nat} {next : List (Nat × Marker)} : ∀ {tokens : List Token} {s : State}
    {previous : List (Nat × Marker)}, tokens.Pairwise (fun t u => t.stop ≤ u.start) → (∀ t ∈ tokens, t.start < t.stop) →
    insertionsFrom s tokens = previous ++ (n, .separating) :: next →
    ∃ before t after ms ms' later, tokens = before ++ t :: after ∧ n = t.start ∧
      (step (s.after before) t).1 = ms ++ .separating :: ms' ∧
      next = ms'.map (t.start, ·) ++ later ∧ ∀ i ∈ later, t.start < i.1
  | [], s, previous, _, _, h => by simp [insertionsFrom] at h
  | t :: ts, s, previous, hpairwise, hbounds, h => by
    obtain ⟨hafter, hpairwise'⟩ := List.pairwise_cons.1 hpairwise
    have hlt := hbounds t List.mem_cons_self
    have hbounds' : ∀ u ∈ ts, u.start < u.stop := fun u hu => hbounds u (List.mem_cons_of_mem t hu)
    have hends : ∀ i ∈ (if ts.isEmpty then (step s t).2.blocks.map fun _ => (t.stop, Marker.closing) else []),
        i = (t.stop, .closing) := by
      split
      · simp
      · exact List.forall_mem_nil _
    have hrest : ∀ i ∈ insertionsFrom (step s t).2 ts, t.stop ≤ i.1 :=
      le_of_mem_insertionsFrom fun u hu => ⟨hafter u hu, Nat.le_of_lt (hbounds' u hu)⟩
    rw [insertionsFrom] at h
    rcases exists_of_append_eq h with ⟨more, hmore, rfl⟩ | ⟨more, hmore⟩
    · obtain ⟨ms, rest, hsplit, -, hms⟩ := List.map_eq_append_iff.1 hmore
      obtain ⟨m, ms', rfl, hm, hms'⟩ := List.map_eq_cons_iff.1 hms
      cases hm
      refine ⟨[], t, ts, ms, ms', _, rfl, rfl, hsplit, by rw [hms'], ?_⟩
      intro i hi
      rcases List.mem_append.1 hi with hi | hi
      · rw [hends i hi]
        exact hlt
      · exact Nat.lt_of_lt_of_le hlt (hrest i hi)
    · rcases exists_of_append_eq hmore with ⟨more', hmore', -⟩ | ⟨more', hmore'⟩
      · -- What is written after the last token closes blocks.
        have hclosing := hends (n, .separating) (by rw [hmore']; simp)
        cases hclosing
      · obtain ⟨before, u, after, ms, ms', later, rfl, hn, hstep, hnext, hlater⟩ :=
          of_separating_insertionsFrom hpairwise' hbounds' hmore'
        exact ⟨t :: before, u, after, ms, ms', later, rfl, hn, hstep, hnext, hlater⟩

end Layout

/-! ## Tokens of a source -/

namespace Scanned

variable {source : List Char} {s : Scanned} (hs : ofSource source = .ok s)

include hs

/-- Brackets and commas have one character. -/
theorem text_ne_of_ends {t : Token} (ht : t ∈ s.tokens) {depth : Nat} (h : t.Ends depth) : t.text ≠ "in" := by
  obtain ⟨rest, hfirst⟩ := firstPiece?_token hs ht
  have hone : t.text.toList.length = 1 := by
    rcases h with hcloses | ⟨hcomma, -⟩
    · have hkind : t.kind = .bracket := by
        simp only [Token.closes, Bool.and_eq_true, beq_iff_eq] at hcloses
        exact hcloses.1
      exact (bracket_of_firstPiece? (hkind ▸ hfirst)).1
    · exact (comma_of_firstPiece? (hcomma ▸ hfirst)).1
  rintro hin
  rw [hin] at hone
  cases hone

/-- The tokens before a token are those that start before it. -/
theorem takeWhile_start {before after : List Token} {t : Token} (h : s.tokens = before ++ t :: after) :
    s.tokens.takeWhile (fun u => u.start < t.start) = before := by
  have hpairwise := pairwise_tokens hs
  have hbounds := token_bounds hs
  rw [h] at hpairwise hbounds
  have hlt : ∀ u ∈ before, decide (u.start < t.start) = true := by
    intro u hu
    have hle := (List.pairwise_append.1 hpairwise).2.2 u hu t List.mem_cons_self
    exact decide_eq_true (Nat.lt_of_lt_of_le (hbounds u (List.mem_append_left _ hu)).1 hle)
  rw [h, List.takeWhile_append_of_pos hlt, List.takeWhile_cons_of_neg (by simp), List.append_nil]

/-- Tokens are told apart by where they start. -/
theorem split_unique {before before' after after' : List Token} {t t' : Token} (h : s.tokens = before ++ t :: after)
    (h' : s.tokens = before' ++ t' :: after') (hstart : t.start = t'.start) : before = before' ∧ t = t' := by
  have hbefore : before = before' := by
    rw [← takeWhile_start hs h, ← takeWhile_start hs h', hstart]
  rw [h, hbefore] at h'
  exact ⟨hbefore, (List.cons_eq_cons.1 (List.append_cancel_left h')).1⟩

end Scanned

/-! ## Empty items in the text -/

namespace LaidOut

/-- At an offset a marker separates an item that is empty: after it come blanks and then a marker that closes a block, a closing
bracket, or a comma between brackets. -/
def EmptyItem (l : LaidOut) (tokens : List Token) (o : Nat) : Prop :=
  o ∈ l.markers ∧ l.text[o]? = some Marker.separating.char ∧
    ∃ e, o < e ∧ (∀ x, o < x → x < e → ∃ c, l.text[x]? = some c ∧ isBlank c = true) ∧
      (e ∈ l.markers ∧ l.text[e]? = some Marker.closing.char ∨
        e ∉ l.markers ∧ ∃ before t after, tokens = before ++ t :: after ∧ t.start = l.sourceOffset e ∧
          t.Ends (openBrackets before))

section Scanned

variable {source : List Char} {s : Scanned} (hs : Scanned.ofSource source = .ok s)

include hs

omit hs in
theorem mem_markers {k : Nat} {i : Nat × Marker} (h : (Layout.insertions s.tokens)[k]? = some i) :
    i.1 + k ∈ (ofScanned source s).markers := by
  refine List.mem_iff_getElem?.2 ⟨k, ?_⟩
  rw [ofScanned, Layout.getElem?_markerOffsets, h]
  rfl

/-- A token that is aligned with the block it ends leaves an empty item. -/
theorem exists_emptyItem {before after : List Token} {t : Token} (hsplit : s.tokens = before ++ t :: after)
    (hmatched : Matched s.tokens) (h : Layout.EndsAligned before t) :
    ∃ o, (ofScanned source s).EmptyItem s.tokens o ∧ (ofScanned source s).sourceOffset o = t.start := by
  have htoken : t ∈ s.tokens := by rw [hsplit]; exact List.mem_append_right _ List.mem_cons_self
  obtain ⟨-, hseparates⟩ := (Layout.endsAligned_iff (hsplit ▸ hmatched) fun h => Scanned.text_ne_of_ends hs htoken h).1 h
  obtain ⟨b, hb, -, hdepth⟩ := h.aligned
  rw [← Layout.depth_after] at hdepth
  obtain ⟨ms', hclosing⟩ := Layout.delimit_of_separates hseparates (Layout.depth_after before ▸ h.ends) hb hdepth
  obtain ⟨ms, hstep⟩ := Layout.step_separates_iff.2 ⟨hseparates, hclosing.symm⟩
  obtain ⟨earlier, later, heq⟩ := Layout.exists_insertionsFrom_eq t after before .start
  rw [← hsplit, ← Layout.insertions_eq_insertionsFrom] at heq
  obtain ⟨previous, next, hall⟩ : ∃ previous next, Layout.insertions s.tokens =
      previous ++ (t.start, .separating) :: (t.start, .closing) :: next := by
    refine ⟨earlier ++ ms.map (t.start, ·), ms'.map (t.start, ·) ++ later, heq.trans ?_⟩
    rw [hstep]
    simp
  have hseparating : (Layout.insertions s.tokens)[previous.length]? = some (t.start, .separating) := by simp [hall]
  have hnext : (Layout.insertions s.tokens)[previous.length + 1]? = some (t.start, .closing) := by simp [hall]
  refine ⟨t.start + previous.length, ⟨mem_markers hseparating, getElem?_insertion hs hseparating, ?_⟩,
    sourceOffset_insertion hs hseparating⟩
  refine ⟨t.start + previous.length + 1, Nat.lt_succ_self _, fun x hlt hle => ?_, .inl ⟨?_, ?_⟩⟩
  · omega
  · exact mem_markers hnext
  · exact getElem?_insertion hs hnext

/-- A separating marker is written before a token, in the step that the token takes; after those of the same step come only markers
that are written further on. -/
theorem exists_step_of_separating {k n : Nat} (h : (Layout.insertions s.tokens)[k]? = some (n, .separating)) :
    ∃ before t after ms ms' later, s.tokens = before ++ t :: after ∧ n = t.start ∧
      (Layout.step (Layout.State.start.after before) t).1 = ms ++ .separating :: ms' ∧
      (Layout.insertions s.tokens).drop (k + 1) = ms'.map (t.start, ·) ++ later ∧ ∀ i ∈ later, t.start < i.1 := by
  obtain ⟨hk, hget⟩ := List.getElem?_eq_some_iff.1 h
  have hcut : Layout.insertionsFrom .start s.tokens =
      (Layout.insertions s.tokens).take k ++ (n, .separating) :: (Layout.insertions s.tokens).drop (k + 1) := by
    rw [← Layout.insertions_eq_insertionsFrom, ← hget, ← List.drop_eq_getElem_cons hk, List.take_append_drop]
  exact Layout.of_separating_insertionsFrom (Scanned.pairwise_tokens hs) (fun t ht => (Scanned.token_bounds hs t ht).1) hcut

/-- An empty item stands before a token that is aligned with the block it ends. -/
theorem endsAligned_of_emptyItem {o : Nat} (hmatched : Matched s.tokens) (h : (ofScanned source s).EmptyItem s.tokens o) :
    ∃ before t after, s.tokens = before ++ t :: after ∧ t.start = (ofScanned source s).sourceOffset o ∧
      Layout.EndsAligned before t := by
  have hmarked := wellMarked_ofSource (ofSource_ok_iff.2 ⟨s, hs, rfl⟩)
  obtain ⟨ho, htext, e, hoe, hblank, hend⟩ := h
  obtain ⟨k, i, hi, rfl⟩ := exists_insertion ho
  have hoffset := sourceOffset_insertion hs hi
  have hseparating : i.2 = .separating := by
    rw [getElem?_insertion hs hi] at htext
    exact Marker.char_injective (Option.some.inj htext)
  obtain ⟨n, m⟩ := i
  subst hseparating
  obtain ⟨before, t, after, ms, ms', later, hsplit, hn, hstep, hnext, hlater⟩ := exists_step_of_separating hs hi
  have htoken : t ∈ s.tokens := by rw [hsplit]; exact List.mem_append_right _ List.mem_cons_self
  obtain ⟨hseparates, hms'⟩ := Layout.step_separates_iff.1 ⟨ms, hstep⟩
  refine ⟨before, t, after, hsplit, hn.symm.trans hoffset.symm, ?_⟩
  refine (Layout.endsAligned_iff (hsplit ▸ hmatched) fun h => Scanned.text_ne_of_ends hs htoken h).2 ⟨?_, hseparates⟩
  by_contra hnot
  -- Such a token writes nothing more, so only markers of later tokens come after the marker.
  have hnil : ms' = [] := hms'.trans (Layout.delimit_eq_nil hseparates.2.2.2 (by
    rwa [(Layout.indent_spec (Layout.State.start.after before) t).1, Layout.depth_after]))
  rw [hnil, List.map_nil, List.nil_append] at hnext
  rcases beforeToken_or_afterTokens hs ho with ⟨t', ht', hstart', e', hoe', hbetween, he', hsame', hfirst'⟩ | ⟨hclosing, -⟩
  · have hle : e ≤ e' := by
      by_contra hlt
      obtain ⟨c, hc, hcblank⟩ := hblank e' hoe' (Nat.lt_of_not_le hlt)
      obtain ⟨rest, hfirst⟩ := Scanned.firstPiece?_token hs ht'
      rw [isBlank_of_token hfirst c (hfirst'.symm.trans hc)] at hcblank
      cases hcblank
    rcases hend with ⟨he, -⟩ | ⟨he, before', u, after', hsplit', hstart, hends⟩
    · obtain ⟨k', j, hj, rfl⟩ := exists_insertion he
      have hbound := hmarked.sourceOffset_le hle
      rw [sourceOffset_insertion hs hj, hsame', ← hstart', hoffset] at hbound
      have hmem : j ∈ later := by
        rw [← hnext]
        refine List.mem_iff_getElem?.2 ⟨k' - (k + 1), ?_⟩
        rw [List.getElem?_drop, Nat.add_sub_of_le (by omega)]
        exact hj
      have := hlater j hmem
      omega
    · have hsame : e = e' := by
        by_contra hne
        exact he (hbetween e hoe (by omega))
      have hstarts : u.start = t.start := by rw [hstart, hsame, hsame', ← hstart', hoffset, hn]
      obtain ⟨rfl, rfl⟩ := Scanned.split_unique hs hsplit' hsplit hstarts
      exact hnot hends
  · rw [htext] at hclosing
    cases Marker.char_injective (Option.some.inj hclosing)

end Scanned

/-- **Where layout leaves items empty.** Take any source that can be scanned and has matched brackets. It is laid out, and

* items are empty exactly before the closing brackets and the commas between brackets that start a line in the column of a block
  which they end;
* every closing bracket and every comma between brackets leaves none of the blocks open that were opened inside its brackets. -/
theorem empty_items_are_aligned {source : List Char} {s : Scanned} (hs : Scanned.ofSource source = .ok s)
    (hmatched : Matched s.tokens) : ∃ l, ofSource source = .ok l ∧
      (∀ n, (∃ o, l.EmptyItem s.tokens o ∧ l.sourceOffset o = n) ↔
        ∃ before t after, s.tokens = before ++ t :: after ∧ t.start = n ∧ Layout.EndsAligned before t) ∧
      ∀ before t after, s.tokens = before ++ t :: after → t.Ends (openBrackets before) →
        ∀ b ∈ (Layout.State.start.after (before ++ [t])).blocks, b.depth < openBrackets before := by
  refine ⟨ofScanned source s, ofSource_ok_iff.2 ⟨s, hs, rfl⟩, fun n => ⟨?_, ?_⟩, fun before t after _ ht => ?_⟩
  · rintro ⟨o, hempty, rfl⟩
    exact endsAligned_of_emptyItem hs hmatched hempty
  · rintro ⟨before, t, after, hsplit, rfl, haligned⟩
    exact exists_emptyItem hs hsplit hmatched haligned
  · exact Layout.depth_lt_of_ends ht

/-- The tokens of `v = (case x of`, ` A -> 1` and ` )` on three lines. -/
def bracketBelowArm : List Token :=
  [Layout.inLine .name "v" 0 1 1, Layout.inLine .operator "=" 2 1 3, Layout.inLine .bracket "(" 4 1 5,
    Layout.inLine .name "case" 5 1 6, Layout.inLine .name "x" 10 1 11, Layout.inLine .name "of" 12 1 13,
    Layout.inLine .name "A" 16 2 2, Layout.inLine .operator "->" 18 2 4, Layout.inLine .number "1" 21 2 7,
    Layout.inLine .bracket ")" 24 3 2]

/-- A closing bracket below the arm of a `case` leaves an empty item, and there is no other one. -/
theorem empty_items_are_aligned_bracket : ∃ s l, Scanned.ofSource "v = (case x of\n A -> 1\n )\n".toList = .ok s ∧
    Matched s.tokens ∧ ofSource "v = (case x of\n A -> 1\n )\n".toList = .ok l ∧
    (∃ o, l.EmptyItem s.tokens o) ∧ ∀ o, l.EmptyItem s.tokens o → l.sourceOffset o = 24 := by
  have hs : Scanned.ofSource "v = (case x of\n A -> 1\n )\n".toList =
    .ok ⟨"v = (case x of\n A -> 1\n )\n".toList, bracketBelowArm, []⟩ := by decide +kernel
  have hmatched : Matched bracketBelowArm := by decide
  have hends : ∀ t ∈ bracketBelowArm, t.closes = true ∨ t.kind = .comma → t.start = 24 := by decide
  have haligned : Layout.EndsAligned bracketBelowArm.dropLast (Layout.inLine .bracket ")" 24 3 2) :=
    ⟨.inl (by decide), ⟨_, rfl, by decide, by decide, by decide⟩, ⟨_, rfl, by decide, by decide⟩⟩
  obtain ⟨l, hl, hempty, -⟩ := empty_items_are_aligned hs hmatched
  refine ⟨_, l, hs, hmatched, hl, ?_, fun o ho => ?_⟩
  · obtain ⟨o, ho, -⟩ := (hempty 24).2 ⟨_, _, [], rfl, rfl, haligned⟩
    exact ⟨o, ho⟩
  · obtain ⟨before, t, after, hsplit, hstart, haligned⟩ := (hempty _).1 ⟨o, ho, rfl⟩
    have hmem : t ∈ bracketBelowArm := by
      rw [show bracketBelowArm = before ++ t :: after from hsplit]
      exact List.mem_append_right before List.mem_cons_self
    rw [← hstart]
    exact hends t hmem (haligned.ends.imp_right And.left)

/-- So layout does leave empty items in sources without marker characters and with matched brackets: here a marker that separates
comes right before one that closes. -/
theorem separates_empty_item : ∃ s l, Scanned.ofSource "v = (case x of\n A -> 1\n )\n".toList = .ok s ∧
    Matched s.tokens ∧ (∀ c ∈ "v = (case x of\n A -> 1\n )\n".toList, isMarker c = false) ∧
    ofSource "v = (case x of\n A -> 1\n )\n".toList = .ok l ∧ l.EmptyItem s.tokens 25 := by
  have hs : Scanned.ofSource "v = (case x of\n A -> 1\n )\n".toList =
    .ok ⟨"v = (case x of\n A -> 1\n )\n".toList, bracketBelowArm, []⟩ := by decide +kernel
  have hl : ofSource "v = (case x of\n A -> 1\n )\n".toList = .ok ⟨"v = (case x of\n \x0eA -> 1\n \x1e\x0f)\n".toList,
    "v = (case x of\n A -> 1\n )\n".toList, [16, 25, 26], [0, 15, 23, 26], []⟩ := by decide +kernel
  have hplain : ("v = (case x of\n A -> 1\n )\n".toList.all fun c => !isMarker c) = true := by decide +kernel
  have hmatched : Matched bracketBelowArm := by decide
  refine ⟨_, _, hs, hmatched, by simpa using hplain, hl, by decide, rfl, 26, by decide, ?_, .inl ⟨by decide, rfl⟩⟩
  intro x hlt hle
  omega

end LaidOut

end ElmLint
