import ElmLint.Proofs.BlockTree
import ElmLint.Proofs.LaidOut

/-!
# Indentation shows the blocks

Layout writes the markers of a tree of tokens whose rows and columns show it (`insertions_of_placed`), so no other tree of these
tokens is shown by them.

* `run` is layout as one list: the tokens with the markers before each of them, and those at the end. `anchored` gives the
  source offsets of its markers (`insertions_eq_anchored`).
* `indent_within`, `indent_item` and `indent_opening` tell what the place of a token does, the lemmas on `delimit` what the token
  itself does.
* An `of` block is closed by the token after it. `step_of_endsBlock` says that this token does then as it would if the block had
  been closed before, so that each part of a tree can be followed by itself (`run_part`, `run_item`, `run_items`, `run_inside`).
-/

namespace ElmLint.Layout

/-! ## Open blocks -/

/-- The column of the innermost block; that of the top level is one. -/
def columnOf : List Block → Nat
  | [] => 1
  | b :: _ => b.column

/-- The number of brackets around the innermost block. -/
def depthOf : List Block → Nat
  | [] => 0
  | b :: _ => b.depth

theorem atItemStart_eq (blocks : List Block) (column depth : Nat) :
    atItemStart blocks column depth = (column == columnOf blocks && depth == depthOf blocks) := by
  cases blocks <;> rfl

theorem closeDeeper_of_le {column : Nat} {blocks : List Block} (h : columnOf blocks ≤ column) :
    closeDeeper column blocks = ([], blocks, 0) := by
  cases blocks with
  | nil => rfl
  | cons b bs =>
    have hle : ¬ column < b.column := Nat.not_lt.2 h
    rw [closeDeeper, if_neg hle]

theorem closeBracketed_of_lt {depth : Nat} {blocks : List Block} (h : depthOf blocks < depth) :
    closeBracketed depth blocks = ([], blocks) := by
  cases blocks with
  | nil => rfl
  | cons b bs =>
    have hlt : ¬ depth ≤ b.depth := Nat.not_le.2 h
    rw [closeBracketed, if_neg hlt]

/-! ## What the place of a token does -/

section Indent

variable {s : State} {t : Token} {previous : Nat}

/-- The first token of a block opens it. -/
theorem indent_opening {kind : BlockKind} (h : s.pending = some kind) :
    indent s t = ([.opening], { s with
      blocks := ⟨kind, t.column, s.depth⟩ :: s.blocks, pending := none, previousLine := some t.endLine }) := by
  rw [indent, h]

/-- A token that starts no line does nothing by its place. -/
theorem indent_inline (hpending : s.pending = none) (hprevious : s.previousLine = some previous)
    (h : ¬ StartsLine previous t) : indent s t = ([], { s with previousLine := some t.endLine }) := by
  have hline : previous = t.line := (Decidable.not_not.1 h).symm
  simp [indent, hpending, hprevious, hline]

/-- A token that starts a line closes the blocks to its right, and may start an item of the block that is left. -/
theorem indent_line (hpending : s.pending = none) (hprevious : s.previousLine = some previous)
    (h : StartsLine previous t) : indent s t =
      ((closeDeeper t.column s.blocks).1 ++
        (if atItemStart (closeDeeper t.column s.blocks).2.1 t.column s.depth && t.text != "in" then [.separating] else []),
        { s with
          previousLine := some t.endLine
          blocks := (closeDeeper t.column s.blocks).2.1
          awaitingIn := s.awaitingIn + (closeDeeper t.column s.blocks).2.2 }) := by
  have hline : (some previous).any (fun line => decide (line ≠ t.line)) = true := decide_eq_true fun e => h e.symm
  simp only [indent, hpending, hprevious, hline, if_true]
  split <;> simp

/-- A token inside an item does nothing by its place: it starts no line, or one that is indented enough. -/
theorem indent_within (hpending : s.pending = none) (hprevious : s.previousLine = some previous)
    (h : StartsLine previous t → columnOf s.blocks ≤ t.column ∧
      (t.column ≠ columnOf s.blocks ∨ s.depth ≠ depthOf s.blocks ∨ t.text = "in")) :
    indent s t = ([], { s with previousLine := some t.endLine }) := by
  by_cases hstarts : StartsLine previous t
  · obtain ⟨hle, hno⟩ := h hstarts
    have hitem : (atItemStart s.blocks t.column s.depth && t.text != "in") = false := by
      rw [atItemStart_eq]
      rcases hno with hcolumn | hdepth | htext
      · simp [hcolumn]
      · simp [hdepth]
      · simp [htext]
    rw [indent_line hpending hprevious hstarts, closeDeeper_of_le hle]
    simp [hitem]
  · exact indent_inline hpending hprevious hstarts

/-- The first token of a later item separates it from the one before. -/
theorem indent_item (hpending : s.pending = none) (hprevious : s.previousLine = some previous)
    (hstarts : StartsLine previous t) (hcolumn : t.column = columnOf s.blocks) (hdepth : s.depth = depthOf s.blocks)
    (htext : t.text ≠ "in") : indent s t = ([.separating], { s with previousLine := some t.endLine }) := by
  have hitem : (atItemStart s.blocks t.column s.depth && t.text != "in") = true := by
    simp [atItemStart_eq, hcolumn, hdepth, htext]
  rw [indent_line hpending hprevious hstarts, closeDeeper_of_le (Nat.le_of_eq hcolumn.symm)]
  simp [hitem]

/-- A line that starts left of an `of` block closes it, and does then as it would without the block. -/
theorem indent_of_dedent {b : Block} {bs : List Block} (hpending : s.pending = none)
    (hprevious : s.previousLine = some previous) (hblocks : s.blocks = b :: bs) (hkind : b.kind = .ofBlock)
    (hstarts : StartsLine previous t) (hcolumn : t.column < b.column) :
    indent s t = (.closing :: (indent { s with blocks := bs } t).1, (indent { s with blocks := bs } t).2) := by
  have hpending' : ({ s with blocks := bs } : State).pending = none := hpending
  have hclose : closeDeeper t.column s.blocks =
      (.closing :: (closeDeeper t.column bs).1, (closeDeeper t.column bs).2.1, (closeDeeper t.column bs).2.2) := by
    rw [hblocks, closeDeeper, if_pos hcolumn]
    simp [hkind]
  rw [indent_line hpending hprevious hstarts, indent_line hpending' hprevious hstarts, hclose]
  rfl

end Indent

/-! ## What a token itself does -/

section Delimit

variable {s : State} {t : Token}

theorem delimit_plain (h : t.isPlain = true) : delimit s t = ([], s) := by
  simp only [Token.isPlain, Token.isName, Bool.and_eq_true, bne_iff_ne, ne_eq, Bool.not_eq_true', Bool.and_eq_false_iff,
    beq_eq_false_iff_ne] at h
  obtain ⟨⟨⟨⟨hbracket, hcomma⟩, hof⟩, hlet⟩, hin⟩ := h
  rw [delimit]
  split
  · contradiction
  · contradiction
  · next hname => simp_all
  · rfl

theorem delimit_opens (h : t.opens = true) : delimit s t = ([], { s with depth := s.depth + 1 }) := by
  simp only [Token.opens, Bool.and_eq_true, beq_iff_eq] at h
  rw [delimit, h.1]
  simp only [h.2, if_true]

theorem delimit_closes (h : t.closes = true) : delimit s t =
    ((closeBracketed s.depth s.blocks).1, { s with
      blocks := (closeBracketed s.depth s.blocks).2, depth := s.depth - 1 }) := by
  simp only [Token.closes, Bool.and_eq_true, beq_iff_eq, Bool.not_eq_true'] at h
  rw [delimit, h.1]
  simp only [h.2, Bool.false_eq_true, if_false]

theorem delimit_comma (h : t.kind = .comma) (hdepth : s.depth ≠ 0) : delimit s t =
    ((closeBracketed s.depth s.blocks).1, { s with blocks := (closeBracketed s.depth s.blocks).2 }) := by
  rw [delimit, h]
  simp only [beq_iff_eq, if_neg hdepth]

theorem delimit_of (h : t.isName "of" = true) : delimit s t = ([], { s with pending := some .ofBlock }) := by
  rw [Token.isName_iff] at h
  simp [delimit, h.1, h.2]

theorem delimit_let (h : t.isName "let" = true) : delimit s t = ([], { s with pending := some .letBlock }) := by
  rw [Token.isName_iff] at h
  simp [delimit, h.1, h.2]

/-- The `in` of a `let` block that indentation has closed closes nothing. -/
theorem delimit_in_awaited (h : t.isName "in" = true) (hawaiting : s.awaitingIn ≠ 0) :
    delimit s t = ([], { s with awaitingIn := s.awaitingIn - 1 }) := by
  rw [Token.isName_iff] at h
  simp [delimit, h.1, h.2, hawaiting]

/-- Otherwise `in` closes its `let` block and what is inside it. -/
theorem delimit_in (h : t.isName "in" = true) (hawaiting : s.awaitingIn = 0) {markers : List Marker} {left : List Block}
    (hclose : closeLet s.depth s.blocks = some (markers, left)) : delimit s t = (markers, { s with blocks := left }) := by
  rw [Token.isName_iff] at h
  simp [delimit, h.1, h.2, hawaiting, hclose]

/-- A token that belongs to what is around an `of` block: a closing bracket, a comma between brackets, or an `in` whose `let`
block can be closed. -/
def Delimits (s : State) (t : Token) : Prop :=
  t.closes = true ∨ t.kind = .comma ∧ s.depth ≠ 0 ∨
    t.isName "in" = true ∧ s.awaitingIn = 0 ∧ (closeLet s.depth s.blocks).isSome = true

/-- Such a token closes the block, and does then as it would without it. -/
theorem delimit_of_delimits {b : Block} {bs : List Block} (hblocks : s.blocks = b :: bs) (hkind : b.kind = .ofBlock)
    (hdepth : b.depth = s.depth) (h : Delimits { s with blocks := bs } t) :
    delimit s t = (.closing :: (delimit { s with blocks := bs } t).1, (delimit { s with blocks := bs } t).2) := by
  have hbracketed : closeBracketed s.depth s.blocks =
      (.closing :: (closeBracketed s.depth bs).1, (closeBracketed s.depth bs).2) := by
    rw [hblocks, closeBracketed, if_pos (Nat.le_of_eq hdepth.symm)]
  rcases h with hcloses | ⟨hcomma, hinside⟩ | ⟨hin, hawaiting, hsome⟩
  · rw [delimit_closes hcloses, delimit_closes hcloses, hbracketed]
  · have hdepth' : s.depth ≠ 0 := hinside
    rw [delimit_comma hcomma hdepth', delimit_comma hcomma hinside, hbracketed]
  · obtain ⟨⟨markers, left⟩, hclose⟩ := Option.isSome_iff_exists.1 hsome
    have hlet : closeLet s.depth s.blocks = some (.closing :: markers, left) := by
      rw [hblocks, closeLet, if_neg (not_not.2 hdepth), if_neg (by rw [hkind]; nofun), hclose]
      rfl
    have hawaiting' : s.awaitingIn = 0 := hawaiting
    rw [delimit_in hin hawaiting' hlet, delimit_in hin hawaiting hclose]

end Delimit

/-! ## Steps -/

/-- The state between two tokens of an item, of which the first one ends in row `previous`. -/
def State.between (blocks : List Block) (depth previous : Nat) : State := ⟨blocks, 0, depth, none, some previous⟩

/-- What the token after a part of a tree owes the blocks and brackets around it: an `in` can close its `let` block, and a comma
stands between brackets. -/
structure Awaited (blocks : List Block) (depth : Nat) (next : Option Token) : Prop where
  letOpen : ∀ t ∈ next, t.isName "in" = true → (closeLet depth blocks).isSome = true
  bracketed : ∀ t ∈ next, t.kind = .comma → depth ≠ 0

section Steps

variable {blocks : List Block} {depth previous : Nat} {t : Token} {b : Block}

/-- Between brackets that the innermost block is outside of, a line that is indented enough does nothing. -/
theorem indent_bracketed (hdepth : depthOf blocks < depth) (h : StartsLine previous t → columnOf blocks ≤ t.column) :
    indent (.between blocks depth previous) t = ([], .between blocks depth t.endLine) :=
  indent_within rfl rfl fun hstarts => ⟨h hstarts, .inr (.inl (Nat.ne_of_gt hdepth))⟩

/-- A token with nothing to close does what its place and it itself do. -/
theorem step_eq {s s' s'' : State} {markers : List Marker} (hindent : indent s t = (markers, s'))
    (hdelimit : delimit s' t = ([], s'')) : step s t = (markers, s'') := by
  rw [step, hindent]
  simp only [hdelimit, List.append_nil]

/-- The token after an `of` block closes it, and does then as it would without the block. -/
theorem step_of_endsBlock (hkind : b.kind = .ofBlock) (hdepth : b.depth = depth) (hcolumn : columnOf blocks < b.column)
    (hends : EndsBlock b.column previous (some t)) (hawaited : Awaited blocks depth (some t)) :
    step (.between (b :: blocks) depth previous) t =
      (.closing :: (step (.between blocks depth previous) t).1, (step (.between blocks depth previous) t).2) := by
  by_cases hdedent : StartsLine previous t ∧ t.column < b.column
  · rw [step, indent_of_dedent rfl rfl rfl hkind hdedent.1 hdedent.2]
    rfl
  · -- The token stays where it is: it does nothing by its place, with the block or without it.
    have hdelimits : Delimits (.between blocks depth t.endLine) t ∧
        (StartsLine previous t → t.column ≠ b.column ∨ t.text = "in") := by
      rcases hends with hin | ⟨hcloses | hcomma, hne⟩ | hleft
      · exact ⟨.inr (.inr ⟨hin, rfl, hawaited.letOpen t rfl hin⟩), fun _ => .inr (Token.isName_iff.1 hin).2⟩
      · exact ⟨.inl hcloses, fun hstarts => .inl (hne hstarts)⟩
      · exact ⟨.inr (.inl ⟨hcomma, hawaited.bracketed t rfl hcomma⟩), fun hstarts => .inl (hne hstarts)⟩
      · exact absurd hleft hdedent
    have hright : StartsLine previous t → b.column ≤ t.column := fun hstarts =>
      Nat.not_lt.1 fun hlt => hdedent ⟨hstarts, hlt⟩
    have hwith : indent (.between (b :: blocks) depth previous) t = ([], .between (b :: blocks) depth t.endLine) := by
      refine indent_within rfl rfl fun hstarts => ⟨hright hstarts, ?_⟩
      rcases hdelimits.2 hstarts with hne | hin
      · exact .inl hne
      · exact .inr (.inr hin)
    have hwithout : indent (.between blocks depth previous) t = ([], .between blocks depth t.endLine) := by
      refine indent_within rfl rfl fun hstarts => ?_
      have hlt : columnOf blocks < t.column := Nat.lt_of_lt_of_le hcolumn (hright hstarts)
      exact ⟨Nat.le_of_lt hlt, .inl (Nat.ne_of_gt hlt)⟩
    have hdelimit := delimit_of_delimits (s := .between (b :: blocks) depth t.endLine) rfl hkind hdepth hdelimits.1
    rw [step, step, hwith, hwithout]
    simp only [hdelimit, List.nil_append]
    rfl

/-- The `in` of a `let` block closes the block. -/
theorem step_in (hkind : b.kind = .letBlock) (hdepth : b.depth = depth) (hin : t.isName "in" = true)
    (hplaced : StartsLine previous t → columnOf blocks ≤ t.column) :
    step (.between (b :: blocks) depth previous) t = ([.closing], .between blocks depth t.endLine) := by
  have htext := (Token.isName_iff.1 hin).2
  by_cases hdedent : StartsLine previous t ∧ t.column < b.column
  · -- Indentation closes the block, and the token is awaited.
    have hclose : closeDeeper t.column (b :: blocks) = ([.closing], blocks, 1) := by
      rw [closeDeeper, if_pos hdedent.2, closeDeeper_of_le (hplaced hdedent.1)]
      simp [hkind]
    have hindent : indent (.between (b :: blocks) depth previous) t =
        ([.closing], { State.between blocks depth t.endLine with awaitingIn := 1 }) := by
      rw [indent_line rfl rfl hdedent.1]
      simp [State.between, hclose, htext]
    exact step_eq hindent (delimit_in_awaited hin Nat.one_ne_zero)
  · -- The token closes the block itself.
    have hindent : indent (.between (b :: blocks) depth previous) t = ([], .between (b :: blocks) depth t.endLine) := by
      refine indent_within rfl rfl fun hstarts => ⟨?_, .inr (.inr htext)⟩
      exact Nat.not_lt.1 fun hlt => hdedent ⟨hstarts, hlt⟩
    have hclose : closeLet depth (b :: blocks) = some ([.closing], blocks) := by
      rw [closeLet, if_neg (not_not.2 hdepth), if_pos hkind]
    rw [step, hindent]
    simp only
    rw [delimit_in (s := .between (b :: blocks) depth t.endLine) hin rfl hclose]
    rfl

end Steps

/-! ## Runs -/

/-- The tokens with the markers before each of them, and with those that close the blocks left open at the end. -/
def run : State → List Token → List (Marker ⊕ Token)
  | s, [] => s.blocks.map fun _ => .inl .closing
  | s, t :: ts => (step s t).1.map .inl ++ .inr t :: run (step s t).2 ts

theorem run_cons (s : State) (t : Token) (ts : List Token) :
    run s (t :: ts) = (step s t).1.map .inl ++ .inr t :: run (step s t).2 ts := rfl

/-- What comes after an `of` block closes it first. -/
theorem run_of_endsBlock {blocks : List Block} {depth previous : Nat} {rest : List Token} {b : Block}
    (hkind : b.kind = .ofBlock) (hdepth : b.depth = depth) (hcolumn : columnOf blocks < b.column)
    (hends : EndsBlock b.column previous rest.head?) (hawaited : Awaited blocks depth rest.head?) :
    run (.between (b :: blocks) depth previous) rest = .inl .closing :: run (.between blocks depth previous) rest := by
  cases rest with
  | nil => rfl
  | cons t ts =>
    rw [run_cons, run_cons, step_of_endsBlock hkind hdepth hcolumn hends hawaited]
    rfl

/-- The first token of a part is awaited everywhere. -/
theorem awaited_part (p : Part) (blocks : List Block) (depth : Nat) : Awaited blocks depth (some p.first) where
  letOpen t ht hin := by
    rw [Option.mem_some] at ht
    subst ht
    exact absurd (Token.isName_iff.1 hin).2 p.text_first_ne
  bracketed t ht hcomma := by
    rw [Option.mem_some] at ht
    subst ht
    exact absurd hcomma p.kind_first_ne

theorem awaited_item (i : Item) (blocks : List Block) (depth : Nat) : Awaited blocks depth (some i.first) := by
  cases i <;> exact awaited_part _ _ _

theorem awaited_items (items : Items) (blocks : List Block) (depth : Nat) : Awaited blocks depth (some items.first) := by
  cases items <;> exact awaited_item _ _ _

/-- What follows between brackets is awaited there. -/
theorem awaited_inside (inside : Inside) {right : Token} (hright : right.closes = true) (blocks : List Block) {depth : Nat}
    (hdepth : depth ≠ 0) : Awaited blocks depth (some (inside.first right)) := by
  refine ⟨fun t ht hin => ?_, fun _ _ _ => hdepth⟩
  rw [Option.mem_some] at ht
  subst ht
  rw [Token.isName_iff] at hin
  cases inside with
  | empty =>
    simp only [Token.closes, Bool.and_eq_true, beq_iff_eq] at hright
    exact absurd (hright.1.symm.trans hin.1) (by decide)
  | part p more => exact absurd hin.2 p.text_first_ne
  | comma u more hu => exact absurd (hu.symm.trans hin.1) (by decide)

mutual

/-- Layout writes the markers of a part, after those that the place of its first token gives. -/
theorem run_part : ∀ (p : Part) {s : State} {markers : List Marker} {blocks : List Block} {depth : Nat} (rest : List Token),
    indent s p.first = (markers, .between blocks depth p.first.endLine) → depthOf blocks ≤ depth →
    p.Placed (columnOf blocks) rest.head? → Awaited blocks depth rest.head? →
    run s (p.tokens ++ rest) = markers.map .inl ++ (p.marked ++ run (.between blocks depth p.endLine) rest)
  | .plain t ht, s, markers, blocks, depth, rest, hindent, _, _, _ => by
    have hstep : step s t = (markers, .between blocks depth t.endLine) := step_eq hindent (delimit_plain ht)
    rw [Part.tokens, List.singleton_append, run_cons, hstep]
    rfl
  | .group left inside right hleft hright, s, markers, blocks, depth, rest, hindent, hdepth, hplaced, _ => by
    have hstep : step s left = (markers, .between blocks (depth + 1) left.endLine) := step_eq hindent (delimit_opens hleft)
    have hinside : run (.between blocks (depth + 1) left.endLine) (inside.tokens ++ right :: rest) =
        inside.marked ++ .inr right :: run (.between blocks depth right.endLine) rest :=
      run_inside inside hright rest (Nat.lt_succ_of_le hdepth) hplaced
    simp only [Part.tokens, Part.marked, List.cons_append, List.append_assoc, List.nil_append]
    rw [run_cons, hstep, hinside]
    rfl
  | .ofBlock keyword items hkeyword, s, markers, blocks, depth, rest, hindent, _, hplaced, hawaited => by
    obtain ⟨hcolumn, hitems, hends⟩ := hplaced
    let b : Block := ⟨.ofBlock, items.first.column, depth⟩
    have hstep : step s keyword = (markers, { State.between blocks depth keyword.endLine with pending := some b.kind }) :=
      step_eq hindent (delimit_of hkeyword)
    have hopen : indent { State.between blocks depth keyword.endLine with pending := some b.kind } items.first =
        ([.opening], .between (b :: blocks) depth items.first.endLine) := indent_opening rfl
    have hawaited' : Awaited (b :: blocks) depth rest.head? := by
      refine ⟨fun t ht hin => ?_, hawaited.bracketed⟩
      simpa [closeLet, b] using hawaited.letOpen t ht hin
    have hrun := run_items items rest hopen rfl hitems hawaited'
    have hclose := run_of_endsBlock (b := b) rfl rfl hcolumn hends hawaited
    simp only [Part.tokens, Part.marked, List.cons_append, List.append_assoc, List.nil_append]
    rw [run_cons, hstep, hrun, hclose]
    rfl
  | .letBlock keyword items closer hkeyword hcloser, s, markers, blocks, depth, rest, hindent, _, hplaced, _ => by
    obtain ⟨hcolumn, hitems, hin⟩ := hplaced
    let b : Block := ⟨.letBlock, items.first.column, depth⟩
    have hstep : step s keyword = (markers, { State.between blocks depth keyword.endLine with pending := some b.kind }) :=
      step_eq hindent (delimit_let hkeyword)
    have hopen : indent { State.between blocks depth keyword.endLine with pending := some b.kind } items.first =
        ([.opening], .between (b :: blocks) depth items.first.endLine) := indent_opening rfl
    have hawaited : Awaited (b :: blocks) depth (some closer) := by
      refine ⟨fun t ht _ => by simp [closeLet, b], fun t ht hcomma => ?_⟩
      rw [Option.mem_some] at ht
      subst ht
      exact absurd ((Token.isName_iff.1 hcloser).1.symm.trans hcomma) (by decide)
    have hrun := run_items items (closer :: rest) hopen rfl hitems hawaited
    have hclose := step_in (b := b) rfl rfl hcloser hin
    simp only [Part.tokens, Part.marked, List.cons_append, List.append_assoc, List.nil_append]
    rw [run_cons, hstep, hrun, run_cons, hclose]
    rfl

/-- Layout writes the markers of an item, after those that the place of its first token gives. -/
theorem run_item : ∀ (i : Item) {s : State} {markers : List Marker} {blocks : List Block} {depth : Nat} (rest : List Token),
    indent s i.first = (markers, .between blocks depth i.first.endLine) → depthOf blocks ≤ depth →
    i.Placed (columnOf blocks) rest.head? → Awaited blocks depth rest.head? →
    run s (i.tokens ++ rest) = markers.map .inl ++ (i.marked ++ run (.between blocks depth i.endLine) rest)
  | .last p, s, markers, blocks, depth, rest, hindent, hdepth, hplaced, hawaited =>
    run_part p rest hindent hdepth hplaced hawaited
  | .more p more, s, markers, blocks, depth, rest, hindent, hdepth, hplaced, hawaited => by
    obtain ⟨hpart, hright, hmore⟩ := hplaced
    have hwithin : indent (.between blocks depth p.endLine) more.first = ([], .between blocks depth more.first.endLine) :=
      indent_within rfl rfl fun hstarts => ⟨Nat.le_of_lt (hright hstarts), .inl (Nat.ne_of_gt (hright hstarts))⟩
    have hhead := more.head?_tokens rest
    have hfirst := run_part p (more.tokens ++ rest) hindent hdepth (by rw [hhead]; exact hpart)
      (by rw [hhead]; exact awaited_item more blocks depth)
    have hrest := run_item more rest hwithin hdepth hmore hawaited
    rw [Item.tokens, Item.marked, Item.endLine, List.append_assoc, hfirst, hrest]
    simp

/-- Layout writes the markers of items, after those that the place of their first token gives. -/
theorem run_items : ∀ (items : Items) {s : State} {markers : List Marker} {blocks : List Block} {depth : Nat}
    (rest : List Token),
    indent s items.first = (markers, .between blocks depth items.first.endLine) → depthOf blocks = depth →
    items.Placed (columnOf blocks) rest.head? → Awaited blocks depth rest.head? →
    run s (items.tokens ++ rest) = markers.map .inl ++ (items.marked ++ run (.between blocks depth items.endLine) rest)
  | .last i, s, markers, blocks, depth, rest, hindent, hdepth, hplaced, hawaited =>
    run_item i rest hindent (Nat.le_of_eq hdepth) hplaced hawaited
  | .more i more, s, markers, blocks, depth, rest, hindent, hdepth, hplaced, hawaited => by
    obtain ⟨hitem, hstarts, hcolumn, hmore⟩ := hplaced
    have hseparate : indent (.between blocks depth i.endLine) more.first =
        ([.separating], .between blocks depth more.first.endLine) :=
      indent_item rfl rfl hstarts hcolumn hdepth.symm more.text_first_ne
    have hhead := more.head?_tokens rest
    have hfirst := run_item i (more.tokens ++ rest) hindent (Nat.le_of_eq hdepth) (by rw [hhead]; exact hitem)
      (by rw [hhead]; exact awaited_items more blocks depth)
    have hrest := run_items more rest hseparate hdepth hmore hawaited
    rw [Items.tokens, Items.marked, Items.endLine, List.append_assoc, hfirst, hrest]
    simp

/-- Layout writes the markers of what stands between brackets. -/
theorem run_inside : ∀ (inside : Inside) {right : Token} (_ : right.closes = true) {blocks : List Block}
    {depth previous : Nat} (rest : List Token), depthOf blocks < depth → inside.Placed (columnOf blocks) previous right →
    run (.between blocks depth previous) (inside.tokens ++ right :: rest) =
      inside.marked ++ .inr right :: run (.between blocks (depth - 1) right.endLine) rest
  | .empty, right, hright, blocks, depth, previous, rest, hdepth, hplaced => by
    have hindent := indent_bracketed hdepth hplaced
    have hdelimit : delimit (.between blocks depth right.endLine) right = ([], .between blocks (depth - 1) right.endLine) := by
      rw [delimit_closes hright]
      simp only [State.between, closeBracketed_of_lt hdepth]
    rw [Inside.tokens, List.nil_append, run_cons, step_eq hindent hdelimit]
    rfl
  | .part p more, right, hright, blocks, depth, previous, rest, hdepth, hplaced => by
    obtain ⟨hfirst, hpart, hmore⟩ := hplaced
    have hhead := more.head?_tokens right rest
    have hrun := run_part p (more.tokens ++ right :: rest) (indent_bracketed hdepth hfirst) (Nat.le_of_lt hdepth)
      (by rw [hhead]; exact hpart) (by rw [hhead]; exact awaited_inside more hright blocks (Nat.ne_zero_of_lt hdepth))
    have hrest := run_inside more hright rest hdepth hmore
    rw [Inside.tokens, Inside.marked, List.append_assoc, hrun, hrest]
    simp
  | .comma t more ht, right, hright, blocks, depth, previous, rest, hdepth, hplaced => by
    obtain ⟨hfirst, hmore⟩ := hplaced
    have hdelimit : delimit (.between blocks depth t.endLine) t = ([], .between blocks depth t.endLine) := by
      rw [delimit_comma ht (Nat.ne_zero_of_lt hdepth)]
      simp only [State.between, closeBracketed_of_lt hdepth]
    have hrest := run_inside more hright rest hdepth hmore
    rw [Inside.tokens, Inside.marked, List.cons_append, run_cons, step_eq (indent_bracketed hdepth hfirst) hdelimit, hrest]
    rfl

end

/-- Layout writes the markers of a tree that the places of its tokens show. -/
theorem run_start {items : Items} (h : items.Placed 1 none) : run .start items.tokens = items.marked := by
  have hindent : indent .start items.first = ([], .between [] 0 items.first.endLine) := rfl
  have hrun := run_items items [] hindent rfl h ⟨nofun, nofun⟩
  rw [List.append_nil] at hrun
  rw [hrun]
  exact List.append_nil _

/-! ## Offsets -/

/-- The offset at which the next token starts, or `last` when there is none. -/
def nextStart (last : Nat) : List (Marker ⊕ Token) → Nat
  | [] => last
  | .inl _ :: rest => nextStart last rest
  | .inr t :: _ => t.start

/-- The markers among tokens with the source offsets they stand before: that of the next token, or the end of the last one;
`last` is the end of the token before. -/
def anchored (last : Nat) : List (Marker ⊕ Token) → List (Nat × Marker)
  | [] => []
  | .inl m :: rest => (nextStart last rest, m) :: anchored last rest
  | .inr t :: rest => anchored t.stop rest

theorem nextStart_append_token (last : Nat) (t : Token) (rest : List (Marker ⊕ Token)) : ∀ markers : List Marker,
    nextStart last (markers.map .inl ++ .inr t :: rest) = t.start
  | [] => rfl
  | _ :: markers => nextStart_append_token last t rest markers

theorem anchored_append_token (last : Nat) (t : Token) (rest : List (Marker ⊕ Token)) : ∀ markers : List Marker,
    anchored last (markers.map .inl ++ .inr t :: rest) = markers.map (t.start, ·) ++ anchored t.stop rest
  | [] => rfl
  | m :: markers => by
    rw [List.map_cons, List.cons_append, anchored, nextStart_append_token, anchored_append_token last t rest markers]
    rfl

theorem nextStart_closing (last : Nat) : ∀ blocks : List Block,
    nextStart last (blocks.map fun _ => .inl .closing) = last
  | [] => rfl
  | _ :: blocks => nextStart_closing last blocks

theorem anchored_closing (last : Nat) : ∀ blocks : List Block,
    anchored last (blocks.map fun _ => .inl .closing) = blocks.map fun _ => (last, .closing)
  | [] => rfl
  | b :: blocks => by
    rw [List.map_cons, anchored, nextStart_closing, anchored_closing last blocks]
    rfl

theorem anchored_run : ∀ (tokens : List Token) (s : State) (last : Nat), anchored last (run s tokens) =
    beforeTokens tokens (placeFrom s tokens).1 ++
      (placeFrom s tokens).2.map fun _ => (tokens.getLast?.elim last Token.stop, .closing)
  | [], s, last => anchored_closing last s.blocks
  | t :: tokens, s, last => by
    have ih := anchored_run tokens (step s t).2 t.stop
    have hlast : (t :: tokens).getLast?.elim last Token.stop = tokens.getLast?.elim t.stop Token.stop := by
      cases tokens with
      | nil => rfl
      | cons u us =>
        rw [List.getLast?_cons_cons, List.getLast?_eq_some_getLast (List.cons_ne_nil u us)]
        rfl
    rw [run_cons, anchored_append_token, ih, hlast]
    simp [placeFrom, beforeTokens]

/-- The markers that layout inserts are those of its run. -/
theorem insertions_eq_anchored (tokens : List Token) : insertions tokens = anchored 0 (run .start tokens) := by
  rw [insertions_eq, anchored_run]
  cases tokens with
  | nil => rfl
  | cons t ts =>
    rw [afterTokens, List.getLast?_eq_some_getLast (List.cons_ne_nil t ts)]
    rfl

/-! ## The tree -/

/-- Take a tree of tokens that their places show by indentation. Layout inserts the markers of its blocks and no others: one
before the first token of a block, one before each later item, and one before the token after the block, or after the last token.
No other tree of these tokens is shown by their places. -/
theorem insertions_of_placed (tree : Items) (h : tree.Placed 1 none) :
    insertions tree.tokens = anchored 0 tree.marked ∧
    (∀ source scanned, Scanned.ofSource source = .ok scanned → scanned.tokens = tree.tokens →
      LaidOut.ofSource source = .ok {
        text := insertFrom 0 (anchored 0 tree.marked) scanned.text
        source := source
        markers := markerOffsets (anchored 0 tree.marked)
        starts := lineStarts source
        comments := scanned.comments }) ∧
    ∀ other : Items, other.Placed 1 none → other.tokens = tree.tokens → other = tree := by
  have hinsertions : insertions tree.tokens = anchored 0 tree.marked := by
    rw [insertions_eq_anchored, run_start h]
  refine ⟨hinsertions, fun source scanned hscanned htokens => ?_, fun other hother htokens => ?_⟩
  · rw [LaidOut.ofSource, hscanned, Except.map]
    unfold LaidOut.ofScanned
    rw [htokens, hinsertions]
  · have hmarked : other.marked = tree.marked := by
      rw [← run_start hother, ← run_start h, htokens]
    exact Items.marked_injective hmarked

/-- A token of one line. -/
def inLine (kind : Token.Kind) (text : String) (start line column : Nat) : Token :=
  ⟨kind, text, start, start + text.length, line, column, line⟩

/-- Two arms, one with `case` between brackets and one with `let` and `in`. -/
def twoArms : Items :=
  let inner : Item := .more (.plain (inLine .name "e" 31 2 18) rfl) (.more (.plain (inLine .operator "->" 33 2 20) rfl)
    (.last (.plain (inLine .name "f" 36 2 23) rfl)))
  let inside : Inside := .part (.plain (inLine .name "case" 21 2 8) rfl) (.part (.plain (inLine .name "d" 26 2 13) rfl)
    (.part (.ofBlock (inLine .name "of" 28 2 15) (.last inner) rfl) .empty))
  let arm₁ : Item := .more (.plain (inLine .name "c" 15 2 2) rfl) (.more (.plain (inLine .operator "->" 17 2 4) rfl)
    (.last (.group (inLine .bracket "(" 20 2 7) inside (inLine .bracket ")" 37 2 24) rfl rfl)))
  let binding : Item := .more (.plain (inLine .name "h" 49 3 11) rfl) (.more (.plain (inLine .operator "=" 51 3 13) rfl)
    (.last (.plain (inLine .name "i" 53 3 15) rfl)))
  let arm₂ : Item := .more (.plain (inLine .name "g" 40 3 2) rfl) (.more (.plain (inLine .operator "->" 42 3 4) rfl)
    (.more (.letBlock (inLine .name "let" 45 3 7) (.last binding) (inLine .name "in" 55 3 17) rfl rfl)
      (.last (.plain (inLine .name "h" 58 3 20) rfl))))
  .last (.more (.plain (inLine .name "a" 0 1 1) rfl) (.more (.plain (inLine .operator "=" 2 1 3) rfl)
    (.more (.plain (inLine .name "case" 4 1 5) rfl) (.more (.plain (inLine .name "b" 9 1 10) rfl)
      (.last (.ofBlock (inLine .name "of" 11 1 12) (.more arm₁ (.last arm₂)) rfl))))))

theorem insertions_twoArms : twoArms.Placed 1 none ∧
    insertions twoArms.tokens = [(15, .opening), (31, .opening), (37, .closing), (40, .separating), (49, .opening),
      (55, .closing), (59, .closing)] ∧
    ∃ laidOut, LaidOut.ofSource "a = case b of\n c -> (case d of e -> f)\n g -> let h = i in h\n".toList = .ok laidOut ∧
      laidOut.render = "a = case b of\n \x7bc -> (case d of \x7be -> f\x7d)\n ;g -> let \x7bh = i \x7din h\x7d\n".toList := by
  have hplaced : twoArms.Placed 1 none := by decide +kernel
  have hanchored : anchored 0 twoArms.marked = [(15, .opening), (31, .opening), (37, .closing), (40, .separating),
    (49, .opening), (55, .closing), (59, .closing)] := by decide +kernel
  obtain ⟨hinsertions, hlaidOut, -⟩ := insertions_of_placed twoArms hplaced
  have hscanned : Scanned.ofSource "a = case b of\n c -> (case d of e -> f)\n g -> let h = i in h\n".toList =
    .ok ⟨"a = case b of\n c -> (case d of e -> f)\n g -> let h = i in h\n".toList, twoArms.tokens, []⟩ := by decide +kernel
  refine ⟨hplaced, hinsertions.trans hanchored, _, hlaidOut _ _ hscanned rfl, ?_⟩
  rw [hanchored]
  decide +kernel

end ElmLint.Layout
