import ElmLint.Proofs.OffSide
import ElmLint.Proofs.WordTokens

/-!
# Layout of words

`runWords` is layout as one list, with words in the place of tokens. `Lays blocks depth marked` says that layout finds the markers
among some words again, when `blocks` and `depth` brackets are open before them. The lemmas on `Lays` put one word before others,
`WordSteps` is what the words of one line do, and patterns and literals leave all brackets as they were.
-/

namespace ElmLint

/-- The place of what comes after a gap. -/
def Gap.place : Gap → Position → Position
  | line indent, place => ⟨place.row + 1, indent + 1⟩
  | blank, place => place.next

/-- The words among words and markers. -/
def spotsOf (marked : List (Marker ⊕ Spot)) : List Spot := marked.filterMap Sum.getRight?

section SpotsOf

variable (marked : List (Marker ⊕ Spot))

@[simp] theorem spotsOf_marker (m : Marker) : spotsOf (.inl m :: marked) = spotsOf marked := rfl

@[simp] theorem spotsOf_spot (spot : Spot) : spotsOf (.inr spot :: marked) = spot :: spotsOf marked := rfl

theorem spotsOf_markers (markers : List Marker) : spotsOf (markers.map .inl ++ marked) = spotsOf marked := by
  induction markers with
  | nil => rfl
  | cons m markers ih => exact ih

end SpotsOf

namespace Layout

/-- The token that a word at a place begins with, without offsets. -/
def tokenAt (place : Position) (w : List Char) : Token :=
  { headToken w with line := place.row, column := place.column, endLine := place.row }

/-- The words with the markers before each of them, and with those that close the blocks left open at the end. -/
def runWords : State → Position → List Spot → List (Marker ⊕ Spot)
  | s, _, [] => s.blocks.map fun _ => .inl .closing
  | s, place, spot :: spots =>
    let here := spot.gap.place place
    (step s (tokenAt here spot.word)).1.map .inl ++
      .inr spot :: runWords (step s (tokenAt here spot.word)).2 ⟨here.row, here.column + spot.word.length⟩ spots

/-- From the state that belongs to the row of the last word, layout finds the markers among some words again. -/
def LaysFrom (state : Nat → State) (marked : List (Marker ⊕ Spot)) : Prop :=
  (∀ place : Position, runWords (state place.row) place (spotsOf marked) = marked) ∧ ∀ spot ∈ spotsOf marked, IsWord spot.word

/-- Inside an item of the innermost of some blocks, with some brackets open. -/
def Lays (blocks : List Block) (depth : Nat) : List (Marker ⊕ Spot) → Prop := LaysFrom (.between blocks depth)

/-- Where a block opens. -/
def LaysOpening (kind : BlockKind) (blocks : List Block) (depth : Nat) : List (Marker ⊕ Spot) → Prop :=
  LaysFrom fun row => { State.between blocks depth row with pending := some kind }

/-- The next word, if there is one, stands on a line that is indented no more than this. -/
def EndsLeft (indent : Nat) (marked : List (Marker ⊕ Spot)) : Prop :=
  ∀ spot ∈ (spotsOf marked).head?, ∃ k ≤ indent, spot.gap = .line k

theorem EndsLeft.mono {indent indent' : Nat} {marked : List (Marker ⊕ Spot)} (hle : indent ≤ indent') (h : EndsLeft indent marked) :
    EndsLeft indent' marked := by
  intro spot hspot
  obtain ⟨k, hk, hgap⟩ := h spot hspot
  exact ⟨k, Nat.le_trans hk hle, hgap⟩

theorem lays_nil (depth : Nat) : Lays [] depth [] := ⟨fun _ => rfl, fun _ h => nomatch h⟩

/-- Layout of a word and of those after it. -/
theorem LaysFrom.cons {state state' : Nat → State} (markers : List Marker) {spot : Spot} {marked : List (Marker ⊕ Spot)}
    (h : LaysFrom state' marked) (hword : IsWord spot.word)
    (hstep : ∀ place : Position, step (state place.row) (tokenAt (spot.gap.place place) spot.word) =
      (markers, state' (spot.gap.place place).row)) :
    LaysFrom state (markers.map .inl ++ .inr spot :: marked) := by
  constructor
  · intro place
    have hrest := h.1 ⟨(spot.gap.place place).row, (spot.gap.place place).column + spot.word.length⟩
    rw [spotsOf_markers, spotsOf_spot, runWords, hstep]
    exact congrArg (fun rest => markers.map Sum.inl ++ Sum.inr spot :: rest) hrest
  · rw [spotsOf_markers, spotsOf_spot]
    exact List.forall_mem_cons.2 ⟨hword, h.2⟩

/-! ## What a word itself does -/

/-- A word inside an item: it leaves the blocks as they are and may open or close a bracket. -/
inductive WordStep (blocks : List Block) : Nat → List Char → Nat → Prop
  | plain {depth : Nat} {w : List Char} : IsPlainWord w → WordStep blocks depth w depth
  | opens {depth : Nat} {w : List Char} : w ∈ [['('], ['['], ['{']] → WordStep blocks depth w (depth + 1)
  | closes {depth : Nat} {w : List Char} : w ∈ [[')'], [']'], ['}']] → depthOf blocks ≤ depth → WordStep blocks (depth + 1) w depth
  | comma {depth : Nat} : depthOf blocks < depth → WordStep blocks depth [','] depth

namespace WordStep

variable {blocks : List Block} {depth depth' : Nat} {w : List Char}

theorem isWord (h : WordStep blocks depth w depth') : IsWord w := by
  have hdelimiter : ∀ w ∈ [['('], ['['], ['{'], [')'], [']'], ['}'], [',']], IsWord w := by
    intro w hw
    have hmem : String.ofList w ∈ ["(", ")", "[", "]", "\x7b", "\x7d", ",", "of", "let", "in"] := by
      revert w
      decide
    simpa using isWord_delimiter _ hmem
  cases h with
  | plain h => exact h.toIsWord
  | opens h => exact hdelimiter w (by revert w; decide)
  | closes h _ => exact hdelimiter w (by revert w; decide)
  | comma _ => exact hdelimiter _ (by decide)

theorem text_ne (h : WordStep blocks depth w depth') (place : Position) : (tokenAt place w).text ≠ "in" := by
  cases h with
  | plain h =>
    have hplain := h.isPlain
    simp only [Token.isPlain, Bool.and_eq_true, bne_iff_ne] at hplain
    exact hplain.2
  | opens h =>
    have hall : ∀ w ∈ [['('], ['['], ['{']], (headToken w).text ≠ "in" := by decide +kernel
    exact hall w h
  | closes h _ =>
    have hall : ∀ w ∈ [[')'], [']'], ['}']], (headToken w).text ≠ "in" := by decide +kernel
    exact hall w h
  | comma _ =>
    have hcomma : (headToken [',']).text ≠ "in" := by decide +kernel
    exact hcomma

theorem delimit_eq (h : WordStep blocks depth w depth') (place : Position) (row : Nat) :
    delimit (.between blocks depth row) (tokenAt place w) = ([], .between blocks depth' row) := by
  cases h with
  | plain h => exact delimit_plain h.isPlain
  | opens h =>
    have hall : ∀ w ∈ [['('], ['['], ['{']], (headToken w).opens = true := by decide +kernel
    exact delimit_opens (t := tokenAt place w) (hall w h)
  | closes h hdepth =>
    have hall : ∀ w ∈ [[')'], [']'], ['}']], (headToken w).closes = true := by decide +kernel
    rw [delimit_closes (t := tokenAt place w) (hall w h)]
    simp only [State.between, closeBracketed_of_lt (Nat.lt_succ_of_le hdepth), Nat.add_sub_cancel]
  | comma hdepth =>
    have hcomma : (headToken [',']).kind = .comma := by decide +kernel
    rw [delimit_comma (t := tokenAt place [',']) hcomma (Nat.ne_zero_of_lt hdepth)]
    simp only [State.between, closeBracketed_of_lt hdepth]

end WordStep

/-! ## One word before others -/

section Words

variable {blocks : List Block} {depth depth' indent : Nat} {w : List Char} {marked : List (Marker ⊕ Spot)}

/-- A word inside an item. -/
theorem Lays.word {gap : Gap} (h : Lays blocks depth' marked) (hw : WordStep blocks depth w depth')
    (hgap : ∀ k, gap = .line k → columnOf blocks ≤ k) : Lays blocks depth (.inr ⟨gap, w⟩ :: marked) := by
  refine LaysFrom.cons [] h hw.isWord fun place => step_eq (indent_within rfl rfl fun hstarts => ?_) (hw.delimit_eq _ _)
  cases gap with
  | blank => exact absurd rfl hstarts
  | line k =>
    have hlt : columnOf blocks < k + 1 := Nat.lt_succ_of_le (hgap k rfl)
    exact ⟨Nat.le_of_lt hlt, .inl (Nat.ne_of_gt hlt)⟩

/-- The first word of a later item. -/
theorem Lays.separating (h : Lays blocks depth' marked) (hw : WordStep blocks depth w depth') (hcolumn : columnOf blocks = indent + 1)
    (hdepth : depth = depthOf blocks) : Lays blocks depth (.inl .separating :: .inr ⟨.line indent, w⟩ :: marked) := by
  refine LaysFrom.cons [.separating] h hw.isWord fun place => ?_
  have hstarts : StartsLine place.row (tokenAt ((Gap.line indent).place place) w) := Nat.succ_ne_self _
  exact step_eq (indent_item rfl rfl hstarts hcolumn.symm hdepth (hw.text_ne _)) (hw.delimit_eq _ _)

/-- The first word of a block. -/
theorem Lays.opening {kind : BlockKind} (h : Lays (⟨kind, indent + 1, depth⟩ :: blocks) depth' marked)
    (hw : WordStep (⟨kind, indent + 1, depth⟩ :: blocks) depth w depth') :
    LaysOpening kind blocks depth (.inl .opening :: .inr ⟨.line indent, w⟩ :: marked) :=
  LaysFrom.cons [.opening] h hw.isWord fun _ => step_eq (indent_opening rfl) (hw.delimit_eq _ _)

/-- The word that a block comes after. -/
def BlockKind.word : BlockKind → List Char
  | .ofBlock => ['o', 'f']
  | .letBlock => ['l', 'e', 't']

theorem Lays.keyword (kind : BlockKind) (h : LaysOpening kind blocks depth marked) (hindent : columnOf blocks ≤ indent) :
    Lays blocks depth (.inr ⟨.line indent, kind.word⟩ :: marked) := by
  have hword : IsWord kind.word := by
    cases kind with
    | ofBlock => exact isWord_delimiter "of" (by decide)
    | letBlock => exact isWord_delimiter "let" (by decide)
  refine LaysFrom.cons [] h hword fun place => step_eq (indent_within rfl rfl fun _ => ?_) ?_
  · exact ⟨Nat.le_succ_of_le hindent, .inl (Nat.ne_of_gt (Nat.lt_succ_of_le hindent))⟩
  · cases kind with
    | ofBlock => exact delimit_of (by decide +kernel : (headToken ['o', 'f']).isName "of" = true)
    | letBlock => exact delimit_let (by decide +kernel : (headToken ['l', 'e', 't']).isName "let" = true)

/-- The end of a `let` block. -/
theorem Lays.closeLet (h : Lays blocks depth marked) (column : Nat) (hindent : columnOf blocks ≤ indent) :
    Lays (⟨.letBlock, column, depth⟩ :: blocks) depth (.inl .closing :: .inr ⟨.line indent, ['i', 'n']⟩ :: marked) := by
  refine LaysFrom.cons [.closing] h (isWord_delimiter "in" (by decide)) fun place => ?_
  exact step_in rfl rfl (by decide +kernel : (headToken ['i', 'n']).isName "in" = true) fun _ => Nat.le_succ_of_le hindent

/-- The end of an `of` block, which the next line or the end of the text tells. -/
theorem Lays.closeOf (h : Lays blocks depth marked) (hends : EndsLeft indent marked) {column : Nat} (hcolumn : indent + 1 < column) :
    Lays (⟨.ofBlock, column, depth⟩ :: blocks) depth (.inl .closing :: marked) := by
  refine ⟨fun place => ?_, h.2⟩
  have hrest := h.1 place
  rw [spotsOf_marker]
  cases hspots : spotsOf marked with
  | nil =>
    rw [hspots] at hrest
    exact congrArg (Sum.inl Marker.closing :: ·) hrest
  | cons spot spots =>
    obtain ⟨k, hk, hgap⟩ := hends spot (by rw [hspots]; rfl)
    have hstarts : StartsLine place.row (tokenAt (spot.gap.place place) spot.word) := by
      rw [hgap]
      exact Nat.succ_ne_self _
    have hleft : (tokenAt (spot.gap.place place) spot.word).column < column := by
      rw [hgap]
      exact Nat.lt_of_le_of_lt (Nat.succ_le_succ hk) hcolumn
    have hstep : step (.between (⟨.ofBlock, column, depth⟩ :: blocks) depth place.row) (tokenAt (spot.gap.place place) spot.word) =
        (.closing :: (step (.between blocks depth place.row) (tokenAt (spot.gap.place place) spot.word)).1,
          (step (.between blocks depth place.row) (tokenAt (spot.gap.place place) spot.word)).2) := by
      rw [step, indent_of_dedent rfl rfl rfl rfl hstarts hleft]
      rfl
    rw [hspots, runWords] at hrest
    rw [runWords, hstep]
    exact congrArg (Sum.inl Marker.closing :: ·) hrest

end Words

/-! ## Lines -/

/-- What the words of a line do one after the other. -/
def WordSteps (blocks : List Block) : Nat → List (List Char) → Nat → Prop
  | depth, [], depth' => depth = depth'
  | depth, w :: words, depth' => ∃ between, WordStep blocks depth w between ∧ WordSteps blocks between words depth'

section Lines

variable {blocks : List Block} {depth depth' indent : Nat} {words : List (List Char)} {marked : List (Marker ⊕ Spot)}

theorem WordSteps.append {between : Nat} {words' : List (List Char)} (h : WordSteps blocks depth words between)
    (h' : WordSteps blocks between words' depth') : WordSteps blocks depth (words ++ words') depth' := by
  induction words generalizing depth with
  | nil =>
    cases h
    exact h'
  | cons w words ih =>
    obtain ⟨next, hw, h⟩ := h
    exact ⟨next, hw, ih h⟩

/-- The words of a line are words. -/
theorem WordSteps.isWord (h : WordSteps blocks depth words depth') : ∀ w ∈ words, IsWord w := by
  induction words generalizing depth with
  | nil => exact fun _ hw => nomatch hw
  | cons w words ih =>
    obtain ⟨next, hw, hwords⟩ := h
    exact List.forall_mem_cons.2 ⟨hw.isWord, ih hwords⟩

theorem wordSteps_plain {w : List Char} (h : IsPlainWord w) : WordSteps blocks depth [w] depth := ⟨depth, .plain h, rfl⟩

theorem Lays.blanks (h : Lays blocks depth' marked) (hwords : WordSteps blocks depth words depth') :
    Lays blocks depth ((words.map fun w => .inr ⟨.blank, w⟩) ++ marked) := by
  induction words generalizing depth with
  | nil =>
    cases hwords
    exact h
  | cons w words ih =>
    obtain ⟨next, hw, hwords⟩ := hwords
    exact (ih hwords).word hw fun _ hgap => nomatch hgap

/-- A line inside an item. -/
theorem Lays.line (h : Lays blocks depth' marked) (hwords : WordSteps blocks depth words depth') (hindent : columnOf blocks ≤ indent) :
    Lays blocks depth (lineOf indent words ++ marked) := by
  cases words with
  | nil =>
    cases hwords
    exact h
  | cons w words =>
    obtain ⟨next, hw, hwords⟩ := hwords
    exact (h.blanks hwords).word hw fun _ hgap => Gap.line.inj hgap ▸ hindent

/-- Where an item of a block begins, after a marker. -/
def LaysItem (marker : Marker) (b : Block) (blocks : List Block) : List (Marker ⊕ Spot) → Prop :=
  if marker = .opening then LaysOpening b.kind blocks b.depth else Lays (b :: blocks) b.depth

/-- The first line of an item. -/
theorem Lays.item {marker : Marker} (hmarker : marker = .opening ∨ marker = .separating) {b : Block} (hcolumn : b.column = indent + 1)
    (hne : words ≠ []) (hwords : WordSteps (b :: blocks) b.depth words depth') (h : Lays (b :: blocks) depth' marked) :
    LaysItem marker b blocks (.inl marker :: (lineOf indent words ++ marked)) := by
  obtain ⟨w, words, rfl⟩ := List.exists_cons_of_ne_nil hne
  obtain ⟨next, hw, hwords⟩ := hwords
  obtain ⟨kind, column, depth⟩ := b
  cases hcolumn
  rcases hmarker with rfl | rfl
  · exact (h.blanks hwords).opening hw
  · exact (h.blanks hwords).separating hw rfl rfl

end Lines

/-! ## Literals and patterns -/

section Balanced

variable {style : Style} {blocks : List Block} {depth : Nat}

/-- What stands between brackets on a line. -/
theorem WordSteps.bracketed {left right : List Char} {words : List (List Char)} (hleft : left ∈ [['('], ['['], ['{']])
    (hright : right ∈ [[')'], [']'], ['}']]) (hdepth : depthOf blocks ≤ depth)
    (h : WordSteps blocks (depth + 1) words (depth + 1)) : WordSteps blocks depth (left :: (words ++ [right])) depth :=
  ⟨depth + 1, .opens hleft, h.append ⟨depth, .closes hright hdepth, rfl⟩⟩

theorem wordSteps_literal {value : Literal} (h : value.Renderable style) (hdepth : depthOf blocks ≤ depth) :
    WordSteps blocks depth (value.words style) depth := by
  by_cases hunit : value = .unit
  · subst hunit
    have hnone : WordSteps blocks (depth + 1) [] (depth + 1) := rfl
    exact hnone.bracketed (by decide) (by decide) hdepth
  · obtain ⟨w, hwords, hplain⟩ := h.isPlainWord hunit
    rw [hwords]
    exact wordSteps_plain hplain

theorem wordSteps_flatMap {α : Type} {f : α → List (List Char)} {xs : List α} (h : ∀ x ∈ xs, WordSteps blocks depth (f x) depth) :
    WordSteps blocks depth (xs.flatMap f) depth := by
  induction xs with
  | nil => rfl
  | cons x xs ih =>
    obtain ⟨hx, hxs⟩ := List.forall_mem_cons.1 h
    exact hx.append (ih hxs)

theorem wordSteps_each {before : List (List Char)} (hbefore : WordSteps blocks depth before depth) {ps : List Pattern}
    (h : ∀ p ∈ ps, WordSteps blocks depth (p.words style) depth) :
    WordSteps blocks depth (Pattern.wordsEach style before ps) depth := by
  rw [Pattern.wordsEach_eq_flatMap]
  exact wordSteps_flatMap fun p hp => hbefore.append (h p hp)

theorem wordSteps_elements (hdepth : depthOf blocks < depth) {ps : List Pattern}
    (h : ∀ p ∈ ps, WordSteps blocks depth (p.words style) depth) : WordSteps blocks depth (Pattern.elementWords style ps) depth := by
  cases ps with
  | nil =>
    rw [Pattern.elementWords]
    rfl
  | cons p ps =>
    obtain ⟨hp, hps⟩ := List.forall_mem_cons.1 h
    rw [Pattern.elementWords]
    have hcomma : WordSteps blocks depth [[',']] depth := ⟨depth, .comma hdepth, rfl⟩
    exact hp.append (wordSteps_each hcomma hps)

theorem wordSteps_fields (hdepth : depthOf blocks < depth) : ∀ {fields : List String}, (∀ field ∈ fields, IsLowerName field) →
    WordSteps blocks depth ((fields.map String.toList).intersperse [',']) depth
  | [], _ => rfl
  | [field], h => wordSteps_plain (isPlainWord_lowerName (h field List.mem_cons_self))
  | field :: next :: fields, h => by
    have ih := wordSteps_fields hdepth fun f hf => h f (List.mem_cons_of_mem field hf)
    exact ⟨depth, .plain (isPlainWord_lowerName (h field List.mem_cons_self)), depth, .comma hdepth, ih⟩

/-- The words of a pattern close the brackets that they open. -/
theorem wordSteps_pattern {p : Pattern} (h : p.Renderable style) :
    ∀ {depth : Nat}, depthOf blocks ≤ depth → WordSteps blocks depth (p.words style) depth := by
  induction h with
  | wildcard _ =>
    intro depth _
    rw [Pattern.words]
    exact wordSteps_plain (isPlainWord_symbol "_" (by decide))
  | literal _ hvalue =>
    intro depth hdepth
    rw [Pattern.words]
    exact wordSteps_literal hvalue hdepth
  | var _ hname =>
    intro depth _
    rw [Pattern.words]
    exact wordSteps_plain (isPlainWord_lowerName hname)
  | @named qualifier name arguments _ hsegments _ _ ih =>
    intro depth hdepth
    have hname : IsPlainWord (qualifiedWord qualifier name) :=
      isPlainWord_qualifiedWord (fun s hs => hsegments s (List.mem_append_left _ hs)) (.inl (hsegments name (by simp)))
    have hnone : WordSteps blocks depth [] depth := rfl
    rw [Pattern.words]
    exact ⟨depth, .plain hname, wordSteps_each hnone fun p hp => ih p hp hdepth⟩
  | parenthesized _ _ ih =>
    intro depth hdepth
    rw [Pattern.words]
    exact (ih (Nat.le_succ_of_le hdepth)).bracketed (by decide) (by decide) hdepth
  | cons _ _ _ _ _ _ ihHead ihTail =>
    intro depth hdepth
    rw [Pattern.words]
    exact (ihHead hdepth).append ⟨depth, .plain (isPlainWord_symbol "::" (by decide)), ihTail hdepth⟩
  | list _ _ ih =>
    intro depth hdepth
    rw [Pattern.words]
    have hinside := wordSteps_elements (Nat.lt_succ_of_le hdepth) fun p hp => ih p hp (Nat.le_succ_of_le hdepth)
    exact hinside.bracketed (by decide) (by decide) hdepth
  | tuple _ _ _ ih =>
    intro depth hdepth
    rw [Pattern.words]
    have hinside := wordSteps_elements (Nat.lt_succ_of_le hdepth) fun p hp => ih p hp (Nat.le_succ_of_le hdepth)
    exact hinside.bracketed (by decide) (by decide) hdepth
  | aliased _ _ hname ih =>
    intro depth hdepth
    rw [Pattern.words]
    exact (ih hdepth).append
      ⟨depth, .plain (isPlainWord_symbol "as" (by decide)), depth, .plain (isPlainWord_lowerName hname), rfl⟩
  | record _ hfields =>
    intro depth hdepth
    rw [Pattern.words]
    exact (wordSteps_fields (Nat.lt_succ_of_le hdepth) hfields).bracketed (by decide) (by decide) hdepth

end Balanced

end Layout

end ElmLint
