import ElmLint.Layout

/-!
# Trees of tokens

The tokens of a source make up a tree: items of parts, where a part is a plain token, a group between brackets, `of` with a block
of items, or `let` with a block of items and its `in`.

* `Items.marked` writes the blocks of a tree down: the tokens with a marker where a block opens, one between two of its items,
  and one where it closes. This tells the tree (`Items.marked_injective`).
* `Items.Placed` says that the rows and columns of the tokens show the tree by indentation.
-/

namespace ElmLint

namespace Token

/-- An opening bracket. -/
def opens (t : Token) : Bool := t.kind == .bracket && (t.text == "(" || t.text == "[" || t.text == "\x7b")

/-- A closing bracket. -/
def closes (t : Token) : Bool := t.kind == .bracket && !(t.text == "(" || t.text == "[" || t.text == "\x7b")

/-- One given name. -/
def isName (t : Token) (name : String) : Bool := t.kind == .name && t.text == name

theorem isName_iff {t : Token} {name : String} : t.isName name = true ↔ t.kind = .name ∧ t.text = name := by
  simp [isName]

/-- Neither a bracket nor a comma, nor one of the names that layout goes by. Nothing but a name reads `in`. -/
def isPlain (t : Token) : Bool :=
  t.kind != .bracket && t.kind != .comma && !t.isName "of" && !t.isName "let" && t.text != "in"

end Token

namespace Layout

/-! ## Trees -/

mutual

/-- A part of an item. -/
inductive Part where
  | plain (t : Token) (ht : t.isPlain = true)
  /-- What stands between brackets. -/
  | group (left : Token) (inside : Inside) (right : Token) (hleft : left.opens = true) (hright : right.closes = true)
  /-- `of` and its block. -/
  | ofBlock (keyword : Token) (items : Items) (hkeyword : keyword.isName "of" = true)
  /-- `let`, its block and its `in`. -/
  | letBlock (keyword : Token) (items : Items) (closer : Token) (hkeyword : keyword.isName "let" = true)
    (hcloser : closer.isName "in" = true)

/-- One part or more. -/
inductive Item where
  | last (p : Part)
  | more (p : Part) (rest : Item)

/-- One item or more. -/
inductive Items where
  | last (i : Item)
  | more (i : Item) (rest : Items)

/-- Parts and commas. -/
inductive Inside where
  | empty
  | part (p : Part) (rest : Inside)
  | comma (t : Token) (rest : Inside) (ht : t.kind = .comma)

end

/-! ## Tokens -/

mutual

/-- The tokens of a part. -/
def Part.tokens : Part → List Token
  | .plain t _ => [t]
  | .group left inside right _ _ => left :: (inside.tokens ++ [right])
  | .ofBlock keyword items _ => keyword :: items.tokens
  | .letBlock keyword items closer _ _ => keyword :: (items.tokens ++ [closer])

/-- The tokens of an item. -/
def Item.tokens : Item → List Token
  | .last p => p.tokens
  | .more p rest => p.tokens ++ rest.tokens

/-- The tokens of items. -/
def Items.tokens : Items → List Token
  | .last i => i.tokens
  | .more i rest => i.tokens ++ rest.tokens

/-- The tokens between brackets. -/
def Inside.tokens : Inside → List Token
  | .empty => []
  | .part p rest => p.tokens ++ rest.tokens
  | .comma t rest _ => t :: rest.tokens

end

/-- The first token of a part. -/
def Part.first : Part → Token
  | plain t _ | group t _ _ _ _ | ofBlock t _ _ | letBlock t _ _ _ _ => t

/-- The first token of an item. -/
def Item.first : Item → Token
  | last p | more p _ => p.first

/-- The first token of items. -/
def Items.first : Items → Token
  | last i | more i _ => i.first

/-- The first token after an opening bracket, when `right` is the closing one. -/
def Inside.first (right : Token) : Inside → Token
  | empty => right
  | part p _ => p.first
  | comma t _ _ => t

theorem Part.head?_tokens (p : Part) (rest : List Token) : (p.tokens ++ rest).head? = some p.first := by
  cases p <;> rfl

theorem Item.head?_tokens (i : Item) (rest : List Token) : (i.tokens ++ rest).head? = some i.first := by
  cases i with
  | last p => exact p.head?_tokens rest
  | more p more =>
    rw [tokens, List.append_assoc]
    exact p.head?_tokens _

theorem Items.head?_tokens (items : Items) (rest : List Token) : (items.tokens ++ rest).head? = some items.first := by
  cases items with
  | last i => exact i.head?_tokens rest
  | more i more =>
    rw [tokens, List.append_assoc]
    exact i.head?_tokens _

theorem Inside.head?_tokens (inside : Inside) (right : Token) (rest : List Token) :
    (inside.tokens ++ right :: rest).head? = some (inside.first right) := by
  cases inside with
  | empty => rfl
  | part p more =>
    rw [tokens, List.append_assoc]
    exact p.head?_tokens _
  | comma t more ht => rfl

/-- No part begins with `in`. -/
theorem Part.text_first_ne (p : Part) : p.first.text ≠ "in" := by
  cases p with
  | plain t ht =>
    simp only [Token.isPlain, Bool.and_eq_true, bne_iff_ne] at ht
    exact ht.2
  | group left inside right hleft hright =>
    simp only [Token.opens, Bool.and_eq_true, Bool.or_eq_true, beq_iff_eq] at hleft
    rcases hleft.2 with (h | h) | h <;> (rw [first, h]; decide)
  | ofBlock keyword items hkeyword =>
    rw [first, (Token.isName_iff.1 hkeyword).2]
    decide
  | letBlock keyword items closer hkeyword hcloser =>
    rw [first, (Token.isName_iff.1 hkeyword).2]
    decide

theorem Items.text_first_ne (items : Items) : items.first.text ≠ "in" := by
  cases items with
  | last i | more i rest => cases i <;> exact Part.text_first_ne _

/-- No part begins with a comma. -/
theorem Part.kind_first_ne (p : Part) : p.first.kind ≠ .comma := by
  cases p with
  | plain t ht =>
    simp only [Token.isPlain, Bool.and_eq_true, bne_iff_ne] at ht
    exact ht.1.1.1.2
  | group left inside right hleft hright =>
    simp only [Token.opens, Bool.and_eq_true, beq_iff_eq] at hleft
    rw [first, hleft.1]
    decide
  | ofBlock keyword items hkeyword =>
    rw [first, (Token.isName_iff.1 hkeyword).1]
    decide
  | letBlock keyword items closer hkeyword hcloser =>
    rw [first, (Token.isName_iff.1 hkeyword).1]
    decide

mutual

/-- The row in which a part ends: that of the last character of its last token. -/
def Part.endLine : Part → Nat
  | .plain t _ => t.endLine
  | .group _ _ right _ _ => right.endLine
  | .ofBlock _ items _ => items.endLine
  | .letBlock _ _ closer _ _ => closer.endLine

/-- The row in which an item ends. -/
def Item.endLine : Item → Nat
  | .last p => p.endLine
  | .more _ rest => rest.endLine

/-- The row in which items end. -/
def Items.endLine : Items → Nat
  | .last i => i.endLine
  | .more _ rest => rest.endLine

end

/-! ## Markers -/

mutual

/-- A part with the markers of the blocks in it. -/
def Part.marked : Part → List (Marker ⊕ Token)
  | .plain t _ => [.inr t]
  | .group left inside right _ _ => .inr left :: (inside.marked ++ [.inr right])
  | .ofBlock keyword items _ => .inr keyword :: .inl .opening :: (items.marked ++ [.inl .closing])
  | .letBlock keyword items closer _ _ =>
    .inr keyword :: .inl .opening :: (items.marked ++ [.inl .closing, .inr closer])

/-- An item with the markers of the blocks in it. -/
def Item.marked : Item → List (Marker ⊕ Token)
  | .last p => p.marked
  | .more p rest => p.marked ++ rest.marked

/-- Items with the markers between them and those of the blocks in them. -/
def Items.marked : Items → List (Marker ⊕ Token)
  | .last i => i.marked
  | .more i rest => i.marked ++ .inl .separating :: rest.marked

/-- What stands between brackets, with the markers of the blocks in it. -/
def Inside.marked : Inside → List (Marker ⊕ Token)
  | .empty => []
  | .part p rest => p.marked ++ rest.marked
  | .comma t rest _ => .inr t :: rest.marked

end

/-! ## The markers tell the tree -/

/-- What a token begins or ends. -/
inductive Role where
  | plain
  | group
  | ofBlock
  | letBlock
  | comma
  | closing

/-- The role of a token; that of an `in` does not matter. -/
def Role.ofToken (t : Token) : Role :=
  if t.closes then .closing
  else if t.kind = .comma then .comma
  else if t.opens then .group
  else if t.isName "of" then .ofBlock
  else if t.isName "let" then .letBlock
  else .plain

/-- The role of the first token of a part. -/
def Part.role : Part → Role
  | plain _ _ => .plain
  | group _ _ _ _ _ => .group
  | ofBlock _ _ _ => .ofBlock
  | letBlock _ _ _ _ _ => .letBlock

/-- The role of the first token after an opening bracket. -/
def Inside.role : Inside → Role
  | empty => .closing
  | part p _ => p.role
  | comma _ _ _ => .comma

theorem Part.role_first (p : Part) : Role.ofToken p.first = p.role := by
  cases p with
  | plain t ht =>
    simp only [Token.isPlain, Bool.and_eq_true, bne_iff_ne, Bool.not_eq_true'] at ht
    obtain ⟨⟨⟨⟨hbracket, hcomma⟩, hof⟩, hlet⟩, -⟩ := ht
    simp [first, role, Role.ofToken, Token.closes, Token.opens, hbracket, hcomma, hof, hlet]
  | group left inside right hleft hright =>
    have hkind := hleft
    simp only [Token.opens, Bool.and_eq_true, beq_iff_eq] at hkind
    simp [first, role, Role.ofToken, Token.closes, hkind, hleft]
  | ofBlock keyword items hkeyword =>
    obtain ⟨hkind, htext⟩ := Token.isName_iff.1 hkeyword
    simp [first, role, Role.ofToken, Token.closes, Token.opens, Token.isName, hkind, htext]
  | letBlock keyword items closer hkeyword hcloser =>
    obtain ⟨hkind, htext⟩ := Token.isName_iff.1 hkeyword
    simp [first, role, Role.ofToken, Token.closes, Token.opens, Token.isName, hkind, htext]

theorem Inside.role_first (inside : Inside) {right : Token} (hright : right.closes = true) :
    Role.ofToken (inside.first right) = inside.role := by
  cases inside with
  | empty => simp [first, role, Role.ofToken, hright]
  | part p rest => exact p.role_first
  | comma t rest ht => simp [first, role, Role.ofToken, Token.closes, ht]

theorem Part.head?_marked (p : Part) (rest : List (Marker ⊕ Token)) : (p.marked ++ rest).head? = some (.inr p.first) := by
  cases p <;> rfl

theorem Item.head?_marked (i : Item) (rest : List (Marker ⊕ Token)) : (i.marked ++ rest).head? = some (.inr i.first) := by
  cases i with
  | last p => exact p.head?_marked rest
  | more p more =>
    rw [marked, List.append_assoc]
    exact p.head?_marked _

theorem Inside.head?_marked (inside : Inside) (right : Token) (rest : List (Marker ⊕ Token)) :
    (inside.marked ++ .inr right :: rest).head? = some (.inr (inside.first right)) := by
  cases inside with
  | empty => rfl
  | part p more =>
    rw [marked, List.append_assoc]
    exact p.head?_marked _
  | comma t more ht => rfl

/-- Parts with the same tokens and markers are of one kind. -/
theorem Part.role_eq {p q : Part} {r r' : List (Marker ⊕ Token)} (h : p.marked ++ r = q.marked ++ r') :
    p.role = q.role := by
  have hhead := congrArg List.head? h
  rw [p.head?_marked, q.head?_marked] at hhead
  rw [← p.role_first, ← q.role_first, Sum.inr.inj (Option.some.inj hhead)]

theorem Inside.role_eq {i j : Inside} {right right' : Token} {r r' : List (Marker ⊕ Token)} (hright : right.closes = true)
    (hright' : right'.closes = true) (h : i.marked ++ .inr right :: r = j.marked ++ .inr right' :: r') : i.role = j.role := by
  have hhead := congrArg List.head? h
  rw [i.head?_marked, j.head?_marked] at hhead
  rw [← i.role_first hright, ← j.role_first hright', Sum.inr.inj (Option.some.inj hhead)]

mutual

/-- The tokens and markers of a part tell the part and where it ends. -/
theorem Part.marked_append_inj : ∀ (p q : Part) {r r' : List (Marker ⊕ Token)}, p.marked ++ r = q.marked ++ r' →
    p = q ∧ r = r'
  | .plain t ht, q, r, r', h => by
    cases q with
    | plain u hu => simpa [Part.marked] using h
    | group | ofBlock | letBlock => exact nomatch Part.role_eq h
  | .group left inside right hleft hright, q, r, r', h => by
    cases q with
    | group left' inside' right' hleft' hright' =>
      simp only [Part.marked, List.cons_append, List.append_assoc, List.nil_append, List.cons.injEq, Sum.inr.injEq] at h
      obtain ⟨rfl, hinside⟩ := h
      obtain ⟨rfl, rfl, rfl⟩ := Inside.marked_append_inj inside inside' hright hright' hinside
      exact ⟨rfl, rfl⟩
    | plain | ofBlock | letBlock => exact nomatch Part.role_eq h
  | .ofBlock keyword items hkeyword, q, r, r', h => by
    cases q with
    | ofBlock keyword' items' hkeyword' =>
      simp only [Part.marked, List.cons_append, List.append_assoc, List.nil_append, List.cons.injEq, Sum.inr.injEq] at h
      obtain ⟨rfl, -, hitems⟩ := h
      obtain ⟨rfl, hrest⟩ := Items.marked_append_inj items items' (by simp) (by simp) hitems
      exact ⟨rfl, (List.cons.inj hrest).2⟩
    | plain | group | letBlock => exact nomatch Part.role_eq h
  | .letBlock keyword items closer hkeyword hcloser, q, r, r', h => by
    cases q with
    | letBlock keyword' items' closer' hkeyword' hcloser' =>
      simp only [Part.marked, List.cons_append, List.append_assoc, List.nil_append, List.cons.injEq, Sum.inr.injEq] at h
      obtain ⟨rfl, -, hitems⟩ := h
      obtain ⟨rfl, hrest⟩ := Items.marked_append_inj items items' (by simp) (by simp) hitems
      simp only [List.cons.injEq, Sum.inr.injEq, true_and] at hrest
      obtain ⟨rfl, rfl⟩ := hrest
      exact ⟨rfl, rfl⟩
    | plain | group | ofBlock => exact nomatch Part.role_eq h

/-- So do those of an item that no token follows. -/
theorem Item.marked_append_inj : ∀ (i j : Item) {r r' : List (Marker ⊕ Token)}, (∀ t, .inr t ∉ r.head?) →
    (∀ t, .inr t ∉ r'.head?) → i.marked ++ r = j.marked ++ r' → i = j ∧ r = r'
  | .last p, .last q, r, r', hr, hr', h => by
    obtain ⟨rfl, hrest⟩ := Part.marked_append_inj p q h
    exact ⟨rfl, hrest⟩
  | .last p, .more q j, r, r', hr, hr', h => by
    rw [Item.marked, Item.marked, List.append_assoc] at h
    obtain ⟨-, hrest⟩ := Part.marked_append_inj p q h
    exact absurd (hrest ▸ j.head?_marked r') (hr j.first)
  | .more p i, .last q, r, r', hr, hr', h => by
    rw [Item.marked, Item.marked, List.append_assoc] at h
    obtain ⟨-, hrest⟩ := Part.marked_append_inj p q h
    exact absurd (hrest ▸ i.head?_marked r) (hr' i.first)
  | .more p i, .more q j, r, r', hr, hr', h => by
    rw [Item.marked, Item.marked, List.append_assoc, List.append_assoc] at h
    obtain ⟨rfl, hmore⟩ := Part.marked_append_inj p q h
    obtain ⟨rfl, hrest⟩ := Item.marked_append_inj i j hr hr' hmore
    exact ⟨rfl, hrest⟩

/-- So do those of items before a closing marker or at the end. -/
theorem Items.marked_append_inj : ∀ (i j : Items) {r r' : List (Marker ⊕ Token)}, (∀ x ∈ r.head?, x = .inl .closing) →
    (∀ x ∈ r'.head?, x = .inl .closing) → i.marked ++ r = j.marked ++ r' → i = j ∧ r = r'
  | .last i, .last j, r, r', hr, hr', h => by
    obtain ⟨rfl, hrest⟩ := Item.marked_append_inj i j (fun t ht => nomatch hr _ ht) (fun t ht => nomatch hr' _ ht) h
    exact ⟨rfl, hrest⟩
  | .last i, .more j more, r, r', hr, hr', h => by
    rw [Items.marked, Items.marked, List.append_assoc] at h
    obtain ⟨-, rfl⟩ := Item.marked_append_inj i j (fun t ht => nomatch hr _ ht) (by simp) h
    exact nomatch hr _ rfl
  | .more i more, .last j, r, r', hr, hr', h => by
    rw [Items.marked, Items.marked, List.append_assoc] at h
    obtain ⟨-, rfl⟩ := Item.marked_append_inj i j (by simp) (fun t ht => nomatch hr' _ ht) h
    exact nomatch hr' _ rfl
  | .more i more, .more j more', r, r', hr, hr', h => by
    rw [Items.marked, Items.marked, List.append_assoc, List.append_assoc] at h
    obtain ⟨rfl, hmore⟩ := Item.marked_append_inj i j (by simp) (by simp) h
    obtain ⟨rfl, hrest⟩ := Items.marked_append_inj more more' hr hr' (List.cons.inj hmore).2
    exact ⟨rfl, hrest⟩

/-- So do those of what stands before a closing bracket. -/
theorem Inside.marked_append_inj : ∀ (i j : Inside) {right right' : Token} {r r' : List (Marker ⊕ Token)},
    right.closes = true → right'.closes = true → i.marked ++ .inr right :: r = j.marked ++ .inr right' :: r' →
    i = j ∧ right = right' ∧ r = r'
  | .empty, j, right, right', r, r', hright, hright', h => by
    cases j with
    | empty => simpa [Inside.marked] using h
    | part q j => cases q <;> exact nomatch Inside.role_eq hright hright' h
    | comma u j hu => exact nomatch Inside.role_eq hright hright' h
  | .part p i, j, right, right', r, r', hright, hright', h => by
    cases j with
    | part q j =>
      rw [Inside.marked, Inside.marked, List.append_assoc, List.append_assoc] at h
      obtain ⟨rfl, hmore⟩ := Part.marked_append_inj p q h
      obtain ⟨rfl, hrest⟩ := Inside.marked_append_inj i j hright hright' hmore
      exact ⟨rfl, hrest⟩
    | empty | comma => cases p <;> exact nomatch Inside.role_eq hright hright' h
  | .comma t i ht, j, right, right', r, r', hright, hright', h => by
    cases j with
    | comma u j hu =>
      simp only [Inside.marked, List.cons_append, List.cons.injEq, Sum.inr.injEq] at h
      obtain ⟨rfl, hmore⟩ := h
      obtain ⟨rfl, hrest⟩ := Inside.marked_append_inj i j hright hright' hmore
      exact ⟨rfl, hrest⟩
    | empty => exact nomatch Inside.role_eq hright hright' h
    | part q j => cases q <;> exact nomatch Inside.role_eq hright hright' h

end

/-- No two trees have the same tokens and markers. -/
theorem Items.marked_injective : Function.Injective Items.marked := by
  intro i j h
  have happend : i.marked ++ [] = j.marked ++ [] := by rw [h]
  have hends : ∀ x ∈ ([] : List (Marker ⊕ Token)).head?, x = .inl .closing := nofun
  exact (Items.marked_append_inj i j hends hends happend).1

/-! ## Places -/

/-- A token starts a line when the token before it, which ends in row `previous`, ends in another row. -/
def StartsLine (previous : Nat) (t : Token) : Prop := t.line ≠ previous

/-- What may come after an `of` block at `column` whose last token ends in row `previous`: nothing, the `in` of a `let` around
it, a closing bracket or a comma around it, or a line that starts left of the block. A line that starts right at the column of
the block starts with an item, so a bracket or comma does not stand there. -/
def EndsBlock (column previous : Nat) : Option Token → Prop
  | none => True
  | some t =>
    t.isName "in" = true ∨
    (t.closes = true ∨ t.kind = .comma) ∧ (StartsLine previous t → t.column ≠ column) ∨
    StartsLine previous t ∧ t.column < column

instance (previous : Nat) (t : Token) : Decidable (StartsLine previous t) := inferInstanceAs (Decidable (_ ≠ _))

instance (column previous : Nat) : (next : Option Token) → Decidable (EndsBlock column previous next)
  | none => inferInstanceAs (Decidable True)
  | some _ => inferInstanceAs (Decidable (_ ∨ _ ∧ _ ∨ _ ∧ _))

mutual

/-- A part of an item is placed in a block at `column` when its tokens after the first are, and the token `next` after it. Blocks
are indented more than the block around them, and an `in` that starts a line is not indented less. -/
def Part.Placed (column : Nat) (next : Option Token) : Part → Prop
  | .plain _ _ => True
  | .group left inside right _ _ => inside.Placed column left.endLine right
  | .ofBlock _ items _ =>
    column < items.first.column ∧ items.Placed items.first.column next ∧
      EndsBlock items.first.column items.endLine next
  | .letBlock _ items closer _ _ =>
    column < items.first.column ∧ items.Placed items.first.column (some closer) ∧
      (StartsLine items.endLine closer → column ≤ closer.column)

/-- An item is placed when its parts are, and the lines that later parts start are indented more than the block. -/
def Item.Placed (column : Nat) (next : Option Token) : Item → Prop
  | .last p => p.Placed column next
  | .more p rest =>
    p.Placed column (some rest.first) ∧ (StartsLine p.endLine rest.first → column < rest.first.column) ∧
      rest.Placed column next

/-- Items are placed in a block at `column` when each of them is, and each after the first starts a line at that column. -/
def Items.Placed (column : Nat) (next : Option Token) : Items → Prop
  | .last i => i.Placed column next
  | .more i rest =>
    i.Placed column (some rest.first) ∧ StartsLine i.endLine rest.first ∧ rest.first.column = column ∧
      rest.Placed column next

/-- Between brackets, and at the closing one, lines are not indented less than the block around the brackets. -/
def Inside.Placed (column previous : Nat) (right : Token) : Inside → Prop
  | .empty => StartsLine previous right → column ≤ right.column
  | .part p rest =>
    (StartsLine previous p.first → column ≤ p.first.column) ∧ p.Placed column (some (rest.first right)) ∧
      rest.Placed column p.endLine right
  | .comma t rest _ => (StartsLine previous t → column ≤ t.column) ∧ rest.Placed column t.endLine right

end

mutual

/-- Whether a part is placed can be computed. -/
def Part.decidablePlaced (column : Nat) (next : Option Token) : (p : Part) → Decidable (p.Placed column next)
  | .plain _ _ => .isTrue trivial
  | .group left inside right _ _ => inside.decidablePlaced column left.endLine right
  | .ofBlock _ items _ =>
    have := items.decidablePlaced items.first.column next
    inferInstanceAs (Decidable (_ ∧ _ ∧ _))
  | .letBlock _ items closer _ _ =>
    have := items.decidablePlaced items.first.column (some closer)
    inferInstanceAs (Decidable (_ ∧ _ ∧ (_ → _)))

/-- Whether an item is placed can be computed. -/
def Item.decidablePlaced (column : Nat) (next : Option Token) : (i : Item) → Decidable (i.Placed column next)
  | .last p => p.decidablePlaced column next
  | .more p rest =>
    have := p.decidablePlaced column (some rest.first)
    have := rest.decidablePlaced column next
    inferInstanceAs (Decidable (_ ∧ (_ → _) ∧ _))

/-- Whether items are placed can be computed. -/
def Items.decidablePlaced (column : Nat) (next : Option Token) : (items : Items) → Decidable (items.Placed column next)
  | .last i => i.decidablePlaced column next
  | .more i rest =>
    have := i.decidablePlaced column (some rest.first)
    have := rest.decidablePlaced column next
    inferInstanceAs (Decidable (_ ∧ _ ∧ _ ∧ _))

/-- Whether what stands between brackets is placed can be computed. -/
def Inside.decidablePlaced (column previous : Nat) (right : Token) :
    (inside : Inside) → Decidable (inside.Placed column previous right)
  | .empty => inferInstanceAs (Decidable (_ → _))
  | .part p rest =>
    have := p.decidablePlaced column (some (rest.first right))
    have := rest.decidablePlaced column p.endLine right
    inferInstanceAs (Decidable ((_ → _) ∧ _ ∧ _))
  | .comma t rest _ =>
    have := rest.decidablePlaced column t.endLine right
    inferInstanceAs (Decidable ((_ → _) ∧ _))

end

instance (column : Nat) (next : Option Token) (items : Items) : Decidable (items.Placed column next) :=
  items.decidablePlaced column next

end Layout

end ElmLint
