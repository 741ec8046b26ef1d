import ElmLint.Proofs.Suppression
import Mathlib.Data.List.TakeWhile

/-!
# Directive comments are read as they are documented

A list of ids is spelled out as ids with commas between them and blanks around the commas (`Lists`). A list cannot be continued by
the text after it exactly when it is the longest one there (`longestList_of_lists`, `LongestList.not_continues`), and then its ids
are what is read (`idList_of_lists`). What a comment loads is told by cases on its form (`Loads`), and that is what it does load
(`loads_iff`).

* `loadInline_reads_directives`: the directives of a module load what the cases say, and a list with a reason after it suppresses
  the ids of the list.
-/

namespace ElmLint

/-! ## Blanks and word characters -/

/-- The members of a class whose changes come in pairs: those from the first change of a pair up to the second. -/
def CharClass.members : CharClass → List Nat
  | first :: stop :: changes => List.range' first (stop - first) ++ CharClass.members changes
  | _ => []

theorem CharClass.mem_members {n : Nat} : ∀ {changes : CharClass}, changes.length % 2 = 0 → changes.has n = true →
    n ∈ changes.members
  | [], _, h => nomatch h
  | [_], heven, _ => nomatch heven
  | first :: stop :: changes, heven, h => by
    rw [CharClass.members, List.mem_append, List.mem_range'_1]
    unfold CharClass.has at h
    by_cases hfirst : first ≤ n
    · by_cases hstop : stop ≤ n
      · rw [List.takeWhile_cons_of_pos (by simpa), List.takeWhile_cons_of_pos (by simpa), List.length_cons, List.length_cons,
          Nat.add_assoc, Nat.add_mod_right] at h
        rw [List.length_cons, List.length_cons, Nat.add_assoc, Nat.add_mod_right] at heven
        exact .inr (CharClass.mem_members heven h)
      · exact .inl (by omega)
    · rw [List.takeWhile_cons_of_neg (by simpa using hfirst)] at h
      cases h

namespace Directive

theorem isIdChar_of_isSpace {c : Char} (h : isSpace c = true) : isIdChar c = false := by
  have hmember : c.toNat ∈ spaceClass.members := CharClass.mem_members rfl h
  have hnone : ∀ n ∈ spaceClass.members, (wordClass.has n || n == '*'.toNat) = false := by decide +kernel
  have hc := Bool.or_eq_false_iff.1 (hnone _ hmember)
  have hstar : (c == '*') = false := by
    rw [beq_eq_false_iff_ne]
    rintro rfl
    exact absurd hc.2 (by decide)
  exact Bool.or_eq_false_iff.2 ⟨hc.1, hstar⟩

theorem isIdChar_comma : isIdChar ',' = false := by decide +kernel

theorem isSpace_comma : isSpace ',' = false := by decide

/-! ## Lists of ids -/

/-- All characters are blanks. -/
def Blanks (cs : List Char) : Prop := ∀ c ∈ cs, isSpace c = true

/-- One or more id characters. -/
def IsId (cs : List Char) : Prop := cs ≠ [] ∧ ∀ c ∈ cs, isIdChar c = true

/-- A text spells out a list of ids. -/
inductive Lists : List String → List Char → Prop
  | one {id : List Char} : IsId id → Lists [String.ofList id] id
  | more {id before after : List Char} {ids : List String} {list : List Char} : IsId id → Blanks before → Blanks after →
      Lists ids list → Lists (String.ofList id :: ids) (id ++ (before ++ ',' :: (after ++ list)))

/-- A text goes on with the list that ends before it: with more of the last id, or with a comma and another id. -/
inductive Continues : List Char → Prop
  | id {id rest : List Char} : IsId id → Continues (id ++ rest)
  | comma {before after id rest : List Char} : Blanks before → Blanks after → IsId id →
      Continues (before ++ ',' :: (after ++ (id ++ rest)))

/-- The ids of the longest list that a text begins with. -/
def LongestList (ids : List String) (text : List Char) : Prop :=
  ∃ list reason, text = list ++ reason ∧ Lists ids list ∧
    ∀ ids' list' reason', text = list' ++ reason' → Lists ids' list' → list'.length ≤ list.length

/-- A comment is a directive, with this text after the keyword. -/
def Announces (comment rest : List Char) : Prop :=
  ∃ blanks, Blanks blanks ∧ comment = '-' :: '-' :: (blanks ++ (keyword ++ rest))

/-- What a comment loads, by its form. -/
inductive Loads (comment : List Char) : List String → Prop
  /-- It is no directive. -/
  | other : (∀ rest, ¬ Announces comment rest) → Loads comment []
  /-- The keyword is part of a longer word. -/
  | longer {c : Char} {rest : List Char} : Announces comment (c :: rest) → continuesKeyword c = true → Loads comment []
  /-- Blanks and a list of ids follow the keyword. -/
  | listed {blanks text : List Char} {ids : List String} : Announces comment (blanks ++ text) → blanks ≠ [] → Blanks blanks →
      LongestList ids text → Loads comment ids
  /-- Anything else follows the keyword. -/
  | bare {rest : List Char} : Announces comment rest → (∀ c ∈ rest.head?, continuesKeyword c = false) →
      (∀ blanks id reason, blanks ≠ [] → Blanks blanks → IsId id → rest ≠ blanks ++ (id ++ reason)) → Loads comment [wildcard]

/-! ## Runs of characters -/

section Runs

variable {p : Char → Bool} {a b x y : List Char}

theorem takeWhile_run (ha : ∀ c ∈ a, p c = true) (hx : ∀ c ∈ x.head?, p c = false) : (a ++ x).takeWhile p = a := by
  rw [List.takeWhile_append_of_pos ha]
  cases x with
  | nil => exact List.append_nil a
  | cons c x => rw [List.takeWhile_cons_of_neg (by simp [hx c rfl]), List.append_nil]

theorem dropWhile_run (ha : ∀ c ∈ a, p c = true) (hx : ∀ c ∈ x.head?, p c = false) : (a ++ x).dropWhile p = x := by
  rw [List.dropWhile_append_of_pos ha]
  cases x with
  | nil => rfl
  | cons c x => exact List.dropWhile_cons_of_neg (by simp [hx c rfl])

theorem head?_dropWhile_run : ∀ c ∈ (x.dropWhile p).head?, p c = false := by
  intro c hc
  have hnot := List.head?_dropWhile_not p x
  rw [Option.mem_def.1 hc] at hnot
  exact hnot

/-- A run that something else follows is no shorter than another run there. -/
theorem length_run_le (ha : ∀ c ∈ a, p c = true) (hx : ∀ c ∈ x.head?, p c = false) (hb : ∀ c ∈ b, p c = true)
    (h : a ++ x = b ++ y) : b.length ≤ a.length := by
  rw [← takeWhile_run ha hx, h, List.takeWhile_append_of_pos hb, List.length_append]
  exact Nat.le_add_right _ _

/-- Two runs that something else follows are the same. -/
theorem eq_of_runs (ha : ∀ c ∈ a, p c = true) (hx : ∀ c ∈ x.head?, p c = false) (hb : ∀ c ∈ b, p c = true)
    (hy : ∀ c ∈ y.head?, p c = false) (h : a ++ x = b ++ y) : a = b ∧ x = y :=
  ⟨by rw [← takeWhile_run ha hx, h, takeWhile_run hb hy], by rw [← dropWhile_run ha hx, h, dropWhile_run hb hy]⟩

end Runs

/-! ## Separators -/

theorem IsId.head? {id rest : List Char} (h : IsId id) : ∃ c ∈ (id ++ rest).head?, isIdChar c = true := by
  obtain ⟨c, cs, rfl⟩ := List.exists_cons_of_ne_nil h.1
  exact ⟨c, rfl, h.2 c List.mem_cons_self⟩

theorem IsId.head?_isSpace {id rest : List Char} (h : IsId id) : ∀ c ∈ (id ++ rest).head?, isSpace c = false := by
  intro c hc
  obtain ⟨d, hd, hid⟩ : ∃ d ∈ (id ++ rest).head?, isIdChar d = true := h.head?
  obtain rfl := Option.mem_unique hc hd
  rw [← Bool.not_eq_true]
  intro hspace
  rw [isIdChar_of_isSpace hspace] at hid
  cases hid

/-- What begins with an id is told by its first character. -/
theorem exists_isId {cs : List Char} {c : Char} (hc : c ∈ cs.head?) (hid : isIdChar c = true) :
    ∃ id rest, IsId id ∧ cs = id ++ rest := by
  obtain ⟨cs, rfl⟩ := List.head?_eq_some_iff.1 hc
  exact ⟨[c], cs, ⟨List.cons_ne_nil _ _, by simpa using hid⟩, rfl⟩

theorem append_separated (id before after list reason : List Char) : id ++ (before ++ ',' :: (after ++ list)) ++ reason =
    id ++ (before ++ ',' :: (after ++ (list ++ reason))) := by
  simp

/-- A separator does not begin with an id character. -/
theorem head?_separator {before rest : List Char} (h : Blanks before) :
    ∀ c ∈ (before ++ ',' :: rest).head?, isIdChar c = false := by
  intro c hc
  cases before with
  | nil => exact Option.some.inj hc ▸ isIdChar_comma
  | cons d before => exact Option.some.inj hc ▸ isIdChar_of_isSpace (h d List.mem_cons_self)

theorem afterComma?_separator {before after rest : List Char} (hbefore : Blanks before) (hafter : Blanks after)
    (hrest : ∀ c ∈ rest.head?, isSpace c = false) : afterComma? (before ++ ',' :: (after ++ rest)) = some rest := by
  have hcomma : (before ++ ',' :: (after ++ rest)).dropWhile isSpace = ',' :: (after ++ rest) :=
    dropWhile_run hbefore fun c hc => Option.some.inj hc ▸ isSpace_comma
  simp only [afterComma?, hcomma, dropWhile_run hafter hrest]

theorem exists_of_afterComma? {cs rest : List Char} (h : afterComma? cs = some rest) :
    ∃ before after, Blanks before ∧ Blanks after ∧ cs = before ++ ',' :: (after ++ rest) := by
  unfold afterComma? at h
  split at h
  · rename_i text hcomma
    obtain rfl := Option.some.inj h
    refine ⟨cs.takeWhile isSpace, text.takeWhile isSpace, fun c => List.mem_takeWhile_imp, fun c => List.mem_takeWhile_imp, ?_⟩
    rw [List.takeWhile_append_dropWhile, ← hcomma, List.takeWhile_append_dropWhile]
  · cases h

/-- A text goes on with a list exactly when it begins with an id character or has one after a comma. -/
theorem continues_iff (cs : List Char) : Continues cs ↔
    (∃ c ∈ cs.head?, isIdChar c = true) ∨ ∃ rest, afterComma? cs = some rest ∧ ∃ c ∈ rest.head?, isIdChar c = true := by
  constructor
  · rintro (hid | ⟨hbefore, hafter, hid⟩)
    · exact .inl hid.head?
    · exact .inr ⟨_, afterComma?_separator hbefore hafter hid.head?_isSpace, hid.head?⟩
  · rintro (⟨c, hc, hid⟩ | ⟨rest, hcomma, c, hc, hid⟩)
    · obtain ⟨id, rest, hid, rfl⟩ := exists_isId hc hid
      exact .id hid
    · obtain ⟨before, after, hbefore, hafter, rfl⟩ := exists_of_afterComma? hcomma
      obtain ⟨id, rest, hid, rfl⟩ := exists_isId hc hid
      exact .comma hbefore hafter hid

/-- Whether a text goes on with a list is told by two of its characters. -/
instance (cs : List Char) : Decidable (Continues cs) :=
  decidable_of_iff (cs.head?.any isIdChar = true ∨ (afterComma? cs).any (·.head?.any isIdChar) = true) <| by
    simp only [continues_iff, Option.any_eq_true, Option.mem_def]

theorem head?_of_not_continues {cs : List Char} (h : ¬ Continues cs) : ∀ c ∈ cs.head?, isIdChar c = false := by
  intro c hc
  rw [← Bool.not_eq_true]
  exact fun hid => h ((continues_iff cs).2 (.inl ⟨c, hc, hid⟩))

/-! ## The longest list -/

/-- A list begins with an id. -/
theorem Lists.exists_id {ids : List String} {list : List Char} (h : Lists ids list) : ∃ id rest, IsId id ∧ list = id ++ rest := by
  cases h with
  | one hid => exact ⟨_, [], hid, (List.append_nil _).symm⟩
  | more hid => exact ⟨_, _, hid, rfl⟩

theorem Lists.head?_isSpace {ids : List String} {list rest : List Char} (h : Lists ids list) :
    ∀ c ∈ (list ++ rest).head?, isSpace c = false := by
  obtain ⟨id, more, hid, rfl⟩ := h.exists_id
  rw [List.append_assoc]
  exact hid.head?_isSpace

/-- A list that the text after it continues is not the longest. -/
theorem Lists.exists_longer {ids : List String} {list reason : List Char} (h : Lists ids list) (hreason : Continues reason) :
    ∃ ids' list' reason', list ++ reason = list' ++ reason' ∧ Lists ids' list' ∧ list.length < list'.length := by
  induction h with
  | @one id hid =>
    cases hreason with
    | @id more rest hmore =>
      refine ⟨_, id ++ more, rest, by simp, .one ⟨by simp [hid.1], ?_⟩, ?_⟩
      · intro c hc
        exact (List.mem_append.1 hc).elim (hid.2 c) (hmore.2 c)
      · simpa using List.length_pos_iff.2 hmore.1
    | @comma before after next rest hbefore hafter hnext =>
      refine ⟨_, _, rest, ?_, .more hid hbefore hafter (.one hnext), ?_⟩
      · simp
      · simp only [List.length_append, List.length_cons]
        omega
  | @more id before after ids list hid hbefore hafter hlist ih =>
    obtain ⟨ids', list', reason', happend, hlists, hlength⟩ := ih
    refine ⟨_, _, reason', ?_, .more hid hbefore hafter hlists, ?_⟩
    · simp [happend]
    · simpa using hlength

theorem LongestList.not_continues {ids : List String} {list reason : List Char} (h : Lists ids list)
    (hlongest : ∀ ids' list' reason', list ++ reason = list' ++ reason' → Lists ids' list' → list'.length ≤ list.length) :
    ¬ Continues reason := by
  intro hreason
  obtain ⟨ids', list', reason', happend, hlists, hlength⟩ := h.exists_longer hreason
  exact absurd (hlongest ids' list' reason' happend hlists) (Nat.not_le_of_lt hlength)

/-- A list that the text after it does not continue is no shorter than another list there. -/
theorem Lists.length_le {ids : List String} {list reason : List Char} (h : Lists ids list) (hreason : ¬ Continues reason) :
    ∀ {ids' : List String} {list' reason' : List Char}, Lists ids' list' → list ++ reason = list' ++ reason' →
      list'.length ≤ list.length := by
  induction h with
  | @one id hid =>
    intro ids' list' reason' h' happend
    have hhead := head?_of_not_continues hreason
    cases h' with
    | one hid' => exact length_run_le hid.2 hhead hid'.2 happend
    | more hid' hbefore' hafter' hlist' =>
      rw [append_separated] at happend
      obtain ⟨-, rfl⟩ := eq_of_runs hid.2 hhead hid'.2 (head?_separator hbefore') happend
      obtain ⟨next, rest, hnext, rfl⟩ := hlist'.exists_id
      rw [List.append_assoc] at hreason
      exact absurd (.comma hbefore' hafter' hnext) hreason
  | @more id before after ids list hid hbefore hafter hlist ih =>
    intro ids' list' reason' h' happend
    rw [append_separated] at happend
    cases h' with
    | one hid' =>
      have hle := length_run_le hid.2 (head?_separator hbefore) hid'.2 happend
      rw [List.length_append]
      exact Nat.le_add_right_of_le hle
    | more hid' hbefore' hafter' hlist' =>
      rw [append_separated] at happend
      obtain ⟨rfl, hseparator⟩ := eq_of_runs hid.2 (head?_separator hbefore) hid'.2 (head?_separator hbefore') happend
      have hcomma : ∀ rest : List Char, ∀ c ∈ (',' :: rest).head?, isSpace c = false :=
        fun rest c hc => Option.some.inj hc ▸ isSpace_comma
      obtain ⟨rfl, htail⟩ := eq_of_runs hbefore (hcomma _) hbefore' (hcomma _) hseparator
      obtain ⟨rfl, hrest⟩ := eq_of_runs hafter hlist.head?_isSpace hafter' hlist'.head?_isSpace (List.cons.inj htail).2
      have hle := ih hlist' hrest
      simpa using hle

theorem longestList_of_lists {ids : List String} {list reason : List Char} (h : Lists ids list) (hreason : ¬ Continues reason) :
    LongestList ids (list ++ reason) :=
  ⟨list, reason, rfl, h, fun _ _ _ happend h' => h.length_le hreason h' happend⟩

/-! ## Reading a list -/

theorem idList_of_head? {cs : List Char} (h : ∀ c ∈ cs.head?, isIdChar c = false) : ∀ bound, idList bound cs = []
  | 0 => rfl
  | bound + 1 => by
    have hnone : cs.takeWhile isIdChar = [] := takeWhile_run (a := []) (fun _ hc => nomatch hc) h
    simp [idList, hnone]

/-- An id is read, and what its separator leads to. -/
theorem idList_append {id rest : List Char} (hid : IsId id) (hrest : ∀ c ∈ rest.head?, isIdChar c = false) (bound : Nat) :
    idList (bound + 1) (id ++ rest) = String.ofList id :: ((afterComma? rest).elim [] (idList bound)) := by
  have hempty : id.isEmpty = false := by simp [hid.1]
  simp only [idList, takeWhile_run hid.2 hrest, hempty, List.drop_left]
  cases afterComma? rest <;> rfl

/-- A list that the text after it does not continue is read. -/
theorem idList_of_lists {ids : List String} {list reason : List Char} (h : Lists ids list) (hreason : ¬ Continues reason) :
    ∀ {bound : Nat}, list.length ≤ bound → idList bound (list ++ reason) = ids := by
  induction h with
  | @one id hid =>
    intro bound hbound
    have hpos : 1 ≤ bound := Nat.le_trans (List.length_pos_iff.2 hid.1) hbound
    obtain ⟨bound, rfl⟩ := Nat.exists_eq_add_of_le' hpos
    rw [idList_append hid (head?_of_not_continues hreason)]
    cases hcomma : afterComma? reason with
    | none => rfl
    | some rest =>
      refine congrArg (String.ofList id :: ·) (idList_of_head? (fun c hc => ?_) _)
      rw [← Bool.not_eq_true]
      exact fun hchar => hreason ((continues_iff reason).2 (.inr ⟨rest, hcomma, c, hc, hchar⟩))
  | @more id before after ids list hid hbefore hafter hlist ih =>
    intro bound hbound
    simp only [List.length_append, List.length_cons] at hbound
    have hpos : 1 ≤ bound := by omega
    obtain ⟨bound, rfl⟩ := Nat.exists_eq_add_of_le' hpos
    rw [append_separated, idList_append hid (head?_separator hbefore),
      afterComma?_separator hbefore hafter hlist.head?_isSpace, Option.elim_some, ih (by omega)]

/-- What is read is a list that the text after it does not continue. -/
theorem exists_lists_of_idList : ∀ {bound : Nat} {text : List Char}, text.length ≤ bound →
    (∃ c ∈ text.head?, isIdChar c = true) →
    ∃ list reason, text = list ++ reason ∧ Lists (idList bound text) list ∧ ¬ Continues reason
  | 0, text, hbound, ⟨c, hc, _⟩ => by
    rw [List.eq_nil_of_length_eq_zero (Nat.le_zero.1 hbound)] at hc
    cases hc
  | bound + 1, text, hbound, ⟨c, hc, hchar⟩ => by
    have hsplit : text = text.takeWhile isIdChar ++ text.dropWhile isIdChar := List.takeWhile_append_dropWhile.symm
    have hid : IsId (text.takeWhile isIdChar) := by
      refine ⟨?_, fun c => List.mem_takeWhile_imp⟩
      obtain ⟨rest, rfl⟩ := List.head?_eq_some_iff.1 hc
      rw [List.takeWhile_cons_of_pos hchar]
      exact List.cons_ne_nil _ _
    have hstop : ∀ c ∈ (text.dropWhile isIdChar).head?, isIdChar c = false := head?_dropWhile_run
    generalize text.takeWhile isIdChar = id at hsplit hid
    generalize text.dropWhile isIdChar = rest at hsplit hstop
    subst hsplit
    rw [idList_append hid hstop]
    have hcontinues := continues_iff rest
    cases hcomma : afterComma? rest with
    | none =>
      refine ⟨id, rest, rfl, .one hid, fun hcont => ?_⟩
      rcases hcontinues.1 hcont with ⟨c, hc, hid⟩ | ⟨next, hnext, -⟩
      · exact absurd hid (by simp [hstop c hc])
      · rw [hcomma] at hnext
        cases hnext
    | some next =>
      by_cases hnext : ∃ c ∈ next.head?, isIdChar c = true
      · obtain ⟨before, after, hbefore, hafter, rfl⟩ := exists_of_afterComma? hcomma
        have hlength : next.length ≤ bound := by
          simp only [List.length_append, List.length_cons] at hbound
          omega
        obtain ⟨list, reason, hlist, hlists, hreason⟩ := exists_lists_of_idList hlength hnext
        refine ⟨id ++ (before ++ ',' :: (after ++ list)), reason, ?_, .more hid hbefore hafter hlists, hreason⟩
        rw [append_separated, ← hlist]
      · have hnone : idList bound next = [] :=
          idList_of_head? (fun c hc => Bool.eq_false_iff.2 fun hid => hnext ⟨c, hc, hid⟩) bound
        rw [Option.elim_some, hnone]
        refine ⟨id, rest, rfl, .one hid, fun hcont => ?_⟩
        rcases hcontinues.1 hcont with ⟨c, hc, hid⟩ | ⟨next', hnext', hhead⟩
        · exact absurd hid (by simp [hstop c hc])
        · rw [hcomma] at hnext'
          exact hnext (Option.some.inj hnext' ▸ hhead)

/-! ## Reading a comment -/

/-- What a directive lists, by the text after its keyword. -/
theorem ids?_of_announces {comment rest : List Char} (h : Announces comment rest) : ids? comment =
    if rest.head?.any continuesKeyword then none
    else if rest.head?.any isSpace then some (idList rest.length (rest.dropWhile isSpace)) else some [] := by
  obtain ⟨blanks, hblanks, rfl⟩ := h
  have hkeyword : (blanks ++ (keyword ++ rest)).dropWhile isSpace = keyword ++ rest := by
    refine dropWhile_run hblanks fun c hc => ?_
    obtain rfl : 'e' = c := Option.some.inj hc
    decide
  have hbegins : keyword.isPrefixOf (keyword ++ rest) = true := List.isPrefixOf_iff_prefix.2 (List.prefix_append _ _)
  simp only [ids?, hkeyword, hbegins, if_true, List.drop_left]
  cases rest with
  | nil => rfl
  | cons c rest => rfl

theorem exists_announces {comment : List Char} {ids : List String} (h : ids? comment = some ids) :
    ∃ rest, Announces comment rest := by
  unfold ids? at h
  split at h
  · rename_i text
    dsimp only at h
    split at h
    · rename_i hbegins
      obtain ⟨rest, hrest⟩ := List.isPrefixOf_iff_prefix.1 hbegins
      refine ⟨rest, text.takeWhile isSpace, fun c => List.mem_takeWhile_imp, ?_⟩
      rw [hrest, List.takeWhile_append_dropWhile]
    · cases h
  · cases h

theorem continuesKeyword_of_isSpace {c : Char} (h : isSpace c = true) : continuesKeyword c = false := by
  have hword := (Bool.or_eq_false_iff.1 (isIdChar_of_isSpace h)).1
  have hhyphen : (c == '-') = false := by
    rw [beq_eq_false_iff_ne]
    rintro rfl
    exact absurd h (by decide)
  exact Bool.or_eq_false_iff.2 ⟨hword, hhyphen⟩

/-- Blanks after the keyword are passed over, and what follows them is read. -/
theorem ids?_of_blanks {comment blanks text : List Char} (h : Announces comment (blanks ++ text)) (hne : blanks ≠ [])
    (hblanks : Blanks blanks) (htext : ∀ c ∈ text.head?, isSpace c = false) :
    ids? comment = some (idList (blanks.length + text.length) text) := by
  rw [ids?_of_announces h, dropWhile_run hblanks htext, List.length_append]
  obtain ⟨c, cs, rfl⟩ := List.exists_cons_of_ne_nil hne
  have hc : isSpace c = true := hblanks c List.mem_cons_self
  simp [hc, continuesKeyword_of_isSpace hc]

/-- The ids of a list that follows the keyword are suppressed. -/
theorem suppressed?_of_lists {comment blanks list reason : List Char} {ids : List String}
    (h : Announces comment (blanks ++ (list ++ reason))) (hne : blanks ≠ []) (hblanks : Blanks blanks) (hlists : Lists ids list)
    (hreason : ¬ Continues reason) : suppressed? comment = some ids := by
  have hread := ids?_of_blanks h hne hblanks hlists.head?_isSpace
  rw [idList_of_lists hlists hreason (by rw [List.length_append]; omega)] at hread
  have hids : ids.isEmpty = false := by cases hlists <;> rfl
  rw [suppressed?, hread, Option.map_some, hids]
  rfl

/-- A comment loads what it suppresses. -/
theorem suppressed?_of_loads {comment : List Char} {ids : List String} (h : Loads comment ids) :
    (suppressed? comment).getD [] = ids := by
  cases h with
  | other hnone =>
    cases hids : ids? comment with
    | none => rw [suppressed?, hids]; rfl
    | some ids =>
      obtain ⟨rest, hrest⟩ := exists_announces hids
      exact absurd hrest (hnone rest)
  | longer hform hc =>
    have hnone := ids?_of_announces hform
    rw [List.head?_cons, Option.any_some, hc, if_pos rfl] at hnone
    rw [suppressed?, hnone]
    rfl
  | listed hform hne hblanks hlongest =>
    obtain ⟨list, reason, rfl, hlists, hle⟩ := hlongest
    rw [suppressed?_of_lists hform hne hblanks hlists (LongestList.not_continues hlists hle)]
    rfl
  | @bare rest hform hhead hnolist =>
    have hread := ids?_of_announces hform
    have hcontinues : ¬ rest.head?.any continuesKeyword = true := by
      rw [Option.any_eq_true]
      rintro ⟨c, hc, hlonger⟩
      rw [hhead c hc] at hlonger
      cases hlonger
    have hids : ids? comment = some [] := by
      rw [hread, if_neg hcontinues]
      split
      · rename_i hspace
        refine congrArg some (idList_of_head? (fun c hc => Bool.eq_false_iff.2 fun hid => ?_) _)
        obtain ⟨id, reason, hid, hsplit⟩ := exists_isId hc hid
        obtain ⟨d, hd, hdspace⟩ := (Option.any_eq_true _ _).1 hspace
        obtain ⟨more, rfl⟩ := List.head?_eq_some_iff.1 hd
        refine hnolist ((d :: more).takeWhile isSpace) id reason ?_ (fun c => List.mem_takeWhile_imp) hid ?_
        · rw [List.takeWhile_cons_of_pos hdspace]
          exact List.cons_ne_nil _ _
        · rw [← hsplit, List.takeWhile_append_dropWhile]
      · rfl
    rw [suppressed?, hids]
    rfl

/-- Every comment has one of the forms. -/
theorem exists_loads (comment : List Char) : ∃ ids, Loads comment ids := by
  by_cases hform : ∃ rest, Announces comment rest
  · obtain ⟨rest, hrest⟩ := hform
    by_cases hlonger : ∃ c ∈ rest.head?, continuesKeyword c = true
    · obtain ⟨c, hc, hlonger⟩ := hlonger
      obtain ⟨rest, rfl⟩ := List.head?_eq_some_iff.1 hc
      exact ⟨[], .longer hrest hlonger⟩
    · by_cases hlist : ∃ blanks id reason, blanks ≠ [] ∧ Blanks blanks ∧ IsId id ∧ rest = blanks ++ (id ++ reason)
      · obtain ⟨blanks, id, reason, hne, hblanks, hid, rfl⟩ := hlist
        have hhead : ∃ c ∈ (id ++ reason).head?, isIdChar c = true := hid.head?
        obtain ⟨list, reason', hsplit, hlists, hreason⟩ := exists_lists_of_idList (Nat.le_refl _) hhead
        have hlongest := longestList_of_lists hlists hreason
        rw [← hsplit] at hlongest
        exact ⟨_, .listed hrest hne hblanks hlongest⟩
      · refine ⟨[wildcard], .bare hrest (fun c hc => Bool.eq_false_iff.2 fun h => hlonger ⟨c, hc, h⟩) ?_⟩
        exact fun blanks id reason hne hblanks hid h => hlist ⟨blanks, id, reason, hne, hblanks, hid, h⟩
  · exact ⟨[], .other fun rest hrest => hform ⟨rest, hrest⟩⟩

theorem loads_iff (comment : List Char) (ids : List String) : Loads comment ids ↔ (suppressed? comment).getD [] = ids := by
  refine ⟨suppressed?_of_loads, fun h => ?_⟩
  obtain ⟨ids', hloads⟩ := exists_loads comment
  rwa [← h, suppressed?_of_loads hloads]

end Directive

namespace Suppressions

open Directive

theorem mem_loadInline (s : Suppressions) (m : Module) (entry : String × Nat × String) :
    entry ∈ (s.loadInline m).atLines ↔ entry ∈ s.atLines ∨
      ∃ c ∈ m.comments, ∃ ids, Loads c.text.toList ids ∧ ∃ id ∈ ids, entry = (m.file, c.range.start.row, id) := by
  rw [loadInline, List.mem_append, List.mem_flatMap]
  refine or_congr_right (exists_congr fun c => and_congr_right fun _ => ?_)
  constructor
  · intro h
    obtain ⟨id, hid, rfl⟩ := List.mem_map.1 h
    exact ⟨_, (loads_iff _ _).2 rfl, id, hid, rfl⟩
  · rintro ⟨ids, hloads, id, hid, rfl⟩
    rw [← (loads_iff _ _).1 hloads] at hid
    exact List.mem_map.2 ⟨id, hid, rfl⟩

/-- The suppressions of one comment suppress what it loads, on its line and on the next one. -/
theorem covers_of_loads {m : Module} {c : Comment} {ids : List String} (hcomments : m.comments = [c])
    (h : Loads c.text.toList ids) (d : Diagnostic) : (({} : Suppressions).loadInline m).covers d = true ↔
      m.file = d.file ∧ Reaches c d ∧ (d.errorId ∈ ids ∨ wildcard ∈ ids) := by
  have hnone : ({} : Suppressions).covers d = false := rfl
  rw [covers_loadInline, hnone, Bool.false_or, any_directives_iff]
  simp only [Operation.Covers, hcomments, List.mem_singleton, exists_eq_left, targets_iff, (loads_iff _ _).1 h]
  refine and_congr_right fun _ => and_congr_right fun _ => ?_
  constructor
  · rintro ⟨id, hid, rfl | rfl⟩
    · exact .inl hid
    · exact .inr hid
  · rintro (hid | hid)
    · exact ⟨_, hid, .inl rfl⟩
    · exact ⟨_, hid, .inr rfl⟩

/-- Directive comments are read as they are documented. Every comment has exactly one of the forms, and the comments of a module
add what their forms say, for the file and the line they begin on, and change nothing else. So when a list of ids comes after the
keyword and a reason that does not go on with the list comes after the ids, the ids of the list are loaded, and with nothing else
suppressed a diagnostic on that line or the next one is suppressed exactly when its id is one of them or all ids are meant. -/
theorem loadInline_reads_directives (s : Suppressions) (m : Module) :
    (∀ comment, ∃! ids, Loads comment ids) ∧
    (∀ entry, entry ∈ (s.loadInline m).atLines ↔ entry ∈ s.atLines ∨
      ∃ c ∈ m.comments, ∃ ids, Loads c.text.toList ids ∧ ∃ id ∈ ids, entry = (m.file, c.range.start.row, id)) ∧
    (s.loadInline m).everywhere = s.everywhere ∧ (s.loadInline m).inFiles = s.inFiles ∧
    ∀ (c : Comment) (blanks gap list reason : List Char) (ids : List String), Blanks blanks → Blanks gap → gap ≠ [] →
      Lists ids list → ¬ Continues reason →
      c.text.toList = '-' :: '-' :: (blanks ++ (keyword ++ (gap ++ (list ++ reason)))) →
      Loads c.text.toList ids ∧ ∀ d, (({} : Suppressions).loadInline { m with comments := [c] }).covers d = true ↔
        m.file = d.file ∧ Reaches c d ∧ (d.errorId ∈ ids ∨ wildcard ∈ ids) := by
  refine ⟨fun comment => ?_, mem_loadInline s m, rfl, rfl, ?_⟩
  · obtain ⟨ids, hloads⟩ := exists_loads comment
    refine ⟨ids, hloads, fun ids' hloads' => ?_⟩
    rw [← (loads_iff _ _).1 hloads, ← (loads_iff _ _).1 hloads']
  · intro c blanks gap list reason ids hblanks hgap hne hlists hreason htext
    have hform : Announces c.text.toList (gap ++ (list ++ reason)) := ⟨blanks, hblanks, htext⟩
    have hloads : Loads c.text.toList ids := .listed hform hne hgap (longestList_of_lists hlists hreason)
    exact ⟨hloads, covers_of_loads rfl hloads⟩

/-- Two ids with blanks around their comma are listed; `a` and `*` are not, for a semicolon begins the reason. -/
theorem loadInline_reads_two_ids :
    let c : Comment := ⟨"--elmcheck-suppress ignoredError , boom; a, *", ⟨2, 1⟩, ⟨2, 46⟩⟩
    let d := diagnosticInLineThree "A.elm"
    Directive.Loads c.text.toList ["ignoredError", "boom"] ∧
      (({} : Suppressions).loadInline { directiveInLineTwo with comments := [c] }).covers d = true ∧
      (({} : Suppressions).loadInline { directiveInLineTwo with comments := [c] }).covers { d with errorId := "a" } = false := by
  intro c d
  obtain ⟨-, -, -, -, hlisted⟩ := loadInline_reads_directives {} directiveInLineTwo
  have hids : ∀ cs : List Char, (cs ≠ [] ∧ cs.all isIdChar = true) → IsId cs := fun cs h => ⟨h.1, List.all_eq_true.1 h.2⟩
  have hblanks : ∀ cs : List Char, cs.all isSpace = true → Blanks cs := fun cs => List.all_eq_true.1
  have hlists : Lists ["ignoredError", "boom"] "ignoredError , boom".toList :=
    .more (hids "ignoredError".toList (by decide +kernel)) (hblanks [' '] (by decide)) (hblanks [' '] (by decide))
      (.one (hids "boom".toList (by decide +kernel)))
  obtain ⟨hloads, hcovers⟩ := hlisted c [] [' '] _ "; a, *".toList _ (hblanks [] rfl) (hblanks [' '] (by decide))
    (List.cons_ne_nil _ _) hlists (by decide +kernel) (by decide +kernel)
  refine ⟨hloads, (hcovers d).2 ⟨rfl, .inr rfl, .inl (by decide)⟩, ?_⟩
  rw [← Bool.not_eq_true, hcovers]
  exact fun h => absurd h.2.2 (by decide)

end Suppressions

end ElmLint
