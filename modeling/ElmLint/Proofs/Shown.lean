import ElmLint.Grammar.Module
import ElmLint.Proofs.Peg
import ElmLint.Proofs.Skeleton

/-!
# What readings show

A phrase that reads a word shows a character that is neither a blank nor a marker (`read_shows`); so does every rule of the grammar
(`run_showing`). The range of what is read from one place to another is then told by what can be seen of the text, and by how much
of it is left at the two places (`LaidOut.range_eq`).
-/

namespace ElmLint

/-! ## Ranges -/

namespace LaidOut

theorem length_seenFrom (place : Nat → Position) : ∀ (cs : List Char) (offset : Nat),
    (seenFrom place offset cs).length = visibleCount cs
  | [], _ => rfl
  | c :: cs, offset => by
    have ih := length_seenFrom place cs (offset + 1)
    rw [seenFrom, visibleCount, List.countP_cons]
    split
    · next hc =>
      rw [ih, if_neg (by simp [hc])]
      rfl
    · next hc =>
      rw [List.length_cons, ih, if_pos (by simpa using hc)]
      rfl

theorem visibleCount_cons {c : Char} (hc : isFiller c = false) (cs : List Char) :
    visibleCount (c :: cs) = visibleCount cs + 1 := by
  simp [visibleCount, hc]

/-- What can be seen at a place is its position. -/
theorem getElem?_seen {l : LaidOut} {before after : List Char} {c : Char} (h : l.text = before ++ c :: after)
    (hc : isFiller c = false) : l.seen[visibleCount before]? = some (l.position before.length) := by
  rw [seen, h, seenFrom_append, List.getElem?_append_right (Nat.le_of_eq (length_seenFrom _ _ _)), length_seenFrom,
    Nat.sub_self, seenFrom, if_neg (by simp [hc])]
  simp

theorem exists_first (cs : List Char) (h : 0 < visibleCount cs) :
    ∃ before c after, cs = before ++ c :: after ∧ (∀ d ∈ before, isFiller d = true) ∧ isFiller c = false := by
  induction cs with
  | nil => cases h
  | cons c cs ih =>
    by_cases hc : isFiller c = true
    · obtain ⟨before, d, after, rfl, hbefore, hd⟩ := ih (by simpa [visibleCount, hc] using h)
      refine ⟨c :: before, d, after, rfl, fun e he => ?_, hd⟩
      rcases List.mem_cons.1 he with rfl | he
      · exact hc
      · exact hbefore e he
    · exact ⟨[], c, cs, rfl, List.forall_mem_nil _, by simpa using hc⟩

theorem exists_last (cs : List Char) (h : 0 < visibleCount cs) :
    ∃ before c after, cs = before ++ c :: after ∧ (∀ d ∈ after, isFiller d = true) ∧ isFiller c = false := by
  have hreverse : 0 < visibleCount cs.reverse := by rwa [visibleCount, List.countP_reverse]
  obtain ⟨before, c, after, hcs, hbefore, hc⟩ := exists_first _ hreverse
  refine ⟨after.reverse, c, before.reverse, ?_, fun d hd => hbefore d (List.mem_reverse.1 hd), hc⟩
  rw [← List.reverse_reverse cs, hcs]
  simp

/-- The range of what can be seen, where `start` characters are left at its start and `stop` at its stop. -/
def rangeSeen (seen : List Position) (start stop : Nat) : SourceRange :=
  ⟨seen.getD (seen.length - start) default, (seen.getD (seen.length - stop - 1) default).next⟩

/-- The range of a part of a text that shows something is told by what can be seen. -/
theorem range_eq {l : LaidOut} {c c' : Cursor} (hc : c.On l.text) (hahead : c.Ahead c')
    (hshown : visibleCount c'.rest < visibleCount c.rest) :
    l.range c.offset c'.offset = rangeSeen l.seen (visibleCount c.rest) (visibleCount c'.rest) := by
  obtain ⟨n, rfl⟩ := hahead
  have hrest : c.rest = c.rest.take n ++ (c.advance n).rest := (List.take_append_drop n c.rest).symm
  have hcount : visibleCount c.rest = visibleCount (c.rest.take n) + visibleCount (c.advance n).rest := by
    rw [← visibleCount_append, ← hrest]
  obtain ⟨before, first, more, hfirst, hbefore, hfirstSeen⟩ := exists_first (c.rest.take n) (by omega)
  obtain ⟨init, last, after, hlast, hafter, hlastSeen⟩ := exists_last (first :: more)
    (by simp [visibleCount, hfirstSeen])
  have htext : l.text = l.text.take c.offset ++ c.rest := by rw [hc, List.take_append_drop]
  have hoffset : (l.text.take c.offset).length = c.offset := by
    refine List.length_take_of_le (Nat.le_of_not_lt fun hlt => ?_)
    have hnil : c.rest = [] := by rw [hc, List.drop_eq_nil_of_le (Nat.le_of_lt hlt)]
    rw [hnil] at hshown
    cases hshown
  have hseen : l.seen.length = visibleCount (l.text.take c.offset) + visibleCount c.rest := by
    rw [← visibleCount_append, ← htext, seen, length_seenFrom]
  -- The first and the last character that can be seen, with what comes before them.
  have hcutFirst : l.text = l.text.take c.offset ++ before ++ first :: (more ++ (c.advance n).rest) := by
    rw [List.append_assoc, ← List.cons_append, ← List.append_assoc before, ← hfirst, ← hrest, ← htext]
  have hcutLast : l.text = l.text.take c.offset ++ before ++ init ++ last :: (after ++ (c.advance n).rest) := by
    rw [List.append_assoc, ← List.cons_append, ← List.append_assoc init, ← hlast, List.append_assoc, ← List.append_assoc before,
      ← hfirst, ← hrest, ← htext]
  have hplaceFirst := getElem?_seen hcutFirst hfirstSeen
  have hplaceLast := getElem?_seen hcutLast hlastSeen
  rw [visibleCount_append, visibleCount_fillers hbefore, Nat.add_zero, List.length_append, hoffset] at hplaceFirst
  rw [visibleCount_append, visibleCount_append, visibleCount_fillers hbefore, Nat.add_zero, List.length_append,
    List.length_append, hoffset] at hplaceLast
  have hslice : visibleCount (c.rest.take n) = visibleCount init + 1 := by
    rw [hfirst, visibleCount_append, visibleCount_fillers hbefore, hlast, visibleCount_append, visibleCount_cons hlastSeen,
      visibleCount_fillers hafter, Nat.zero_add]
  have hstart : l.seen.length - visibleCount c.rest = visibleCount (l.text.take c.offset) := by omega
  have hstop : l.seen.length - visibleCount (c.advance n).rest - 1 =
      visibleCount (l.text.take c.offset) + visibleCount init := by omega
  have hpart : (l.text.drop c.offset).take ((c.advance n).offset - c.offset) = before ++ (init ++ [last]) ++ after := by
    have hsize : (c.advance n).offset - c.offset = n := Nat.add_sub_cancel_left _ _
    rw [hsize, ← hc, hfirst, hlast, List.append_assoc, List.append_assoc, List.singleton_append]
  have hhead : (init ++ [last]).head? = some first := by
    cases init with
    | nil => exact congrArg some (List.cons_eq_cons.1 hlast).1.symm
    | cons d init => exact congrArg some (List.cons_eq_cons.1 hlast).1.symm
  have hlength : c.offset + before.length + (init ++ [last]).length - 1 = c.offset + before.length + init.length := by
    rw [List.length_append, List.length_singleton]
    omega
  rw [range_of_slice hpart (Nat.le_add_right _ _) hbefore hafter hhead List.getLast?_concat hfirstSeen hlastSeen, hlength, rangeSeen,
    hstart, hstop, List.getD_eq_getElem?_getD, List.getD_eq_getElem?_getD, hplaceFirst, hplaceLast]
  rfl

end LaidOut

/-! ## Phrases that show something -/

namespace Lexeme

/-- Whether the words of a class always have a character that is neither a blank nor a marker. -/
def shows (l : Lexeme) : Bool := l.isWord || l == .string || l == .char

theorem visibleCount_pos {l : Lexeme} (hl : l.shows = true) {cs : List Char} {n : Nat} (h : l.length? cs = some n) :
    0 < visibleCount (cs.take n) := by
  have hseen : ∀ c ∈ cs.take n, LaidOut.isFiller c = false → 0 < visibleCount (cs.take n) :=
    fun c hc hfiller => List.countP_pos_iff.2 ⟨c, hc, by simp [hfiller]⟩
  have hfirst : ∀ {c : Char} {rest : List Char}, cs = c :: rest → 0 < n → c ∈ cs.take n := by
    rintro c rest rfl hpos
    cases n with
    | zero => cases hpos
    | succ n => exact List.mem_cons_self
  simp only [shows, isWord, Bool.or_eq_true, Bool.and_eq_true, Bool.not_eq_true', beq_iff_eq] at hl
  rcases hl with (⟨hsolid, hnullable⟩ | rfl) | rfl
  · obtain ⟨hpos, hle⟩ := length?_pos hnullable cs n h
    obtain ⟨c, rest, rfl⟩ : ∃ c rest, cs = c :: rest := List.exists_cons_of_length_pos (by omega)
    have hmem := hfirst rfl hpos
    have hc := (contained hsolid).isSolid (length?_pos hnullable) h c hmem
    simp only [isSolid, Bool.and_eq_true, Bool.not_eq_true'] at hc
    exact hseen c hmem hc.1.1
  · obtain ⟨rest, hrest⟩ := exists_of_stringLength? h
    exact hseen '"' (hfirst hrest (reads_stringLength? false cs n h).1) rfl
  · obtain ⟨rest, hrest⟩ := exists_of_charLength? h
    exact hseen '\'' (hfirst hrest (reads_charLength? false cs n h).1) rfl

end Lexeme

theorem Cursor.Ahead.visibleCount_le {c c' : Cursor} (h : c.Ahead c') : visibleCount c'.rest ≤ visibleCount c.rest := by
  obtain ⟨n, rfl⟩ := h
  exact (List.drop_sublist n c.rest).countP_le

namespace Peg

variable {Rule : Type} {Sem : Rule → Type} {call : (r : Rule) → Cursor → Outcome (Sem r)}

/-- Whether an expression always shows something, if every rule does. -/
def shows : {α : Type} → Peg Rule Sem α → Bool
  | _, lexeme l => l.shows
  | _, rule _ => true
  | _, seq first second => first.shows || second.shows
  | _, alt first second => first.shows && second.shows
  | _, opt _ => false
  | _, many _ => false
  | _, without _ => false
  | _, node _ item => item.shows

/-- Rules that move on and always show something. -/
def Showing (call : (r : Rule) → Cursor → Outcome (Sem r)) : Prop :=
  ∀ r c v c', call r c = .ok v c' → c.Ahead c' ∧ visibleCount c'.rest < visibleCount c.rest

theorem Showing.ahead (hcall : Showing call) : ∀ r c v c', call r c = .ok v c' → c.Ahead c' :=
  fun r c v c' h => (hcall r c v c' h).1

/-- An expression that shows something shows it, when rules do. -/
theorem read_shows (hcall : Showing call) {α : Type} (p : Peg Rule Sem α) (hp : p.shows = true) :
    ∀ {c c' : Cursor} {v : α}, p.read call c = .ok v c' → visibleCount c'.rest < visibleCount c.rest := by
  induction p with
  | lexeme l =>
    intro c c' v h
    obtain ⟨n, hn, -, rfl⟩ := read_lexeme_ok.1 h
    have hpos := Lexeme.visibleCount_pos hp hn
    have hsplit := visibleCount_append (c.rest.take n) (c.rest.drop n)
    rw [List.take_append_drop] at hsplit
    simp only [Cursor.advance]
    omega
  | rule r => exact fun h => (hcall r _ _ _ h).2
  | seq p q ihp ihq =>
    intro c c' v h
    obtain ⟨c₁, h₁, h₂⟩ := read_seq_ok.1 h
    have le₁ := (read_ahead hcall.ahead p h₁).visibleCount_le
    have le₂ := (read_ahead hcall.ahead q h₂).visibleCount_le
    simp only [shows, Bool.or_eq_true] at hp
    rcases hp with hp | hq
    · have := ihp hp h₁
      omega
    · have := ihq hq h₂
      omega
  | alt p q ihp ihq =>
    intro c c' v h
    simp only [shows, Bool.and_eq_true] at hp
    rcases read_alt_ok.1 h with h | ⟨-, h⟩
    · exact ihp hp.1 h
    · exact ihq hp.2 h
  | opt p _ => cases hp
  | many p _ => cases hp
  | without p _ => cases hp
  | node build p ih =>
    intro c c' v h
    obtain ⟨a, h, -⟩ := read_node_ok.1 h
    exact ih hp h

/-- The runs of a grammar whose rules show something show it. -/
theorem run_showing {grammar : (r : Rule) → Peg Rule Sem (Sem r)} (hg : ∀ r, (grammar r).shows = true) (fuel : Nat) :
    Showing (run grammar fuel) :=
  run_gives (Q := fun _ c _ c' => c.Ahead c' ∧ visibleCount c'.rest < visibleCount c.rest)
    (fun _ hcall r _ _ _ h => ⟨read_ahead (fun r c v c' h => (hcall r c v c' h).1) (grammar r) h, read_shows hcall (grammar r) (hg r) h⟩)
    fuel

end Peg

namespace Grammar

theorem rules_show (locate : Locate) (r : Rule) : (rules locate r).shows = true := by cases r <;> rfl

end Grammar

end ElmLint
