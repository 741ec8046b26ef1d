import ElmLint.Proofs.LaidOut
import ElmLint.Proofs.Lexeme
import ElmLint.Proofs.Peg
import ElmLint.Grammar.Basic
import Mathlib.Algebra.Order.Group.Multiset

/-!
# Places that stand apart

Two places of a source differ when they begin at different characters. `LaidOut.Apart` says of some places that they begin
at characters of a part of the laid-out text, each at its own. Places of one part and of the next one stand apart together
(`Apart.add`), and what begins with a name stands apart by itself (`Leads.apart`).
-/

namespace ElmLint

namespace LaidOut

/-- The range begins at a character that is neither a blank nor a marker. -/
def Marks (l : LaidOut) (offset : Nat) (r : SourceRange) : Prop :=
  (∃ ch, l.text[offset]? = some ch ∧ isFiller ch = false) ∧ r.start = l.position offset

/-- The ranges begin between two offsets, and no range is there twice. -/
structure Apart (l : LaidOut) (i j : Nat) (ranges : Multiset SourceRange) : Prop where
  nodup : ranges.Nodup
  marked : ∀ r ∈ ranges, ∃ offset, i ≤ offset ∧ offset < j ∧ l.Marks offset r

theorem isMarker_of_isFiller_eq_false {ch : Char} (h : isFiller ch = false) : isMarker ch = false := by
  rw [isFiller, Bool.or_eq_false_iff] at h
  exact h.2

/-- A range begins at one character only. -/
theorem Marks.unique {l : LaidOut} (hl : l.WellMarked) {a b : Nat} {r : SourceRange} (ha : l.Marks a r)
    (hb : l.Marks b r) : a = b := by
  obtain ⟨⟨ca, hca, hfa⟩, ha⟩ := ha
  obtain ⟨⟨cb, hcb, hfb⟩, hb⟩ := hb
  exact hl.position_injective hca (isMarker_of_isFiller_eq_false hfa) hcb (isMarker_of_isFiller_eq_false hfb)
    (ha.symm.trans hb)

namespace Apart

variable {l : LaidOut} {i j k : Nat} {ranges ranges' : Multiset SourceRange}

theorem zero (l : LaidOut) (i j : Nat) : l.Apart i j 0 := ⟨Multiset.nodup_zero, fun r hr => absurd hr (Multiset.notMem_zero r)⟩

/-- A range that begins with a character other than a blank or a marker stands apart by itself, wherever it ends. -/
theorem singleton {ch : Char} (hch : l.text[i]? = some ch) (hfiller : isFiller ch = false) (hij : i < j) (hik : i < k) :
    l.Apart i j {l.range i k} := by
  refine ⟨Multiset.nodup_singleton _, fun r hr => ?_⟩
  rw [Multiset.mem_singleton.1 hr]
  exact ⟨i, Nat.le_refl i, hij, ⟨ch, hch, hfiller⟩, range_start hch hfiller hik⟩

/-- Fewer ranges stand apart in more text. -/
theorem mono {i' j' : Nat} (h : l.Apart i j ranges) (hi : i' ≤ i) (hj : j ≤ j') (hle : ranges' ≤ ranges) :
    l.Apart i' j' ranges' := by
  refine ⟨Multiset.nodup_of_le hle h.nodup, fun r hr => ?_⟩
  obtain ⟨offset, hio, hoj, hmarks⟩ := h.marked r (Multiset.mem_of_le hle hr)
  exact ⟨offset, Nat.le_trans hi hio, Nat.lt_of_lt_of_le hoj hj, hmarks⟩

/-- Ranges of one part of the text and ranges of the next part stand apart together. -/
theorem add (hl : l.WellMarked) (hij : i ≤ j) (hjk : j ≤ k) (h : l.Apart i j ranges) (h' : l.Apart j k ranges') :
    l.Apart i k (ranges + ranges') := by
  refine ⟨Multiset.nodup_add.2 ⟨h.nodup, h'.nodup, Multiset.disjoint_left.2 fun {r} hr hr' => ?_⟩, fun r hr => ?_⟩
  · obtain ⟨a, -, haj, ha⟩ := h.marked r hr
    obtain ⟨b, hjb, -, hb⟩ := h'.marked r hr'
    have := ha.unique hl hb
    omega
  · rcases Multiset.mem_add.1 hr with hr | hr
    · exact (h.mono (Nat.le_refl i) hjk le_rfl).marked r hr
    · exact (h'.mono hij (Nat.le_refl k) le_rfl).marked r hr

end Apart

end LaidOut

namespace Grammar

variable {l : LaidOut} {call : (r : Rule) → Cursor → Outcome r.Sem} {α β : Type} {p : Phrase α} {q : Phrase β}

/-! ## Names -/

theorem isFiller_of_isLetter {ch : Char} (h : isLetter ch = true) : LaidOut.isFiller ch = false := by
  rw [← Bool.not_eq_true]
  intro hfiller
  simp only [LaidOut.isFiller, isBlank, isMarker, Bool.or_eq_true, beq_iff_eq] at hfiller
  obtain ((((rfl | rfl) | rfl) | rfl) | (rfl | rfl) | rfl) := hfiller <;> revert h <;> decide

/-- What a phrase reads begins with a letter. -/
def Leads (call : (r : Rule) → Cursor → Outcome r.Sem) (p : Phrase α) : Prop :=
  ∀ c v c', p.read call c = .ok v c' → c.offset < c'.offset ∧ ∃ ch, c.rest.head? = some ch ∧ isLetter ch = true

/-- A dotted name begins with a letter. -/
theorem leads_dotted (lex : Lexeme) {last : Char → Bool} (hlex : lex.length? = dottedLength? last)
    (hlast : ∀ ch, last ch = true → isLetter ch = true) : Leads call (.map qualified (.lexeme lex)) := by
  intro c v c' h
  obtain ⟨text, h, -⟩ := Peg.read_node_ok.1 h
  obtain ⟨n, hn, -, rfl⟩ := Peg.read_lexeme_ok.1 h
  rw [hlex] at hn
  obtain ⟨ch, hch, hletter⟩ := head?_of_dottedLength? hn
  exact ⟨Nat.lt_add_of_pos_right (reads_dottedLength? last _ n hn).1, ch, hch, hlast ch hletter⟩

theorem leads_qualifiedUpper : Leads call qualifiedUpper :=
  leads_dotted .upperPath rfl fun ch h => by rw [isLetter, h, Bool.or_true]

/-- A word that may be no keyword begins like any other. -/
theorem Leads.without (hq : Leads call q) : Leads call (.without p *> q) := by
  intro c v c' h
  obtain ⟨both, hboth, rfl⟩ := Peg.read_node_ok.1 h
  obtain ⟨c₁, h₁, h₂⟩ := Peg.read_seq_ok.1 hboth
  obtain ⟨rfl, -⟩ := Peg.read_without_ok.1 h₁
  exact hq _ _ c' h₂

/-- A place that begins with what such a phrase reads stands apart. -/
theorem Leads.apart (hp : Leads call p) {c c' : Cursor} {v : α} (hc : c.On l.text) (h : p.read call c = .ok v c')
    {stop : Nat} (hstop : c'.offset ≤ stop) : l.Apart c.offset c'.offset {l.range c.offset stop} := by
  obtain ⟨hlt, ch, hch, hletter⟩ := hp c v c' h
  rw [hc.head?] at hch
  exact .singleton hch (isFiller_of_isLetter hletter) hlt (Nat.lt_of_lt_of_le hlt hstop)

end Grammar

end ElmLint
