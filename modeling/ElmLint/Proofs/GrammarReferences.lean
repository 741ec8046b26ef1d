import ElmLint.Proofs.Apart
import ElmLint.Proofs.GrammarAccounts
import ElmLint.Proofs.Parse

/-!
# The references of a parsed module stand apart

A reference to a constructor is read where its name begins, and no text is read into two references. So the places of the
references account for the text that the grammar reads, each at its own character of it (`ledger_placed`), and the references of
a parsed module all have different places (`nodup_references`).
-/

namespace ElmLint

/-- Weights that count references to constructors by their places. -/
def Weights.references : Weights (Multiset SourceRange) where
  pattern p := ↑(p.reference?.toList.map Reference.range)
  expr e := ↑(e.reference?.toList.map Reference.range)
  marker _ := 0

namespace Weights

theorem lawful_references : references.Lawful where
  pattern_eq_zero p hp := by
    cases p with
    | named => cases hp
    | _ => rfl
  expr_eq_zero e _ he := by
    cases e with
    | reference => cases he
    | _ => rfl
  expr_literal _ _ := rfl
  expr_of_opensBlock e he := by
    cases e with
    | caseOf | letIn => rfl
    | _ => cases he
  marker_separating := rfl

/-- The weight of a module is the places of its references. -/
theorem ofModule_references (m : Module) : references.ofModule m = ↑(m.references.map Reference.range) := by
  have hall : ∀ {α : Type} (reference? : α → Option Reference) (parts : List α),
      (parts.map fun a => (↑((reference? a).toList.map Reference.range) : Multiset SourceRange)).sum =
        ↑((parts.filterMap reference?).map Reference.range) := by
    intro α reference? parts
    induction parts with
    | nil => rfl
    | cons a parts ih =>
      rw [List.map_cons, List.sum_cons, ih, List.filterMap_cons]
      cases reference? a <;> rfl
  rw [ofModule_eq, Module.references, List.map_append, ← Multiset.coe_add, ← hall, ← hall]
  rfl

end Weights

namespace Grammar

variable {l : LaidOut}

/-- The places are those of characters between two cursors of the laid-out text, and stand apart there. -/
def Placed (l : LaidOut) (c : Cursor) (places : Multiset SourceRange) (c' : Cursor) : Prop :=
  c.On l.text → c.Ahead c' ∧ l.Apart c.offset c'.offset places

theorem additive_placed (hl : l.WellMarked) : Additive (Placed l) where
  refl c _ := ⟨.refl c, .zero l _ _⟩
  trans {c m c' m' c''} h h' hc := by
    obtain ⟨hahead, hplaces⟩ := h hc
    obtain ⟨hahead', hplaces'⟩ := h' (hc.ahead hahead)
    exact ⟨hahead.trans hahead', hplaces.add hl hahead.offset_le hahead'.offset_le hplaces'⟩

/-- References account for the text that the grammar reads by their places. -/
theorem ledger_placed (hl : l.WellMarked) : Ledger l .references (Placed l) where
  toAdditive := additive_placed hl
  toLawful := Weights.lawful_references
  lexeme lex _ c n _ _ := ⟨⟨n, rfl⟩, .zero l _ _⟩
  marker m c n _ _ := ⟨⟨n, rfl⟩, .zero l _ _⟩
  settings call hcall c v c' h _ := ⟨Peg.read_ahead hcall.ahead _ h, .zero l _ _⟩
  quoted call hcall c v c' h _ := ⟨Peg.read_ahead hcall.ahead _ h, .zero l _ _⟩
  bare call hcall c v c' h hc := ⟨Peg.read_ahead hcall.ahead _ h, leads_qualifiedUpper.apart hc h (Nat.le_refl _)⟩
  applied call hcall c v c₁ arguments c' hname _ harguments hc := by
    have hahead := Peg.read_ahead hcall.ahead _ hname
    obtain ⟨hahead', hplaces⟩ := harguments (hc.ahead hahead)
    have hown := leads_qualifiedUpper.apart hc hname hahead'.offset_le
    exact ⟨hahead.trans hahead', hown.add hl hahead.offset_le hahead'.offset_le hplaces⟩
  reference call hcall c v c' h hc := by
    refine ⟨Peg.read_ahead hcall.ahead _ h, ?_⟩
    obtain ⟨name, hname, rfl⟩ := Peg.read_node_ok.1 h
    have hleads : Leads call (.without (.lexeme .keyword) *> .map qualified (.lexeme .path)) :=
      .without (leads_dotted .path rfl fun ch h => h)
    refine (hleads.apart hc hname (Nat.le_refl _)).mono (Nat.le_refl _) (Nat.le_refl _) ?_
    rw [Weights.references]
    simp only [Expr.reference?]
    -- A name that begins with a small letter refers to no constructor.
    split
    · exact le_rfl
    · exact Multiset.zero_le _

end Grammar

namespace Module

/-- The references of a parsed module have different places. -/
theorem nodup_references {source file : String} {m : Module} (h : parse source file = .ok m) :
    (m.references.map Reference.range).Nodup := by
  obtain ⟨l, items, hlaid, hread, rfl, -⟩ := parse_ok_iff.1 h
  obtain ⟨next, hread, -⟩ := LaidOut.readPhrase_ok_iff.1 hread
  have hledger := Grammar.ledger_placed (LaidOut.wellMarked_ofSource hlaid)
  have hapart := (Grammar.accounts_readText hledger hread (Cursor.on_start l.text)).2
  rw [← Multiset.coe_nodup, ← Weights.ofModule_references, Weights.ofModule_ofItems]
  exact hapart.nodup

end Module

end ElmLint
