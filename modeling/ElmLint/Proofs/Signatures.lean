import ElmLint.Syntax.Declaration
import Mathlib.Data.List.Basic

/-!
# Signatures and their declarations

Signatures are attached in one pass over the declarations: a signature that a function of its name comes right after goes into that
function, and every other declaration stays where it is (`Attaches`). So the declarations are those of the result with the signatures
taken off again (`Attaches.expands`), and whether a signature is attached is told by the one declaration after it
(`Attaches.attachedAfter_iff`). No other list has both properties (`Attached.attaches`).

* `attach_eq_iff_attached`: attaching signatures loses and reorders nothing, at the top level and in `let` blocks.
-/

namespace ElmLint

/-! ## Kinds of declarations -/

/-- Declarations with signatures and functions among them, in which a signature is attached to functions of its name only. -/
class Annotatable (δ : Type) where
  ofSignature : Signature → δ
  ofFunction : FunctionDecl Expr → δ
  signature? : δ → Option Signature
  function? : δ → Option (FunctionDecl Expr)
  annotate? : Signature → δ → Option δ
  signature?_eq_some_iff {d : δ} {s : Signature} : signature? d = some s ↔ d = ofSignature s
  function?_eq_some_iff {d : δ} {f : FunctionDecl Expr} : function? d = some f ↔ d = ofFunction f
  annotate?_eq_some_iff {s : Signature} {d d' : δ} :
    annotate? s d = some d' ↔ ∃ f, d = ofFunction f ∧ f.name = s.name ∧ d' = ofFunction { f with signature := some s }
  ofSignature_ne_ofFunction (s : Signature) (f : FunctionDecl Expr) : ofSignature s ≠ ofFunction f

instance : Annotatable Declaration where
  ofSignature := .signature
  ofFunction := .function
  signature? := Declaration.signature?
  function? := Declaration.function?
  annotate? := Declaration.annotate?
  signature?_eq_some_iff {d s} := by cases d <;> simp [Declaration.signature?]
  function?_eq_some_iff {d f} := by cases d <;> simp [Declaration.function?]
  annotate?_eq_some_iff {s d d'} := by cases d <;> simp [Declaration.annotate?, eq_comm]
  ofSignature_ne_ofFunction := nofun

/-- The function that an item of a `let` block declares. -/
def LetItem.function? : LetItem → Option (FunctionDecl Expr)
  | declaration (.function f) => some f
  | _ => none

instance : Annotatable LetItem where
  ofSignature := .signature
  ofFunction f := .declaration (.function f)
  signature? := LetItem.signature?
  function? := LetItem.function?
  annotate? := LetItem.annotate?
  signature?_eq_some_iff {item s} := by cases item <;> simp [LetItem.signature?]
  function?_eq_some_iff {item f} := by
    rcases item with s | ⟨f'⟩ | _ <;> simp [LetItem.function?]
  annotate?_eq_some_iff {s item item'} := by
    rcases item with s' | ⟨f⟩ | _ <;> simp [LetItem.annotate?, eq_comm]
  ofSignature_ne_ofFunction := nofun

namespace Annotatable

variable {δ : Type} [Annotatable δ] {d : δ} {ds rs before after : List δ} {s : Signature} {f : FunctionDecl Expr}

@[simp] theorem signature?_ofSignature (s : Signature) : signature? (ofSignature s : δ) = some s := signature?_eq_some_iff.2 rfl

@[simp] theorem function?_ofFunction (f : FunctionDecl Expr) : function? (ofFunction f : δ) = some f := function?_eq_some_iff.2 rfl

theorem ofSignature_injective : Function.Injective (ofSignature : Signature → δ) := fun s t h =>
  Option.some.inj (by rw [← signature?_ofSignature (δ := δ) s, h, signature?_ofSignature])

theorem ofFunction_injective : Function.Injective (ofFunction : FunctionDecl Expr → δ) := fun f g h =>
  Option.some.inj (by rw [← function?_ofFunction (δ := δ) f, h, function?_ofFunction])

/-! ## One pass -/

/-- The declaration is a signature, and a function of its name comes right after it. -/
def Precedes (d : δ) (after : List δ) : Prop :=
  ∃ s f, d = ofSignature s ∧ after.head? = some (ofFunction f) ∧ f.name = s.name

/-- What one pass over some declarations makes of them. -/
inductive Attaches : List δ → List δ → Prop
  | nil : Attaches [] []
  | taken {s : Signature} {f : FunctionDecl Expr} {ds rs : List δ} : f.name = s.name → Attaches ds rs →
      Attaches (ofSignature s :: ofFunction f :: ds) (ofFunction { f with signature := some s } :: rs)
  | kept {d : δ} {ds rs : List δ} : ¬ Precedes d ds → Attaches ds rs → Attaches (d :: ds) (d :: rs)

theorem bind_annotate?_eq_some_iff {e e' : δ} : (signature? d).bind (annotate? · e) = some e' ↔
    ∃ s f, d = ofSignature s ∧ e = ofFunction f ∧ f.name = s.name ∧ e' = ofFunction { f with signature := some s } := by
  simp only [Option.bind_eq_some_iff, signature?_eq_some_iff, annotate?_eq_some_iff, exists_and_left]

/-- One pass is what attaching signatures does. -/
theorem attaches_iff : Attaches ds rs ↔ attachSignatures signature? annotate? ds = rs := by
  constructor
  · intro h
    induction h with
    | nil => rfl
    | @taken s f ds rs hname _ ih =>
      have hfound := bind_annotate?_eq_some_iff (δ := δ).2 ⟨s, f, rfl, rfl, hname, rfl⟩
      simp only [attachSignatures, hfound, ih]
    | @kept d ds rs hnot _ ih =>
      cases ds with
      | nil => exact congrArg (d :: ·) ih
      | cons e ds =>
        have hnone : (signature? d).bind (annotate? · e) = none := by
          refine Option.eq_none_iff_forall_ne_some.2 fun e' he' => hnot ?_
          obtain ⟨s, f, hd, rfl, hname, -⟩ := bind_annotate?_eq_some_iff.1 he'
          exact ⟨s, f, hd, rfl, hname⟩
        simp only [attachSignatures, hnone, ih]
  · rintro rfl
    fun_induction attachSignatures signature? annotate? ds with
    | case1 => exact .nil
    | case2 d => exact .kept (by rintro ⟨s, f, -, hnext, -⟩; cases hnext) .nil
    | case3 d e rest annotated hfound ih =>
      obtain ⟨s, f, rfl, rfl, hname, rfl⟩ := bind_annotate?_eq_some_iff.1 hfound
      exact .taken hname ih
    | case4 d e rest hnone ih =>
      refine .kept ?_ ih
      rintro ⟨s, f, rfl, hnext, hname⟩
      obtain rfl : e = ofFunction f := Option.some.inj hnext
      cases hnone.symm.trans (bind_annotate?_eq_some_iff.2 ⟨s, f, rfl, rfl, hname, rfl⟩)

/-! ## Taking signatures off again -/

/-- A function with a signature, as the signature and the function without it; anything else as it is. -/
def expand (d : δ) : List δ :=
  match function? d with
  | some f =>
    match f.signature with
    | some s => [ofSignature s, ofFunction { f with signature := none }]
    | none => [d]
  | none => [d]

/-- No function has a signature. -/
def Unsigned (ds : List δ) : Prop := ∀ f, ofFunction f ∈ ds → f.signature = none

theorem expand_signed (h : f.signature = none) :
    expand (ofFunction { f with signature := some s } : δ) = [ofSignature s, ofFunction f] := by
  simp only [expand, function?_ofFunction, ← h]

theorem expand_unsigned (h : ∀ f, d = ofFunction f → f.signature = none) : expand d = [d] := by
  unfold expand
  split
  · next f hf => rw [h f (function?_eq_some_iff.1 hf)]
  · rfl

theorem Unsigned.head (h : Unsigned (d :: ds)) : expand d = [d] :=
  expand_unsigned fun f hf => h f (hf ▸ List.mem_cons_self)

theorem Unsigned.tail (h : Unsigned (d :: ds)) : Unsigned ds := fun f hf => h f (List.mem_cons_of_mem d hf)

/-- Only a function with a signature is taken apart. -/
theorem expand_cases (d : δ) : (∃ s f, d = ofFunction { f with signature := some s } ∧ f.signature = none ∧
    expand d = [ofSignature s, ofFunction f]) ∨ expand d = [d] := by
  by_cases hsigned : ∃ f, d = ofFunction f ∧ f.signature ≠ none
  · obtain ⟨f, rfl, hf⟩ := hsigned
    obtain ⟨s, hs⟩ := Option.ne_none_iff_exists'.1 hf
    refine .inl ⟨s, { f with signature := none }, by rw [← hs], rfl, ?_⟩
    rw [← expand_signed rfl, ← hs]
  · exact .inr (expand_unsigned fun f hf => by_contra fun hne => hsigned ⟨f, hf, hne⟩)

theorem expand_ne_nil (d : δ) : expand d ≠ [] := by
  rcases expand_cases d with ⟨s, f, -, -, h⟩ | h <;> rw [h] <;> exact List.cons_ne_nil _ _

/-- In a result, the signature that comes after some of the declarations is attached to a function: what comes before the function is
those declarations. -/
def AttachedAfter (rs before : List δ) (s : Signature) : Prop :=
  ∃ rs₁ f rs₂, rs = rs₁ ++ ofFunction f :: rs₂ ∧ f.signature = some s ∧ rs₁.flatMap expand = before

theorem attachedAfter_nil_iff : AttachedAfter (d :: rs) [] s ↔ ∃ f, d = ofFunction f ∧ f.signature = some s := by
  constructor
  · rintro ⟨rs₁, f, rs₂, hsplit, hf, hnone⟩
    cases rs₁ with
    | nil => exact ⟨f, (List.cons_eq_cons.1 hsplit).1, hf⟩
    | cons r rs₁ => exact absurd (List.append_eq_nil_iff.1 hnone).1 (expand_ne_nil r)
  · rintro ⟨f, rfl, hf⟩
    exact ⟨[], f, rs, rfl, hf, rfl⟩

theorem attachedAfter_append_iff {made : List δ} (hmade : expand d = made) :
    AttachedAfter (d :: rs) (made ++ before) s ↔ AttachedAfter rs before s := by
  subst hmade
  constructor
  · rintro ⟨rs₁, f, rs₂, hsplit, hf, hbefore⟩
    cases rs₁ with
    | nil => exact absurd (List.append_eq_nil_iff.1 hbefore.symm).1 (expand_ne_nil d)
    | cons r rs₁ =>
      obtain ⟨rfl, rfl⟩ := List.cons_eq_cons.1 hsplit
      exact ⟨rs₁, f, rs₂, rfl, hf, List.append_cancel_left hbefore⟩
  · rintro ⟨rs₁, f, rs₂, rfl, hf, rfl⟩
    exact ⟨d :: rs₁, f, rs₂, rfl, hf, rfl⟩

/-! ## What one pass keeps -/

/-- Taking the signatures off again gives the declarations back. -/
theorem Attaches.expands (h : Attaches ds rs) : Unsigned ds → rs.flatMap expand = ds := by
  induction h with
  | nil => exact fun _ => rfl
  | @taken s f ds rs _ _ ih =>
    intro hds
    have hf : f.signature = none := hds f (by simp)
    rw [List.flatMap_cons, expand_signed hf, ih hds.tail.tail]
    rfl
  | @kept d ds rs _ _ ih =>
    intro hds
    rw [List.flatMap_cons, hds.head, ih hds.tail]
    rfl

/-- A signature is attached to a function of its name. -/
theorem Attaches.names (h : Attaches ds rs) : Unsigned ds → ∀ f s, ofFunction f ∈ rs → f.signature = some s → f.name = s.name := by
  induction h with
  | nil => nofun
  | @taken s f ds rs hname _ ih =>
    intro hds g t hg ht
    rcases List.mem_cons.1 hg with hg | hg
    · obtain rfl := ofFunction_injective hg
      obtain rfl := Option.some.inj ht
      exact hname
    · exact ih hds.tail.tail g t hg ht
  | @kept d ds rs _ _ ih =>
    intro hds g t hg ht
    rcases List.mem_cons.1 hg with rfl | hg
    · cases (hds g List.mem_cons_self).symm.trans ht
    · exact ih hds.tail g t hg ht

/-- A signature is attached just when a function of its name comes right after it. -/
theorem Attaches.attachedAfter_iff (h : Attaches ds rs) : Unsigned ds → ∀ {before : List δ} {s : Signature} {after : List δ},
    ds = before ++ ofSignature s :: after → (AttachedAfter rs before s ↔ Precedes (ofSignature s : δ) after) := by
  induction h with
  | nil => intro _ before s after hsplit; simp at hsplit
  | @taken s f ds rs hname _ ih =>
    intro hds before t after hsplit
    have hf : f.signature = none := hds f (by simp)
    rcases before with _ | ⟨d, _ | ⟨e, before⟩⟩
    · obtain ⟨hs, rfl⟩ := List.cons_eq_cons.1 hsplit
      obtain rfl := ofSignature_injective hs
      exact iff_of_true (attachedAfter_nil_iff.2 ⟨_, rfl, rfl⟩) ⟨s, f, rfl, rfl, hname⟩
    · -- A function is no signature.
      obtain ⟨-, hnext⟩ := List.cons_eq_cons.1 hsplit
      exact absurd (List.cons_eq_cons.1 hnext).1.symm (ofSignature_ne_ofFunction t f)
    · obtain ⟨rfl, hnext⟩ := List.cons_eq_cons.1 hsplit
      obtain ⟨rfl, rfl⟩ := List.cons_eq_cons.1 hnext
      exact (attachedAfter_append_iff (expand_signed hf)).trans (ih hds.tail.tail rfl)
  | @kept d ds rs hnot _ ih =>
    intro hds before s after hsplit
    cases before with
    | nil =>
      obtain ⟨rfl, rfl⟩ := List.cons_eq_cons.1 hsplit
      refine iff_of_false (fun hattached => ?_) hnot
      obtain ⟨f, hf, -⟩ := attachedAfter_nil_iff.1 hattached
      exact ofSignature_ne_ofFunction s f hf
    | cons e before =>
      obtain ⟨rfl, rfl⟩ := List.cons_eq_cons.1 hsplit
      exact (attachedAfter_append_iff hds.head).trans (ih hds.tail rfl)

/-! ## What tells the result -/

/-- What declarations without signatures become when their signatures are attached. Taking the signatures off again gives the
declarations back, in their order; a signature is attached just when a function of its name comes right after it; and the function that
has it is of its name. -/
structure Attached (ds rs : List δ) : Prop where
  expands : rs.flatMap expand = ds
  attachedAfter_iff : ∀ before s after, ds = before ++ ofSignature s :: after →
    (AttachedAfter rs before s ↔ ∃ f, after.head? = some (ofFunction f) ∧ f.name = s.name)
  names : ∀ f s, ofFunction f ∈ rs → f.signature = some s → f.name = s.name

theorem precedes_ofSignature_iff :
    Precedes (ofSignature s : δ) after ↔ ∃ f, after.head? = some (ofFunction f) ∧ f.name = s.name := by
  constructor
  · rintro ⟨t, f, hs, hf⟩
    obtain rfl := ofSignature_injective hs
    exact ⟨f, hf⟩
  · rintro ⟨f, hf⟩
    exact ⟨s, f, rfl, hf⟩

theorem Attaches.attached (h : Attaches ds rs) (hds : Unsigned ds) : Attached ds rs where
  expands := h.expands hds
  attachedAfter_iff _ _ _ hsplit := (h.attachedAfter_iff hds hsplit).trans precedes_ofSignature_iff
  names := h.names hds

/-- Without its first declaration, a result is that of the declarations after those that the first one was made of. -/
theorem Attached.tail (h : Attached ds (d :: rs)) : Attached (rs.flatMap expand) rs where
  expands := rfl
  attachedAfter_iff before s after hsplit := by
    refine (attachedAfter_append_iff rfl).symm.trans (h.attachedAfter_iff (expand d ++ before) s after ?_)
    rw [← h.expands, List.flatMap_cons, hsplit, List.append_assoc]
  names f s hf := h.names f s (List.mem_cons_of_mem d hf)

/-- Only the result of one pass has these properties. -/
theorem Attached.attaches : ∀ {ds rs : List δ}, Attached ds rs → Attaches ds rs
  | ds, [], h => by
    obtain rfl : [] = ds := h.expands
    exact .nil
  | ds, d :: rs, h => by
    have htail := h.tail.attaches
    have hds : expand d ++ rs.flatMap expand = ds := h.expands
    rcases expand_cases d with ⟨s, f, rfl, -, hexpand⟩ | hexpand
    · rw [← hds, hexpand]
      have hname : f.name = s.name := h.names { f with signature := some s } s List.mem_cons_self rfl
      exact .taken hname htail
    · rw [hexpand] at hds
      subst hds
      refine .kept ?_ htail
      rintro ⟨s, f, rfl, hnext, hname⟩
      have hattached := (h.attachedAfter_iff [] s _ rfl).2 ⟨f, hnext, hname⟩
      obtain ⟨g, hg, -⟩ := attachedAfter_nil_iff.1 hattached
      exact ofSignature_ne_ofFunction s g hg

theorem attachSignatures_eq_iff (hds : Unsigned ds) : attachSignatures signature? annotate? ds = rs ↔ Attached ds rs :=
  ⟨fun h => (attaches_iff.2 h).attached hds, fun h => attaches_iff.1 h.attaches⟩

end Annotatable

/-! ## Main result -/

open Annotatable

/-- **Attaching signatures loses and reorders nothing**, among the declarations of a module and among the items of a `let` block: of
declarations without signatures it makes the one list that expands to them and has a signature attached just where a function of its name
comes right after it. -/
theorem attach_eq_iff_attached :
    (∀ ds rs : List Declaration, Unsigned ds → (Declaration.attach ds = rs ↔ Attached ds rs)) ∧
    (∀ items rs : List LetItem, Unsigned items →
      (attachSignatures LetItem.signature? LetItem.annotate? items = rs ↔ Attached items rs)) :=
  ⟨fun _ _ hds => attachSignatures_eq_iff hds, fun _ _ hitems => attachSignatures_eq_iff hitems⟩

/-- Two signatures in a row, one before a declaration of another kind, one before a function of another name, and one at the end. -/
theorem attach_eq_iff_attached_leftovers :
    Attached (δ := Declaration)
      [.signature ⟨"f", default, default⟩, .signature ⟨"g", default, default⟩, .function ⟨"g", [], default, default, none⟩,
        .signature ⟨"f", default, default⟩, .typeAlias default, .function ⟨"f", [], default, default, none⟩,
        .signature ⟨"f", default, default⟩]
      [.signature ⟨"f", default, default⟩, .function ⟨"g", [], default, default, some ⟨"g", default, default⟩⟩,
        .signature ⟨"f", default, default⟩, .typeAlias default, .function ⟨"f", [], default, default, none⟩,
        .signature ⟨"f", default, default⟩] ∧
    Attached (δ := LetItem)
      [.signature ⟨"f", default, default⟩, .declaration (.function ⟨"g", [], default, default, none⟩),
        .signature ⟨"f", default, default⟩, .declaration (.function ⟨"f", [], default, default, none⟩)]
      [.signature ⟨"f", default, default⟩, .declaration (.function ⟨"g", [], default, default, none⟩),
        .declaration (.function ⟨"f", [], default, default, some ⟨"f", default, default⟩⟩)] := by
  refine ⟨(attach_eq_iff_attached.1 _ _ ?_).1 rfl, (attach_eq_iff_attached.2 _ _ ?_).1 rfl⟩
  · intro f hf
    simp [ofFunction] at hf
    rcases hf with rfl | rfl <;> rfl
  · intro f hf
    simp [ofFunction] at hf
    rcases hf with rfl | rfl <;> rfl

end ElmLint
