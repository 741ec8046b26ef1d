import ElmLint.Proofs.Manifest
import ElmLint.Proofs.Parse
import ElmLint.Proofs.Scope
import ElmLint.Run
import Mathlib.Data.List.Nodup

/-!
# Constructors that imports make visible

An import makes a constructor visible by itself when it takes in a type that has the constructor (`Scope.Shows`). Of the imports that
do, the last one tells where an unqualified constructor comes from (`resolve_nil`). In a project, what the interface of a module holds
are the types that the module opens (`shows_iff_showsThrough`); so the constructors of a type that a module does not open never come from
that module elsewhere (`resolve_respects_opacity`).
-/

namespace ElmLint

/-! ## Exposing lists -/

/-- An exposing list opens a type: it exposes everything, or lists the type with its constructors. -/
def Exposing.Opens (e : Exposing) (type : Text) : Prop :=
  e.isEverything = true ∨ ∃ item ∈ e.items, item.kind = .openType ∧ item.name = type

theorem Exposing.opens_iff (e : Exposing) (type : Text) :
    e.Opens type ↔ e.isEverything = true ∨ ∃ name ∈ e.openTypes, Text.ofString name = type := by
  simp only [Opens, openTypes, List.mem_map, List.mem_filter, beq_iff_eq]
  refine or_congr_right ⟨?_, ?_⟩
  · rintro ⟨item, hitem, hkind, hname⟩
    exact ⟨item.name, ⟨item, ⟨hitem, hkind⟩, rfl⟩, hname⟩
  · rintro ⟨_, ⟨item, ⟨hitem, hkind⟩, rfl⟩, hname⟩
    exact ⟨item, hitem, hkind, hname⟩

/-- An import takes in the constructors of a type. -/
def Import.Takes (i : Import) (type : Text) : Prop := ∃ e, i.exposing = some e ∧ e.Opens type

/-- A module opens a type of its own: it has no header, or its header opens the type. -/
def Module.Opens (m : Module) (type : Text) : Prop := ∀ header, m.header = some header → header.exposing.Opens type

theorem Interface.opens_iff (m : Module) (type : String) : Interface.opens m type = true ↔ m.Opens type := by
  unfold Interface.opens Module.Opens
  cases m.header with
  | none => simp
  | some header =>
    have hname : ∀ name : String, Text.ofString name = type ↔ name = type :=
      fun _ => ⟨Text.ofString_injective, congrArg Text.ofString⟩
    simp [Exposing.opens_iff, hname]

/-! ## Imports -/

namespace Scope

variable {manifest : Manifest}

/-- An import makes a constructor visible by itself: the manifest knows a type of its module that has the constructor, and
the import takes it in. -/
def Shows (manifest : Manifest) (i : Import) (c : Text) : Prop :=
  ∃ interface, manifest.interface? i.name = some interface ∧
    ∃ type constructors, interface.types.find? type = some constructors ∧ c ∈ constructors ∧ i.Takes type

/-- The constructors that an import makes visible by themselves. -/
def shown (manifest : Manifest) (i : Import) : List Text := ((manifest.interface? i.name).map (broughtIn i)).getD []

theorem mem_broughtIn {i : Import} {interface : Interface} {c : Text} : c ∈ broughtIn i interface ↔
    ∃ type constructors, interface.types.find? type = some constructors ∧ c ∈ constructors ∧ i.Takes type := by
  unfold broughtIn Import.Takes
  cases hexposing : i.exposing with
  | none => simp
  | some e =>
    simp only [Option.some.injEq, exists_eq_left', Exposing.opens_iff]
    cases heverything : e.isEverything with
    | true =>
      simp only [if_true, Interface.constructors, List.mem_flatten, true_or, and_true]
      exact interface.types.exists_mem_values_iff
    | false =>
      simp only [Bool.false_eq_true, if_false, false_or, List.mem_flatMap, Interface.constructorsOf]
      constructor
      · rintro ⟨name, hname, hc⟩
        cases hfind : interface.types.find? name with
        | none =>
          rw [hfind] at hc
          cases hc
        | some constructors =>
          rw [hfind] at hc
          exact ⟨name, constructors, hfind, hc, name, hname, rfl⟩
      · rintro ⟨_, constructors, hfind, hc, name, hname, rfl⟩
        exact ⟨name, hname, by rwa [hfind]⟩

theorem mem_shown {i : Import} {c : Text} : c ∈ shown manifest i ↔ Shows manifest i c := by
  unfold shown Shows
  cases manifest.interface? i.name with
  | none => simp
  | some interface => simp [mem_broughtIn]

theorem unqualified_addImport (s : Scope) (i : Import) (c : Text) :
    (s.addImport i).unqualified.find? c = if c ∈ shown s.manifest i then some i.name else s.unqualified.find? c :=
  OrderedMap.find?_insertAll_map i.name c (shown s.manifest i) s.unqualified

/-- Of the imports that make a constructor visible the last one counts. -/
theorem unqualified_foldl_addImport (c : Text) : ∀ (is : List Import) (s : Scope),
    (is.foldl addImport s).unqualified.find? c =
      ((is.reverse.find? (c ∈ shown s.manifest ·)).map (·.name)).or (s.unqualified.find? c)
  | [], _ => rfl
  | i :: is, s => by
    have hmanifest : (s.addImport i).manifest = s.manifest := rfl
    rw [List.foldl_cons, unqualified_foldl_addImport c is, unqualified_addImport, hmanifest, List.reverse_cons,
      List.find?_append]
    cases is.reverse.find? (c ∈ shown s.manifest ·) with
    | some j => rfl
    | none => by_cases h : c ∈ shown s.manifest i <;> simp [h]

/-- An unqualified constructor that a module does not declare comes from the last import that makes it visible. -/
theorem resolve_nil {m : Module} {c : String} (hc : (c : Text) ∉ declared m) :
    (ofModule m manifest).resolve [] c =
      ((importsOf m).reverse.find? ((c : Text) ∈ shown manifest ·)).map (·.name) := by
  have hdeclaring : ∀ s : Scope, (declaring s m).unqualified.find? (c : Text) = s.unqualified.find? (c : Text) := by
    intro s
    rw [declaring, OrderedMap.find?_insertAll_map, if_neg hc]
  have hresolve : (ofModule m manifest).resolve [] c = (ofModule m manifest).unqualified.find? (c : Text) := rfl
  rw [hresolve, ofModule_eq, hdeclaring, unqualified_foldl_addImport]
  exact Option.or_none

/-- So it comes from a module when an import of that module makes it visible and no later import makes it visible from another. -/
theorem resolve_nil_eq_some_iff {m : Module} {c : String} (hc : (c : Text) ∉ declared m) (origin : ModuleName) :
    (ofModule m manifest).resolve [] c = some origin ↔
      ∃ earlier i later, importsOf m = earlier ++ i :: later ∧ i.name = origin ∧ Shows manifest i c ∧
        ∀ j ∈ later, j.name ≠ origin → ¬ Shows manifest j c := by
  rw [resolve_nil hc, Option.map_eq_some_iff]
  constructor
  · rintro ⟨i, hfind, rfl⟩
    obtain ⟨hshown, later, earlier, hsplit, hlater⟩ := List.find?_eq_some_iff_append.1 hfind
    refine ⟨earlier.reverse, i, later.reverse, ?_, rfl, mem_shown.1 (of_decide_eq_true hshown), fun j hj _ hshows => ?_⟩
    · rw [← List.reverse_reverse (importsOf m), hsplit]
      simp
    · have hnot := hlater j (List.mem_reverse.1 hj)
      rw [decide_eq_true (mem_shown.2 hshows)] at hnot
      cases hnot
  · rintro ⟨earlier, i, later, hsplit, hname, hshows, hlater⟩
    rw [hsplit, List.reverse_append, List.reverse_cons, List.append_assoc, List.find?_append]
    cases hfind : later.reverse.find? ((c : Text) ∈ shown manifest ·) with
    | some j =>
      -- A later import that makes the constructor visible is one of the same module.
      refine ⟨j, rfl, ?_⟩
      by_contra hne
      have hj : (c : Text) ∈ shown manifest j := by simpa using List.find?_some hfind
      exact hlater j (List.mem_reverse.1 (List.mem_of_find?_eq_some hfind)) hne (mem_shown.1 hj)
    | none => exact ⟨i, by simp [mem_shown.2 hshows], hname⟩

end Scope

/-! ## Modules of a project -/

/-- A module shows a constructor through an import: it declares a type with the constructor and opens it, and the import takes
the type in. -/
def Module.ShowsThrough (m : Module) (i : Import) (c : String) : Prop :=
  ∃ t ∈ m.customTypes, (∃ constructor ∈ t.constructors, constructor.name = c) ∧ m.Opens t.name ∧ i.Takes t.name

namespace Interface

/-- The types in the interface of a module that declares no type twice are those that it opens. -/
theorem find?_types_ofModule {m : Module} (hm : (m.customTypes.map (·.name)).Nodup) {type : Text} {constructors : List Text} :
    (ofModule m).types.find? type = some constructors ↔
      ∃ t ∈ m.customTypes, m.Opens t.name ∧ type = t.name ∧ constructors = t.constructors.map fun c => .ofString c.name := by
  have hnodup : (((m.customTypes.filter fun t => opens m t.name).map fun t =>
      (Text.ofString t.name, t.constructors.map fun c => Text.ofString c.name)).map Prod.fst).Nodup := by
    have hnames : ((m.customTypes.filter fun t => opens m t.name).map (·.name)).Nodup :=
      hm.sublist ((List.filter_sublist (p := fun t : CustomType => opens m t.name)).map _)
    have hinjective : Function.Injective Text.ofString := fun _ _ => Text.ofString_injective
    have htexts := hnames.map hinjective
    rw [List.map_map] at htexts ⊢
    exact htexts
  rw [← OrderedMap.mem_entries_iff, ofModule, OrderedMap.entries_ofList hnodup]
  simp only [List.mem_map, List.mem_filter, opens_iff, Prod.mk.injEq]
  constructor
  · rintro ⟨t, ⟨ht, hopens⟩, rfl, rfl⟩
    exact ⟨t, ht, hopens, rfl, rfl⟩
  · rintro ⟨t, ht, hopens, rfl, rfl⟩
    exact ⟨t, ⟨ht, hopens⟩, rfl, rfl⟩

end Interface

namespace Runner

variable (r : Runner) {ms : List Module}

/-- The manifest of a project knows its modules by what they open. -/
theorem interface?_projectManifest (hnames : (ms.map Module.name).Nodup) {m : Module} (hm : m ∈ ms) :
    (r.projectManifest ms).interface? m.name = some (Interface.ofModule m) := by
  have hfind : (ms.map Interface.ofModule).reverse.find? (·.name = .ofName m.name) = some (Interface.ofModule m) := by
    cases hfound : (ms.map Interface.ofModule).reverse.find? (·.name = .ofName m.name) with
    | none =>
      have hmem : Interface.ofModule m ∈ (ms.map Interface.ofModule).reverse := List.mem_reverse.2 (List.mem_map_of_mem hm)
      exact absurd (decide_eq_true rfl) (List.find?_eq_none.1 hfound _ hmem)
    | some i =>
      obtain ⟨m', hm', rfl⟩ := List.mem_map.1 (List.mem_reverse.1 (List.mem_of_find?_eq_some hfound))
      have hname : m'.name = m.name := ModulePath.ofName_injective (Manifest.name_of_find? hfound)
      rw [List.inj_on_of_nodup_map hnames hm' hm hname]
  rw [projectManifest, Manifest.interface?, Manifest.find?_merge _ (Manifest.keyed_ofInterfaces _),
    Manifest.find?_ofInterfaces, hfind, Option.some_or]

/-- An import of a module of the project shows what the module shows through it. -/
theorem shows_iff_showsThrough (hnames : (ms.map Module.name).Nodup) {m : Module} (hm : m ∈ ms)
    (htypes : (m.customTypes.map (·.name)).Nodup) {i : Import} (hi : i.name = m.name) (c : String) :
    Scope.Shows (r.projectManifest ms) i c ↔ m.ShowsThrough i c := by
  simp only [Scope.Shows, hi, interface?_projectManifest r hnames hm, Option.some.injEq, exists_eq_left',
    Interface.find?_types_ofModule htypes, Module.ShowsThrough]
  constructor
  · rintro ⟨_, _, ⟨t, ht, hopens, rfl, rfl⟩, hc, htakes⟩
    obtain ⟨constructor, hconstructor, hname⟩ := List.mem_map.1 hc
    exact ⟨t, ht, ⟨constructor, hconstructor, Text.ofString_injective hname⟩, hopens, htakes⟩
  · rintro ⟨t, ht, ⟨constructor, hconstructor, rfl⟩, hopens, htakes⟩
    exact ⟨_, _, ⟨t, ht, hopens, rfl, rfl⟩, List.mem_map.2 ⟨constructor, hconstructor, rfl⟩, htakes⟩

/-- Opaque types stay opaque across a project. Take modules with different names, none of which declares a type twice. An unqualified
constructor that a module `b` does not declare comes from a module `a` of the project exactly when an import of `a` in `b` shows it,
through a type of `a` that both `a` and the import open, and no later import shows it from another module: one of the project
through such a type of its own, or one outside by its interface. In particular it does not come from `a` when it belongs to none
of the types that `a` opens. -/
theorem resolve_respects_opacity (hnames : (ms.map Module.name).Nodup)
    (htypes : ∀ m ∈ ms, (m.customTypes.map (·.name)).Nodup) {a b : Module} (ha : a ∈ ms) {c : String}
    (hc : ∀ t ∈ b.customTypes, ∀ constructor ∈ t.constructors, constructor.name ≠ c) :
    ((Scope.ofModule b (r.projectManifest ms)).resolve [] c = some a.name ↔
      ∃ earlier i later, defaultImports ++ b.imports = earlier ++ i :: later ∧ i.name = a.name ∧ a.ShowsThrough i c ∧
        ∀ j ∈ later, j.name ≠ a.name → ¬ Scope.Shows (r.projectManifest ms) j c) ∧
    (∀ m ∈ ms, ∀ j : Import, j.name = m.name → (Scope.Shows (r.projectManifest ms) j c ↔ m.ShowsThrough j c)) ∧
    ((∀ t ∈ a.customTypes, (∃ constructor ∈ t.constructors, constructor.name = c) → ¬ a.Opens t.name) →
      (Scope.ofModule b (r.projectManifest ms)).resolve [] c ≠ some a.name) := by
  have hdeclared : (c : Text) ∉ Scope.declared b := by
    intro hmem
    obtain ⟨t, ht, hmem⟩ := List.mem_flatMap.1 hmem
    obtain ⟨constructor, hconstructor, hname⟩ := List.mem_map.1 hmem
    exact hc t ht constructor hconstructor (Text.ofString_injective hname)
  have hshows : ∀ m ∈ ms, ∀ j : Import, j.name = m.name → (Scope.Shows (r.projectManifest ms) j c ↔ m.ShowsThrough j c) :=
    fun m hm j hj => r.shows_iff_showsThrough hnames hm (htypes m hm) hj c
  have hresolve : (Scope.ofModule b (r.projectManifest ms)).resolve [] c = some a.name ↔
      ∃ earlier i later, defaultImports ++ b.imports = earlier ++ i :: later ∧ i.name = a.name ∧ a.ShowsThrough i c ∧
        ∀ j ∈ later, j.name ≠ a.name → ¬ Scope.Shows (r.projectManifest ms) j c := by
    rw [Scope.resolve_nil_eq_some_iff hdeclared]
    refine exists_congr fun earlier => exists_congr fun i => exists_congr fun later => and_congr_right fun _ => ?_
    exact and_congr_right fun hi => and_congr_left' (hshows a ha i hi)
  refine ⟨hresolve, hshows, fun hopaque hcomes => ?_⟩
  obtain ⟨_, i, _, _, _, ⟨t, ht, hconstructor, hopens, _⟩, _⟩ := hresolve.1 hcomes
  exact hopaque t ht hconstructor hopens

set_option maxRecDepth 100000 in
/-- A module opens one of its two types. Where everything is imported from it, the constructor of that type comes from it, and that of
the other type does not. -/
theorem resolve_respects_one_open_type :
    ∃ a b, Module.parse "module A exposing (T(..), U)\n\ntype T = Yes\n\ntype U = No\n" "A.elm" = .ok a ∧
      Module.parse "import A exposing (..)\n\nx = Yes\n" "B.elm" = .ok b ∧
      (Scope.ofModule b (({} : Runner).projectManifest [a, b])).resolve [] "Yes" = some a.name ∧
      (Scope.ofModule b (({} : Runner).projectManifest [a, b])).resolve [] "No" ≠ some a.name := by
  obtain ⟨a, ha, htest⟩ := Module.exists_parse_of_any
    "module A exposing (T(..), U)\n\ntype T = Yes\n\ntype U = No\n" "A.elm"
    (fun a => a.name == ["A"] && Interface.opens a "T" && !Interface.opens a "U" &&
      a.customTypes.map (fun t => (t.name, t.constructors.map (·.name))) == [("T", ["Yes"]), ("U", ["No"])]) (by decide +kernel)
  obtain ⟨b, hb, htest'⟩ := Module.exists_parse_of_any "import A exposing (..)\n\nx = Yes\n" "B.elm"
    (fun b => b.name == ["Main"] && b.customTypes.isEmpty &&
      b.imports == [⟨["A"], none, some (.everything ⟨⟨1, 19⟩, ⟨1, 23⟩⟩), ⟨⟨1, 1⟩, ⟨1, 23⟩⟩⟩]) (by decide +kernel)
  simp only [Bool.and_eq_true, beq_iff_eq, Bool.not_eq_true', List.isEmpty_iff] at htest htest'
  obtain ⟨⟨⟨hname, hopen⟩, hclosed⟩, hcustom⟩ := htest
  obtain ⟨⟨hname', hnone⟩, himports⟩ := htest'
  have hnames : ([a, b].map Module.name).Nodup := by simp [hname, hname']
  have hown : a.customTypes.map (·.name) = ["T", "U"] := by
    have hfirst := congrArg (List.map Prod.fst) hcustom
    rwa [List.map_map] at hfirst
  have htypes : ∀ m ∈ [a, b], (m.customTypes.map (·.name)).Nodup := by simp [hown, hnone]
  have hdeclared : ∀ c : String, ∀ t ∈ b.customTypes, ∀ constructor ∈ t.constructors, constructor.name ≠ c := by simp [hnone]
  refine ⟨a, b, ha, hb, ?_, ?_⟩
  · -- The import of `a` comes last.
    refine (resolve_respects_opacity {} hnames htypes List.mem_cons_self (hdeclared "Yes")).1.2
      ⟨defaultImports, _, [], by rw [himports], hname.symm, ?_, nofun⟩
    have hmem : ("T", ["Yes"]) ∈ a.customTypes.map (fun t => (t.name, t.constructors.map (·.name))) := by simp [hcustom]
    obtain ⟨t, ht, hpair⟩ := List.mem_map.1 hmem
    obtain ⟨htname, hconstructors⟩ := Prod.mk.inj hpair
    obtain ⟨constructor, hconstructor, hyes⟩ := List.mem_map.1 (hconstructors ▸ List.mem_singleton_self "Yes")
    refine ⟨t, ht, ⟨constructor, hconstructor, hyes⟩, ?_, _, rfl, .inl rfl⟩
    rw [htname]
    exact (Interface.opens_iff a "T").1 hopen
  · refine (resolve_respects_opacity {} hnames htypes List.mem_cons_self (hdeclared "No")).2.2 fun t ht hno hopens => ?_
    have hmem : (t.name, t.constructors.map (·.name)) ∈ [("T", ["Yes"]), ("U", ["No"])] := by
      rw [← hcustom]
      exact List.mem_map_of_mem ht
    obtain ⟨constructor, hconstructor, hno⟩ := hno
    have hlisted : "No" ∈ t.constructors.map (·.name) := List.mem_map.2 ⟨constructor, hconstructor, hno⟩
    rcases List.mem_cons.1 hmem with hpair | hpair
    · rw [(Prod.mk.inj hpair).2] at hlisted
      simp at hlisted
    · have hpair := List.mem_singleton.1 hpair
      rw [(Prod.mk.inj hpair).1, ← Interface.opens_iff, hclosed] at hopens
      cases hopens

end Runner

end ElmLint
