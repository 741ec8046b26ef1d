import ElmLint.Lookup
import ElmLint.Proofs.OrderedMap
import Mathlib.Data.List.Find

/-!
# What a scope depends on

The scope of a module is made from the interfaces of the modules that it imports, and a qualifier stands for none but them
(`mem_candidates`). So two manifests that agree on the imports of a module resolve every name in it alike (`resolve_congr`),
and give it the same lookup table (`LookupTable.build_congr`).
-/

namespace ElmLint

/-- Two manifests know the same interface, or none, for each module that a module imports, by itself or by default. -/
def Module.ImportsAlike (m : Module) (a b : Manifest) : Prop :=
  ∀ i ∈ Scope.importsOf m, a.interface? i.name = b.interface? i.name

namespace Scope

/-! ## Imports -/

theorem manifest_foldl_addImport : ∀ (is : List Import) (s : Scope), (is.foldl addImport s).manifest = s.manifest
  | [], _ => rfl
  | i :: is, s => manifest_foldl_addImport is (s.addImport i)

/-- Of the manifest only the interfaces of the imports matter. -/
theorem foldl_addImport_congr {a b : Manifest} : ∀ (is : List Import) (s : Scope),
    (∀ i ∈ is, a.interface? i.name = b.interface? i.name) →
    is.foldl addImport { s with manifest := a } = { is.foldl addImport { s with manifest := b } with manifest := a }
  | [], _, _ => rfl
  | i :: is, s, h => by
    have hi := h i List.mem_cons_self
    have hstep : addImport { s with manifest := a } i = { addImport { s with manifest := b } i with manifest := a } := by
      simp only [addImport, hi]
    rw [List.foldl_cons, List.foldl_cons, hstep]
    exact foldl_addImport_congr is (addImport { s with manifest := b } i) fun j hj => h j (List.mem_cons_of_mem i hj)

/-- The scope after the imports, with what the module declares itself. -/
def declaring (s : Scope) (m : Module) : Scope :=
  { s with unqualified := s.unqualified.insertAll ((declared m).map (·, m.name)) }

-- The imports of a module are a closed list that reduces: proofs go through this equation and never unfold a scope.
theorem ofModule_eq (m : Module) (manifest : Manifest) :
    ofModule m manifest = declaring ((importsOf m).foldl addImport ⟨manifest, .empty, .empty⟩) m := rfl

theorem manifest_ofModule (m : Module) (manifest : Manifest) : (ofModule m manifest).manifest = manifest := by
  have hdeclaring : ∀ s : Scope, (declaring s m).manifest = s.manifest := fun _ => rfl
  rw [ofModule_eq, hdeclaring, manifest_foldl_addImport]

theorem qualifiers_ofModule (m : Module) (manifest : Manifest) :
    (ofModule m manifest).qualifiers = ((importsOf m).foldl addImport ⟨manifest, .empty, .empty⟩).qualifiers := by
  have hdeclaring : ∀ s : Scope, (declaring s m).qualifiers = s.qualifiers := fun _ => rfl
  rw [ofModule_eq, hdeclaring]

theorem ofModule_congr {m : Module} {a b : Manifest} (h : m.ImportsAlike a b) :
    ofModule m a = { ofModule m b with manifest := a } := by
  have hdeclaring : ∀ s : Scope, declaring { s with manifest := a } m = { declaring s m with manifest := a } := fun _ => rfl
  rw [ofModule_eq, ofModule_eq, foldl_addImport_congr (importsOf m) ⟨b, .empty, .empty⟩ h, hdeclaring]

/-! ## Candidates -/

/-- All that qualifiers stand for is among some names. -/
def Among (names : List ModuleName) (qualifiers : OrderedMap String (List ModuleName)) : Prop :=
  ∀ qualifier candidates, qualifiers.find? qualifier = some candidates → ∀ c ∈ candidates, c ∈ names

theorem mem_of_mem_addCandidate {candidates : List ModuleName} {name c : ModuleName} (h : c ∈ addCandidate candidates name) :
    c = name ∨ c ∈ candidates := by
  unfold addCandidate at h
  split at h
  · exact .inr h
  · exact (List.mem_append.1 h).elim .inr fun h => .inl (List.mem_singleton.1 h)

theorem among_addImport {names : List ModuleName} {s : Scope} {i : Import} (hi : i.name ∈ names)
    (h : Among names s.qualifiers) : Among names (s.addImport i).qualifiers := by
  intro qualifier candidates hfind c hc
  simp only [addImport, OrderedMap.find?_insert] at hfind
  split at hfind
  · cases hfind
    rcases mem_of_mem_addCandidate hc with rfl | hc
    · exact hi
    · cases hold : s.qualifiers.find? (qualifierOf i) with
      | none => rw [hold] at hc; cases hc
      | some old =>
        rw [hold] at hc
        exact h _ _ hold c hc
  · exact h _ _ hfind c hc

theorem among_foldl_addImport {names : List ModuleName} : ∀ (is : List Import) (s : Scope), (∀ i ∈ is, i.name ∈ names) →
    Among names s.qualifiers → Among names (is.foldl addImport s).qualifiers
  | [], _, _, h => h
  | i :: is, s, his, h => among_foldl_addImport is (s.addImport i) (fun j hj => his j (List.mem_cons_of_mem i hj))
      (among_addImport (his i List.mem_cons_self) h)

/-- A qualifier stands for modules that are imported. -/
theorem mem_candidates {m : Module} {manifest : Manifest} {qualifier c : ModuleName}
    (h : c ∈ (ofModule m manifest).candidates qualifier) : ∃ i ∈ importsOf m, i.name = c := by
  have hamong : Among ((importsOf m).map (·.name)) (ofModule m manifest).qualifiers := by
    rw [qualifiers_ofModule]
    exact among_foldl_addImport _ _ (fun i hi => List.mem_map_of_mem hi) nofun
  unfold candidates at h
  cases hfind : (ofModule m manifest).qualifiers.find? (ModuleName.dotted qualifier) with
  | none => rw [hfind] at h; cases h
  | some found =>
    rw [hfind] at h
    exact List.mem_map.1 (hamong _ _ hfind c h)

/-! ## Names -/

theorem candidates_congr {m : Module} {a b : Manifest} (h : m.ImportsAlike a b) (qualifier : ModuleName) :
    (ofModule m a).candidates qualifier = (ofModule m b).candidates qualifier := by
  have hmanifest : ∀ s : Scope, { s with manifest := a }.candidates qualifier = s.candidates qualifier := fun _ => rfl
  rw [ofModule_congr h, hmanifest]

/-- Manifests that agree on the imports of a module resolve every name in it alike. -/
theorem resolve_congr {m : Module} {a b : Manifest} (h : m.ImportsAlike a b) (qualifier : ModuleName) (name : String) :
    (ofModule m a).resolve qualifier name = (ofModule m b).resolve qualifier name := by
  have hunqualified : (ofModule m a).unqualified = (ofModule m b).unqualified := by
    have hmanifest : ∀ s : Scope, { s with manifest := a }.unqualified = s.unqualified := fun _ => rfl
    rw [ofModule_congr h, hmanifest]
  have hfind : ((ofModule m b).candidates qualifier).find? (fun c => (a.interface? c).any (·.exposesConstructor name)) =
      ((ofModule m b).candidates qualifier).find? (fun c => (b.interface? c).any (·.exposesConstructor name)) := by
    refine List.find?_congr fun c hc => ?_
    obtain ⟨i, hi, rfl⟩ := mem_candidates hc
    rw [h i hi]
  unfold resolve
  rw [manifest_ofModule, manifest_ofModule, hunqualified, candidates_congr h, hfind]

end Scope

/-- Manifests that agree on the imports of a module give it the same lookup table. -/
theorem LookupTable.build_congr {m : Module} {a b : Manifest} (h : m.ImportsAlike a.orCore b.orCore) :
    build m a = build m b := by
  simp only [build, Scope.resolve_congr h]

end ElmLint
