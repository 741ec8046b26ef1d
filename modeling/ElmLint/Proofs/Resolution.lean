import ElmLint.Proofs.Visibility

/-!
# Which module a constructor comes from

The scope of a module is filled import by import, the default ones first. A constructor that is written by itself belongs to the
module if that declares it, and otherwise to the last import that makes it visible. A qualifier stands for the modules that are
imported under it, in the order of their first imports (`candidates_ofModule`): each import adds its module at the end, or leaves
the list alone. The constructor then belongs to the first of them that has it, or to the only one there is.

* `resolve_precedence`: the rules for all constructors of all modules, whatever is known about the modules that are imported.
-/

namespace ElmLint

/-- A module declares a constructor. -/
def Module.Declares (m : Module) (c : String) : Prop := ∃ t ∈ m.customTypes, ∃ constructor ∈ t.constructors, constructor.name = c

instance (m : Module) (c : String) : Decidable (m.Declares c) :=
  inferInstanceAs (Decidable (∃ t ∈ m.customTypes, ∃ constructor ∈ t.constructors, constructor.name = c))

/-- A manifest knows a module of this name, with a type that has a constructor. -/
def Manifest.Knows (manifest : Manifest) (name : ModuleName) (c : Text) : Prop :=
  ∃ interface, manifest.interface? name = some interface ∧
    ∃ type constructors, interface.types.find? type = some constructors ∧ c ∈ constructors

namespace Scope

variable {m : Module} {manifest : Manifest}

instance (i : Import) (c : Text) : Decidable (Shows manifest i c) := decidable_of_iff (c ∈ shown manifest i) mem_shown

theorem mem_declared {c : String} : (c : Text) ∈ declared m ↔ m.Declares c := by
  simp only [declared, List.mem_flatMap, List.mem_map, Module.Declares]
  refine exists_congr fun t => and_congr_right fun _ => exists_congr fun constructor => and_congr_right fun _ => ?_
  exact ⟨fun h => Text.ofString_injective h, congrArg Text.ofString⟩

theorem exposesConstructor_iff {interface : Interface} {c : Text} : interface.exposesConstructor c = true ↔
    ∃ type constructors, interface.types.find? type = some constructors ∧ c ∈ constructors := by
  simp only [Interface.exposesConstructor, List.any_eq_true, List.contains_iff_mem]
  exact interface.types.exists_mem_values_iff

theorem knows_iff {name : ModuleName} {c : Text} :
    (manifest.interface? name).any (·.exposesConstructor c) = true ↔ manifest.Knows name c := by
  rw [Option.any_eq_true]
  exact exists_congr fun interface => and_congr_right fun _ => exposesConstructor_iff

instance (name : ModuleName) (c : Text) : Decidable (manifest.Knows name c) := decidable_of_iff _ knows_iff

/-! ## Qualifiers -/

/-- The modules that are imported under a qualifier, in the order of their first imports. -/
def boundTo (is : List Import) (qualifier : ModuleName) : List ModuleName :=
  ((is.filter fun i => i.aliasName.getD (ModuleName.dotted i.name) = ModuleName.dotted qualifier).map (·.name)).eraseDups

/-- One more module is added at the end, unless it is there already. -/
theorem addCandidate_eraseDups (names : List ModuleName) (name : ModuleName) :
    addCandidate names.eraseDups name = (names ++ [name]).eraseDups := by
  rw [addCandidate, List.eraseDups_append]
  by_cases h : name ∈ names
  · simp [h, List.removeAll]
  · simp [h, List.removeAll, List.eraseDups_cons]

theorem candidates_addImport (s : Scope) (i : Import) (qualifier : ModuleName) :
    (s.addImport i).candidates qualifier =
      if qualifierOf i = ModuleName.dotted qualifier then addCandidate (s.candidates qualifier) i.name
      else s.candidates qualifier := by
  simp only [candidates, addImport, OrderedMap.find?_insert]
  by_cases h : qualifierOf i = ModuleName.dotted qualifier
  · simp [h]
  · simp [h, Ne.symm h]

/-- What a qualifier stands for after some imports: the modules that came in under it, each at its first place. -/
theorem candidates_foldl_addImport (qualifier : ModuleName) : ∀ (is : List Import) (s : Scope) (names : List ModuleName),
    s.candidates qualifier = names.eraseDups →
    (is.foldl addImport s).candidates qualifier =
      (names ++ (is.filter fun i => qualifierOf i = ModuleName.dotted qualifier).map (·.name)).eraseDups
  | [], s, names, h => by simpa using h
  | i :: is, s, names, h => by
    rw [List.foldl_cons]
    by_cases hi : qualifierOf i = ModuleName.dotted qualifier
    · have hstep : (s.addImport i).candidates qualifier = (names ++ [i.name]).eraseDups := by
        rw [candidates_addImport, if_pos hi, h, addCandidate_eraseDups]
      rw [candidates_foldl_addImport qualifier is _ _ hstep]
      simp [hi]
    · have hstep : (s.addImport i).candidates qualifier = names.eraseDups := by
        rw [candidates_addImport, if_neg hi, h]
      rw [candidates_foldl_addImport qualifier is _ _ hstep]
      simp [hi]

theorem candidates_ofModule (m : Module) (manifest : Manifest) (qualifier : ModuleName) :
    (ofModule m manifest).candidates qualifier = boundTo (defaultImports ++ m.imports) qualifier := by
  have hsame : (ofModule m manifest).candidates qualifier =
      ((importsOf m).foldl addImport ⟨manifest, .empty, .empty⟩).candidates qualifier := by
    rw [candidates, qualifiers_ofModule, candidates]
  rw [hsame, candidates_foldl_addImport qualifier _ _ [] rfl, List.nil_append]
  rfl

/-- A constructor with a qualifier comes from the first module that the qualifier stands for and that has it; if none is known
to have it, from the only module that the qualifier stands for. -/
theorem resolve_qualified {qualifier : ModuleName} (hqualifier : qualifier ≠ []) (c : String) :
    (ofModule m manifest).resolve qualifier c =
      ((boundTo (defaultImports ++ m.imports) qualifier).find? (manifest.Knows · c)).or
        (if (boundTo (defaultImports ++ m.imports) qualifier).length = 1 then
          (boundTo (defaultImports ++ m.imports) qualifier).head?
        else none) := by
  have hempty : qualifier.isEmpty = false := by simpa using hqualifier
  have hknows : (fun name => (manifest.interface? name).any (·.exposesConstructor c)) =
      fun name => decide (manifest.Knows name c) := by
    funext name
    rw [Bool.eq_iff_iff, decide_eq_true_iff]
    exact knows_iff
  rw [resolve, hempty, manifest_ofModule, candidates_ofModule, hknows]
  generalize boundTo (defaultImports ++ m.imports) qualifier = bound
  cases bound.find? (manifest.Knows · c) with
  | some found => rfl
  | none =>
    match bound with
    | [] => rfl
    | [_] => rfl
    | _ :: _ :: _ => rfl

/-! ## Unqualified constructors -/

/-- A constructor without a qualifier is the module's own, or comes from the last import that makes it visible. -/
theorem resolve_unqualified (c : String) : (ofModule m manifest).resolve [] c =
    if m.Declares c then some m.name
    else ((defaultImports ++ m.imports).filter (Shows manifest · c)).getLast?.map (·.name) := by
  by_cases hdeclares : m.Declares c
  · have hresolve : (ofModule m manifest).resolve [] c = (ofModule m manifest).unqualified.find? (c : Text) := rfl
    rw [if_pos hdeclares, hresolve, ofModule_eq, declaring, OrderedMap.find?_insertAll_map, if_pos (mem_declared.2 hdeclares)]
  · have hshown : (fun i => decide ((c : Text) ∈ shown manifest i)) = fun i => decide (Shows manifest i c) := by
      funext i
      exact decide_eq_decide.2 mem_shown
    rw [if_neg hdeclares, resolve_nil (mt mem_declared.1 hdeclares), hshown, ← List.head?_filter, List.filter_reverse,
      List.head?_reverse]
    rfl

/-- **The precedence of names.** Whatever a manifest knows, and for every constructor of a module:

* without a qualifier it is the module's own if the module declares it, and otherwise comes from the last import that makes it
  visible, the imports of the module counting after the default ones;
* so the imports of the module override the default ones, and what it declares overrides both;
* with a qualifier it comes from the first of the modules that are imported under the qualifier whose interface has it, or, if no
  interface has it, from the only module that is imported under the qualifier;
* so a qualifier that stands for one module leads to it for every constructor, known or not. -/
theorem resolve_precedence (m : Module) (manifest : Manifest) (c : String) :
    (ofModule m manifest).resolve [] c =
      (if m.Declares c then some m.name
      else ((defaultImports ++ m.imports).filter (Shows manifest · c)).getLast?.map (·.name)) ∧
    (¬ m.Declares c → (ofModule m manifest).resolve [] c =
      ((m.imports.filter (Shows manifest · c)).getLast?.or (defaultImports.filter (Shows manifest · c)).getLast?).map (·.name)) ∧
    (∀ qualifier, qualifier ≠ [] → (ofModule m manifest).resolve qualifier c =
      ((boundTo (defaultImports ++ m.imports) qualifier).find? (manifest.Knows · c)).or
        (if (boundTo (defaultImports ++ m.imports) qualifier).length = 1 then
          (boundTo (defaultImports ++ m.imports) qualifier).head?
        else none)) ∧
    (∀ qualifier name, qualifier ≠ [] → boundTo (defaultImports ++ m.imports) qualifier = [name] →
      (ofModule m manifest).resolve qualifier c = some name) := by
  refine ⟨resolve_unqualified c, fun hdeclares => ?_, fun qualifier hqualifier => resolve_qualified hqualifier c,
    fun qualifier name hqualifier hbound => ?_⟩
  · rw [resolve_unqualified, if_neg hdeclares, List.filter_append, List.getLast?_append]
  · rw [resolve_qualified hqualifier, hbound]
    by_cases hknows : manifest.Knows name c <;> simp [hknows]

set_option maxRecDepth 100000 in
/-- A module declares one constructor and takes `Err` in from a module that it calls `A`. The first is its own, and `Err` comes from
the other module, by itself and with the qualifier. -/
theorem resolve_precedence_own_import :
    ∃ m, Module.parse "import Api as A exposing (Answer(..))\n\ntype T = Own\n\nx = 1\n" "A.elm" = .ok m ∧
      (ofModule m (.ofInterfaces [⟨["Api"], .ofList [("Answer", ["Err"])]⟩])).resolve [] "Own" = some ["Main"] ∧
      (ofModule m (.ofInterfaces [⟨["Api"], .ofList [("Answer", ["Err"])]⟩])).resolve [] "Err" = some ["Api"] ∧
      (ofModule m (.ofInterfaces [⟨["Api"], .ofList [("Answer", ["Err"])]⟩])).resolve ["A"] "Err" = some ["Api"] := by
  obtain ⟨m, hm, htest⟩ := Module.exists_parse_of_chars
    "import Api as A exposing (Answer(..))\n\ntype T = Own\n\nx = 1\n" rfl "A.elm"
    (fun m => m.name == ["Main"] && decide (m.Declares "Own") && !decide (m.Declares "Err") &&
      (m.imports.filter (Shows (.ofInterfaces [⟨["Api"], .ofList [("Answer", ["Err"])]⟩]) · "Err")).map (·.name) == [["Api"]] &&
      (m.imports.filter fun i => i.aliasName.getD (ModuleName.dotted i.name) = "A").map (·.name) == [["Api"]]) (by decide +kernel)
  simp only [Bool.and_eq_true, beq_iff_eq, Bool.not_eq_true', decide_eq_true_eq, decide_eq_false_iff_not] at htest
  obtain ⟨⟨⟨⟨hname, hown⟩, herr⟩, hshows⟩, hbound⟩ := htest
  generalize hmanifest : Manifest.ofInterfaces [⟨["Api"], .ofList [("Answer", ["Err"])]⟩] = manifest at hshows ⊢
  refine ⟨m, hm, ?_, ?_, ?_⟩
  · rw [(resolve_precedence m manifest "Own").1, if_pos hown, hname]
  · rw [(resolve_precedence m manifest "Err").2.1 herr]
    obtain ⟨i, hi, hiname⟩ := List.map_eq_singleton_iff.1 hshows
    rw [hi]
    exact congrArg some hiname
  · -- Whatever the default imports are, the manifest knows no other module.
    have hknown : ∀ name : ModuleName, manifest.Knows name "Err" → name = ["Api"] := by
      rintro name ⟨interface, hfind, -⟩
      rw [← hmanifest, Manifest.interface?, Manifest.find?_ofInterfaces] at hfind
      have hsame : ModulePath.ofName ["Api"] = ModulePath.ofName name := by
        rw [← Manifest.name_of_find? hfind, List.mem_singleton.1 (List.mem_of_find?_eq_some hfind)]
        rfl
      exact (ModulePath.ofName_injective hsame).symm
    have hknows : manifest.Knows ["Api"] "Err" := by
      rw [← hmanifest]
      decide +kernel
    have hmem : ["Api"] ∈ boundTo (defaultImports ++ m.imports) ["A"] := by
      have hdotted : ModuleName.dotted ["A"] = "A" := by decide
      rw [boundTo, List.mem_eraseDups, hdotted, List.filter_append, List.map_append, hbound]
      exact List.mem_append_right _ List.mem_cons_self
    rw [(resolve_precedence m manifest "Err").2.2.1 ["A"] (by simp)]
    cases hfind : (boundTo (defaultImports ++ m.imports) ["A"]).find? (manifest.Knows · "Err") with
    | none => exact absurd (decide_eq_true hknows) (List.find?_eq_none.1 hfind _ hmem)
    | some found =>
      have hfound : manifest.Knows found "Err" := by simpa using List.find?_some hfind
      rw [hknown found hfound, Option.some_or]

end Scope

end ElmLint
