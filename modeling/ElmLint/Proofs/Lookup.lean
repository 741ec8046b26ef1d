import ElmLint.Proofs.GrammarReferences
import ElmLint.Proofs.OrderedMap

/-!
# Lookup tables never confuse two references

The references of a parsed module have different places, so its lookup table has an entry for each of them, and the entry is
what the scope of the module says about that reference.
-/

namespace ElmLint.LookupTable

variable {m : Module} (hnodup : (m.references.map Reference.range).Nodup) (manifest : Manifest)

include hnodup

/-- References with different places each have their entry. -/
theorem entries_build : (build m manifest).entries.entries =
    m.references.map fun r => (r.range, (Scope.ofModule m manifest.orCore).resolve r.qualifier r.name) := by
  refine OrderedMap.entries_ofList ?_
  rw [List.map_map]
  exact hnodup

/-- The table knows the origin of every reference. -/
theorem origin?_build {r : Reference} (hr : r ∈ m.references) :
    (build m manifest).origin? r.range = (Scope.ofModule m manifest.orCore).resolve r.qualifier r.name := by
  have hentry : (r.range, (Scope.ofModule m manifest.orCore).resolve r.qualifier r.name) ∈
      (build m manifest).entries.entries := by
    rw [entries_build hnodup]
    exact List.mem_map_of_mem hr
  rw [origin?, (OrderedMap.mem_entries_iff _).1 hentry, Option.getD_some]

omit hnodup in
/-- For every parsed module and every manifest: the references have pairwise different places, the table gives for each of
them what the scope of the module resolves it to, and it has as many entries as there are references. A manifest without
interfaces stands for that of the core library. -/
theorem build_distinguishes_references {source file : String} (h : Module.parse source file = .ok m) :
    m.references.Pairwise (·.range ≠ ·.range) ∧
    (∀ r ∈ m.references, (build m manifest).origin? r.range =
      (Scope.ofModule m (if manifest.isEmpty then .core else manifest)).resolve r.qualifier r.name) ∧
    (build m manifest).size = m.references.length := by
  have hnodup := Module.nodup_references h
  refine ⟨List.pairwise_map.1 hnodup, fun r hr => origin?_build hnodup manifest hr, ?_⟩
  rw [size, OrderedMap.size, entries_build hnodup, List.length_map]

omit hnodup in
set_option maxRecDepth 100000 in
/-- A module with five references, two of them by the same name. -/
theorem build_distinguishes_five_references :
    ∃ m, Module.parse "f r =\n    case r of\n        Ok (Just n) -> Ok n\n        Err _ -> Maybe.Nothing\n" "F.elm" = .ok m ∧
      m.references.length = 5 ∧ m.references.Pairwise (·.range ≠ ·.range) ∧ (build m .core).size = 5 := by
  obtain ⟨m, hparse, hcount⟩ := Module.exists_parse_of_any
    "f r =\n    case r of\n        Ok (Just n) -> Ok n\n        Err _ -> Maybe.Nothing\n" "F.elm"
    (·.references.length == 5) (by decide +kernel)
  rw [beq_iff_eq] at hcount
  obtain ⟨hapart, -, hsize⟩ := build_distinguishes_references .core hparse
  exact ⟨m, hparse, hcount, hapart, hsize.trans hcount⟩

end ElmLint.LookupTable
