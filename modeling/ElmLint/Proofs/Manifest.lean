import ElmLint.Manifest
import ElmLint.Proofs.OrderedMap

/-!
# What manifests know

A manifest that is made from interfaces gives each name the last interface of that name (`find?_ofInterfaces`), so of two
manifests taken together the second decides, as far as it knows the name (`find?_merge`). Interfaces with different names can
be given in any order (`find?_ofInterfaces_congr`).
-/

namespace ElmLint

/-- Different names are different paths. -/
theorem ModulePath.ofName_injective {name name' : ModuleName} (h : ofName name = ofName name') : name = name' :=
  (List.map_inj_right fun _ _ => Text.ofString_injective).1 h

namespace Manifest

/-- An interface that is found by a name has it. -/
theorem name_of_find? {is : List Interface} {name : ModulePath} {i : Interface}
    (h : is.find? (·.name = name) = some i) : i.name = name := by
  simpa using List.find?_some h

/-- Every interface stands under its own name. -/
def Keyed (m : Manifest) : Prop := ∀ entry ∈ m.entries, entry.2.name = entry.1

theorem find?_add (m : Manifest) (i : Interface) (name : ModulePath) :
    (m.add i).find? name = if name = i.name then some i else m.find? name :=
  OrderedMap.find?_insert m i.name name i

/-- Adding interfaces one after another: the last one of a name counts, or else what was there. -/
theorem find?_foldl_add (name : ModulePath) : ∀ (is : List Interface) (m : Manifest),
    (is.foldl add m).find? name = (is.reverse.find? (·.name = name)).or (m.find? name)
  | [], m => rfl
  | i :: is, m => by
    rw [List.foldl_cons, find?_foldl_add name is, find?_add, List.reverse_cons, List.find?_append]
    by_cases h : name = i.name
    · subst h
      cases is.reverse.find? (·.name = i.name) <;> simp
    · have h' : ¬ i.name = name := fun e => h e.symm
      simp [h, h']

theorem find?_ofInterfaces (is : List Interface) (name : ModulePath) :
    (ofInterfaces is).find? name = is.reverse.find? (·.name = name) := by
  rw [ofInterfaces, find?_foldl_add]
  exact Option.or_none

theorem keyed_ofInterfaces (is : List Interface) : (ofInterfaces is).Keyed := by
  intro entry hentry
  obtain ⟨name, i⟩ := entry
  have hfound := (OrderedMap.mem_entries_iff _).1 hentry
  rw [find?_ofInterfaces] at hfound
  exact name_of_find? hfound

/-- The interface of a name is also the one among all interfaces that has the name. -/
theorem find?_values {m : Manifest} (hm : m.Keyed) (name : ModulePath) :
    m.values.reverse.find? (·.name = name) = m.find? name := by
  have hmem : ∀ i, i ∈ m.values.reverse → i.name = name → m.find? name = some i := by
    intro i hi hname
    rw [List.mem_reverse, OrderedMap.values] at hi
    obtain ⟨⟨key, i'⟩, hentry, rfl⟩ := List.mem_map.1 hi
    have hkey : i'.name = key := hm _ hentry
    rw [← OrderedMap.mem_entries_iff, ← hname, hkey]
    exact hentry
  cases hfind : m.values.reverse.find? (·.name = name) with
  | some i => exact (hmem i (List.mem_of_find?_eq_some hfind) (name_of_find? hfind)).symm
  | none =>
    cases hfound : m.find? name with
    | none => rfl
    | some i =>
      have hentry := (OrderedMap.mem_entries_iff m).2 hfound
      have hi : i ∈ m.values.reverse := List.mem_reverse.2 (List.mem_map.2 ⟨_, hentry, rfl⟩)
      have hnot := List.find?_eq_none.1 hfind i hi
      exact absurd (decide_eq_true (hm _ hentry)) hnot

/-- Of two manifests the second decides, as far as it knows a name. -/
theorem find?_merge (m : Manifest) {n : Manifest} (hn : n.Keyed) (name : ModulePath) :
    (m.merge n).find? name = (n.find? name).or ((ofInterfaces m.values).find? name) := by
  rw [merge, find?_ofInterfaces, List.reverse_append, List.find?_append, find?_values hn, find?_ofInterfaces]

/-- Two lists that have the same interfaces of a name, no two of them with that name, give the name the same interface. -/
theorem find?_ofInterfaces_congr {is js : List Interface} {name : ModulePath}
    (hunique : ∀ i ∈ js, ∀ j ∈ js, i.name = name → j.name = name → i = j)
    (hsame : ∀ i, i.name = name → (i ∈ is ↔ i ∈ js)) : (ofInterfaces is).find? name = (ofInterfaces js).find? name := by
  rw [find?_ofInterfaces, find?_ofInterfaces]
  cases his : is.reverse.find? (·.name = name) with
  | none =>
    refine (List.find?_eq_none.2 fun i hi hname => ?_).symm
    have hi' : i ∈ is := (hsame i (of_decide_eq_true hname)).2 (List.mem_reverse.1 hi)
    exact List.find?_eq_none.1 his i (List.mem_reverse.2 hi') hname
  | some i =>
    have hname : i.name = name := name_of_find? his
    have hi : i ∈ js := (hsame i hname).1 (List.mem_reverse.1 (List.mem_of_find?_eq_some his))
    cases hjs : js.reverse.find? (·.name = name) with
    | none => exact absurd (decide_eq_true hname) (List.find?_eq_none.1 hjs i (List.mem_reverse.2 hi))
    | some j =>
      have hj : j ∈ js := List.mem_reverse.1 (List.mem_of_find?_eq_some hjs)
      exact congrArg some (hunique i hi j hj hname (name_of_find? hjs))

end Manifest

end ElmLint
