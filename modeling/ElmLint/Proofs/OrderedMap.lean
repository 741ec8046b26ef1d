import ElmLint.OrderedMap
import Mathlib.Data.List.Basic

/-!
# What ordered maps hold

A key has one value (`mem_entries_iff`), writing and erasing change the value of one key (`find?_insert`, `find?_erase`), and
entries with different keys all get into a map, in their order (`entries_ofList`). A map is told by its keys in order and by what
it has for them (`ext_keys`).
-/

namespace ElmLint.OrderedMap

variable {κ α : Type} [DecidableEq κ]

/-- Looking a key up gives the value that it has. -/
theorem mem_entries_iff (m : OrderedMap κ α) {key : κ} {value : α} :
    (key, value) ∈ m.entries ↔ m.find? key = some value := by
  have hfind : ∀ entries : List (κ × α), (entries.map Prod.fst).Nodup →
      ((key, value) ∈ entries ↔ (entries.find? (·.1 = key)).map Prod.snd = some value) := by
    intro entries
    induction entries with
    | nil => simp
    | cons entry rest ih =>
      intro hnodup
      rw [List.map_cons, List.nodup_cons] at hnodup
      obtain ⟨k, v⟩ := entry
      by_cases hk : k = key
      · subst hk
        have hrest : (k, value) ∉ rest := fun hmem => hnodup.1 (List.mem_map.2 ⟨_, hmem, rfl⟩)
        simp [hrest, eq_comm]
      · have hne : ¬ key = k := fun e => hk e.symm
        simp [hk, hne, ih hnodup.2]
  exact hfind m.entries m.nodup

/-- The values are those that the keys have. -/
theorem exists_mem_values_iff (m : OrderedMap κ α) {P : α → Prop} :
    (∃ value ∈ m.values, P value) ↔ ∃ key value, m.find? key = some value ∧ P value := by
  simp only [values, List.mem_map, Prod.exists, exists_eq_right, mem_entries_iff]
  constructor
  · rintro ⟨value, ⟨key, hfind⟩, hvalue⟩
    exact ⟨key, value, hfind, hvalue⟩
  · rintro ⟨key, value, hfind, hvalue⟩
    exact ⟨value, ⟨key, hfind⟩, hvalue⟩

/-- Writing gives a key its value and leaves the others. -/
theorem find?_insert (m : OrderedMap κ α) (key other : κ) (value : α) :
    (m.insert key value).find? other = if other = key then some value else m.find? other := by
  have hfind : ∀ entries : List (κ × α), ((putEntry key value entries).find? (·.1 = other)).map Prod.snd =
      if other = key then some value else (entries.find? (·.1 = other)).map Prod.snd := by
    intro entries
    induction entries with
    | nil => by_cases h : other = key <;> simp [putEntry, h, eq_comm]
    | cons entry rest ih =>
      obtain ⟨k, v⟩ := entry
      rw [putEntry]
      by_cases hk : k = key
      · subst hk
        by_cases h : other = k <;> simp [h, eq_comm]
      · by_cases ho : k = other
        · subst ho
          simp [hk]
        · simpa [hk, ho] using ih
  exact hfind m.entries

/-- Erasing takes a key's value away and leaves the others. -/
theorem find?_erase (m : OrderedMap κ α) (key other : κ) : (m.erase key).find? other = if other = key then none else m.find? other := by
  rw [find?, find?, erase, List.find?_filter]
  by_cases h : other = key
  · simp [h]
  · have hsame : (fun entry : κ × α => decide (entry.1 ≠ key) && decide (entry.1 = other)) = fun entry => decide (entry.1 = other) := by
      funext entry
      by_cases hentry : entry.1 = other <;> simp [hentry, h]
    rw [if_neg h, ← hsame]
    simp only [Bool.decide_and, Bool.decide_eq_true]

/-- Writing one value to several keys gives it to all of them. -/
theorem find?_insertAll_map (value : α) (other : κ) : ∀ (keys : List κ) (m : OrderedMap κ α),
    (m.insertAll (keys.map (·, value))).find? other = if other ∈ keys then some value else m.find? other
  | [], m => rfl
  | key :: keys, m => by
    have hrest := find?_insertAll_map value other keys (m.insert key value)
    rw [find?_insert] at hrest
    refine hrest.trans ?_
    by_cases hkeys : other ∈ keys <;> by_cases hkey : other = key <;> simp [hkeys, hkey]

theorem putEntry_of_notMem {key : κ} (value : α) : ∀ {entries : List (κ × α)}, key ∉ entries.map Prod.fst →
    putEntry key value entries = entries ++ [(key, value)]
  | [], _ => rfl
  | (k, v) :: rest, h => by
    rw [List.map_cons, List.mem_cons, not_or] at h
    rw [putEntry, if_neg fun e => h.1 e.symm, putEntry_of_notMem value h.2, List.cons_append]

/-- Entries with new keys come after those that are there. -/
theorem entries_insertAll : ∀ (new : List (κ × α)) (m : OrderedMap κ α),
    ((m.entries ++ new).map Prod.fst).Nodup → (m.insertAll new).entries = m.entries ++ new
  | [], m, _ => (List.append_nil _).symm
  | (key, value) :: new, m, h => by
    have hkey : key ∉ m.entries.map Prod.fst := by
      rw [List.map_append, List.nodup_append] at h
      exact fun hmem => h.2.2 key hmem key (by simp) rfl
    have hinsert : (m.insert key value).entries = m.entries ++ [(key, value)] := putEntry_of_notMem value hkey
    have hrest := entries_insertAll new (m.insert key value)
    rw [hinsert, List.append_assoc] at hrest
    exact hrest h

/-- Entries with different keys all get into a map, in their order. -/
theorem entries_ofList {entries : List (κ × α)} (h : (entries.map Prod.fst).Nodup) : (ofList entries).entries = entries :=
  entries_insertAll entries empty h

/-! ## Keys -/

theorem contains_iff (m : OrderedMap κ α) {key : κ} : m.contains key = true ↔ key ∈ m.keys := List.contains_iff_mem

theorem keys_insert (m : OrderedMap κ α) (key : κ) (value : α) :
    (m.insert key value).keys = if m.contains key then m.keys else m.keys ++ [key] := by
  simp only [contains_iff]
  exact keys_putEntry key value m.entries

theorem keys_erase (m : OrderedMap κ α) (key : κ) : (m.erase key).keys = m.keys.filter (· ≠ key) := by
  rw [keys, keys, List.filter_map]
  rfl

/-- The keys without a value are those that are not listed. -/
theorem find?_eq_none_iff (m : OrderedMap κ α) {key : κ} : m.find? key = none ↔ key ∉ m.keys := by
  simp only [find?, keys, Option.map_eq_none_iff, List.find?_eq_none, decide_eq_true_eq, List.mem_map, not_exists, not_and]

/-- A map lists its keys in their order, each with the value that looking it up gives. -/
theorem entries_eq (m : OrderedMap κ α) : m.entries = m.keys.filterMap fun key => (m.find? key).map (key, ·) := by
  have hentry : ∀ entry ∈ m.entries, (m.find? entry.1).map (entry.1, ·) = some entry := by
    intro entry hentry
    rw [(mem_entries_iff m).1 hentry, Option.map_some]
  rw [keys, List.filterMap_map]
  exact List.filterMap_some.symm.trans (List.filterMap_congr fun entry h => (hentry entry h).symm)

omit [DecidableEq κ] in
/-- Maps with the same entries are the same. -/
theorem ext_entries {m n : OrderedMap κ α} (h : m.entries = n.entries) : m = n := by
  cases m
  cases n
  cases h
  rfl

/-- Maps with the same keys in the same order and the same values for them are the same. -/
theorem ext_keys {m n : OrderedMap κ α} (hkeys : m.keys = n.keys) (hfind : ∀ key, m.find? key = n.find? key) : m = n := by
  refine ext_entries ?_
  rw [m.entries_eq, n.entries_eq, hkeys]
  exact List.filterMap_congr fun key _ => by rw [hfind]

end ElmLint.OrderedMap
