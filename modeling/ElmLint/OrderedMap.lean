/-!
# Maps that remember the order of their keys

A map lists its keys in the order in which they first came in. Writing to a key that is already there replaces its value
and keeps its place; erasing it gives the place up.
-/

namespace ElmLint

namespace OrderedMap

variable {κ α : Type} [DecidableEq κ]

/-- Replace the value of a key in a list of entries, or add the entry at the end. -/
def putEntry (key : κ) (value : α) : List (κ × α) → List (κ × α)
  | [] => [(key, value)]
  | (k, v) :: rest => if k = key then (k, value) :: rest else (k, v) :: putEntry key value rest

/-- Writing keeps the keys in their places, and adds a new key at the end. -/
theorem keys_putEntry (key : κ) (value : α) : ∀ entries : List (κ × α),
    (putEntry key value entries).map Prod.fst =
      if key ∈ entries.map Prod.fst then entries.map Prod.fst else entries.map Prod.fst ++ [key]
  | [] => by simp [putEntry]
  | (k, v) :: rest => by
    by_cases h : k = key
    · simp [putEntry, h]
    · have h' : ¬ key = k := fun e => h e.symm
      simp only [putEntry, if_neg h, List.map_cons, keys_putEntry key value rest, List.mem_cons, h', false_or]
      split <;> simp

theorem nodup_putEntry (key : κ) (value : α) {entries : List (κ × α)} (h : (entries.map Prod.fst).Nodup) :
    ((putEntry key value entries).map Prod.fst).Nodup := by
  rw [keys_putEntry]
  split
  · exact h
  · next hmem => exact List.nodup_append.2 ⟨h, by simp, by
      intro a ha b hb
      rw [List.mem_singleton.1 hb]
      exact fun e => hmem (e ▸ ha)⟩

end OrderedMap

/-- A finite map with its entries in the order of their keys' first appearance; no key appears twice. -/
structure OrderedMap (κ α : Type) where
  entries : List (κ × α)
  nodup : (entries.map Prod.fst).Nodup

namespace OrderedMap

variable {κ α : Type}

/-- The map without entries. -/
def empty : OrderedMap κ α := ⟨[], by simp⟩

instance : Inhabited (OrderedMap κ α) := ⟨empty⟩

/-- The keys in order. -/
def keys (m : OrderedMap κ α) : List κ := m.entries.map Prod.fst

/-- The values in the order of their keys. -/
def values (m : OrderedMap κ α) : List α := m.entries.map Prod.snd

/-- The number of entries. -/
def size (m : OrderedMap κ α) : Nat := m.entries.length

/-- Whether there are no entries. -/
def isEmpty (m : OrderedMap κ α) : Bool := m.entries.isEmpty

variable [DecidableEq κ]

/-- The value of a key. -/
def find? (m : OrderedMap κ α) (key : κ) : Option α := (m.entries.find? (·.1 = key)).map Prod.snd

/-- Whether a key has a value. -/
def contains (m : OrderedMap κ α) (key : κ) : Bool := m.keys.contains key

/-- Write a value to a key. -/
def insert (m : OrderedMap κ α) (key : κ) (value : α) : OrderedMap κ α :=
  ⟨putEntry key value m.entries, nodup_putEntry key value m.nodup⟩

/-- Write several entries, one after another. -/
def insertAll (m : OrderedMap κ α) (entries : List (κ × α)) : OrderedMap κ α :=
  entries.foldl (fun m (key, value) => m.insert key value) m

/-- The map that results from writing entries one after another. -/
def ofList (entries : List (κ × α)) : OrderedMap κ α := insertAll empty entries

/-- Remove a key and its value. -/
def erase (m : OrderedMap κ α) (key : κ) : OrderedMap κ α :=
  ⟨m.entries.filter (·.1 ≠ key), m.nodup.sublist ((List.filter_sublist).map Prod.fst)⟩

end OrderedMap

end ElmLint
