import ElmLint.Json.Reader
import ElmLint.Proofs.OrderedMap

/-!
# What JSON values hold

A value is taken for a text, for a list of texts or for the members of an object exactly when it is written as such
(`text?_eq_some_iff`, `texts?_eq_some_iff`, `members?_eq_some_iff`). No object in a value that was read has two members of
one name (`distinct_of_read`).
-/

namespace ElmLint

/-- Reading the items of a list is the inverse of writing them, when it is so for each item. -/
theorem mapM_eq_some_iff {α β : Type} {read : α → Option β} {write : β → α} (h : ∀ a b, read a = some b ↔ a = write b) :
    ∀ (as : List α) (bs : List β), as.mapM read = some bs ↔ as = bs.map write
  | [], bs => by cases bs <;> simp
  | a :: as, [] => by simp [List.mapM_cons, Option.bind_eq_some_iff]
  | a :: as, b :: bs => by
    have ih := mapM_eq_some_iff h as bs
    simp [List.mapM_cons, Option.bind_eq_some_iff, h, ih]

theorem bind_eq_ok_iff {ε α β : Type} {x : Except ε α} {f : α → Except ε β} {b : β} :
    (x >>= f) = .ok b ↔ ∃ a, x = .ok a ∧ f a = .ok b := by
  cases x <;> simp [bind, Except.bind]

theorem map_eq_ok_iff {ε α β : Type} {x : Except ε α} {f : α → β} {b : β} : x.map f = .ok b ↔ ∃ a, x = .ok a ∧ f a = b := by
  cases x <;> simp [Except.map]

namespace JsonValue

/-! ## Texts and members -/

theorem text?_eq_some_iff {value : JsonValue} {t : Text} : value.text? = some t ↔ value = .string t := by
  cases value <;> simp [text?]

theorem texts?_eq_some_iff {value : JsonValue} {items : List Text} : value.texts? = some items ↔ value = .texts items := by
  cases value with
  | array values => simp [texts?, texts, mapM_eq_some_iff fun _ _ => text?_eq_some_iff]
  | _ => simp [texts?, texts]

theorem members?_eq_some_iff {value : JsonValue} {members : List (Text × JsonValue)} :
    value.members? = some members ↔ value = .object members := by
  cases value <;> simp [members?]

/-! ## Objects without repeated names -/

/-- No object in the value has two members of one name. -/
inductive Distinct : JsonValue → Prop
  | null : Distinct .null
  | bool (value : Bool) : Distinct (.bool value)
  | number (text : String) : Distinct (.number text)
  | string (value : Text) : Distinct (.string value)
  | array {items : List JsonValue} : (∀ item ∈ items, Distinct item) → Distinct (.array items)
  | object {members : List (Text × JsonValue)} : (members.map Prod.fst).Nodup → (∀ member ∈ members, Distinct member.2) →
      Distinct (.object members)

/-- The members of an object are set as the entries of a map are. -/
theorem setMember_eq_putEntry (name : Text) (value : JsonValue) : ∀ members : List (Text × JsonValue),
    setMember name value members = OrderedMap.putEntry name value members
  | [] => rfl
  | (n, v) :: rest => by rw [setMember, OrderedMap.putEntry, setMember_eq_putEntry name value rest]

/-- Reading members one after another sets the entries of a map. -/
theorem membersOf_eq_entries (members : List (Text × JsonValue)) : membersOf members = (OrderedMap.ofList members).entries := by
  have hset : ∀ (new : List (Text × JsonValue)) (m : OrderedMap Text JsonValue),
      new.foldl (fun ms member => setMember member.1 member.2 ms) m.entries = (m.insertAll new).entries := by
    intro new
    induction new with
    | nil => exact fun _ => rfl
    | cons member new ih =>
      intro m
      obtain ⟨name, value⟩ := member
      have hfirst : setMember name value m.entries = (m.insert name value).entries := setMember_eq_putEntry name value m.entries
      simp only [List.foldl_cons, hfirst]
      exact ih (m.insert name value)
  exact hset members .empty

/-- Members with different names are all kept. -/
theorem membersOf_of_nodup {members : List (Text × JsonValue)} (h : (members.map Prod.fst).Nodup) : membersOf members = members := by
  rw [membersOf_eq_entries, OrderedMap.entries_ofList h]

/-- What holds of the entries of a map, and of a value that is written, holds afterwards. -/
theorem forall_mem_setMember {P : JsonValue → Prop} {name : Text} {value : JsonValue} (hvalue : P value) :
    ∀ {members : List (Text × JsonValue)}, (∀ member ∈ members, P member.2) → ∀ member ∈ setMember name value members, P member.2
  | [], _ => List.forall_mem_singleton.2 hvalue
  | (n, v) :: rest, h => by
    rw [List.forall_mem_cons] at h
    rw [setMember]
    split
    · exact List.forall_mem_cons.2 ⟨hvalue, h.2⟩
    · exact List.forall_mem_cons.2 ⟨h.1, forall_mem_setMember hvalue h.2⟩

theorem distinct_setMember {members : List (Text × JsonValue)} (h : (object members).Distinct) (name : Text) {value : JsonValue}
    (hvalue : value.Distinct) : (object (setMember name value members)).Distinct := by
  cases h with
  | object hnodup hall =>
    refine .object ?_ (forall_mem_setMember hvalue hall)
    rw [setMember_eq_putEntry]
    exact OrderedMap.nodup_putEntry _ _ hnodup

theorem distinct_foldl_setMember : ∀ (new : List (Text × JsonValue)) {members : List (Text × JsonValue)}, (object members).Distinct →
    (∀ member ∈ new, member.2.Distinct) → (object (new.foldl (fun ms (name, value) => setMember name value ms) members)).Distinct
  | [], _, h, _ => h
  | (name, _) :: new, _, h, hnew =>
    distinct_foldl_setMember new (distinct_setMember h name (hnew _ List.mem_cons_self)) fun member hmember =>
      hnew member (List.mem_cons_of_mem _ hmember)

/-- Members that are read one after another make up an object without repeated names. -/
theorem distinct_membersOf {members : List (Text × JsonValue)} (h : ∀ member ∈ members, member.2.Distinct) :
    (object (membersOf members)).Distinct :=
  distinct_foldl_setMember members (.object List.nodup_nil (List.forall_mem_nil _)) h

theorem distinct_of_readScalar {c next : Cursor} {value : JsonValue} (h : readScalar c = .ok (value, next)) : value.Distinct := by
  have hconstants : ∀ entry ∈ constants, entry.2.Distinct := by
    simp only [constants, List.forall_mem_cons]
    exact ⟨.null, .bool _, .bool _, .number _, .number _, .number _, List.forall_mem_nil _⟩
  unfold readScalar at h
  split at h
  · next word v hfound =>
    cases h
    exact hconstants _ (List.mem_of_find?_eq_some hfound)
  · split at h
    · cases h
      exact .number _
    · cases h

mutual

theorem distinct_of_readValue : ∀ {fuel : Nat} {c next : Cursor} {value : JsonValue}, readValue fuel c = .ok (value, next) →
    value.Distinct
  | 0, _, _, _, h => by cases h
  | fuel + 1, c, next, value, h => by
    rw [readValue] at h
    split at h
    · obtain ⟨_, -, heq⟩ := map_eq_ok_iff.1 h
      cases heq
      exact .string _
    · dsimp only at h
      split at h
      · cases h
        exact .object List.nodup_nil (List.forall_mem_nil _)
      · obtain ⟨_, hmembers, heq⟩ := map_eq_ok_iff.1 h
        cases heq
        exact distinct_membersOf (distinct_of_readMembers hmembers)
    · dsimp only at h
      split at h
      · cases h
        exact .array (List.forall_mem_nil _)
      · obtain ⟨_, hitems, heq⟩ := map_eq_ok_iff.1 h
        cases heq
        exact .array (distinct_of_readItems hitems)
    · exact distinct_of_readScalar h

theorem distinct_of_readItems : ∀ {fuel : Nat} {c next : Cursor} {items : List JsonValue}, readItems fuel c = .ok (items, next) →
    ∀ item ∈ items, item.Distinct
  | 0, _, _, _, h => by cases h
  | fuel + 1, c, next, items, h => by
    rw [readItems] at h
    split at h
    · cases h
    · next item after hitem =>
      have hfirst := distinct_of_readValue hitem
      dsimp only at h
      split at h
      · cases h
        exact List.forall_mem_singleton.2 hfirst
      · obtain ⟨_, hitems, heq⟩ := map_eq_ok_iff.1 h
        cases heq
        exact List.forall_mem_cons.2 ⟨hfirst, distinct_of_readItems hitems⟩
      · cases h

theorem distinct_of_readMembers : ∀ {fuel : Nat} {c next : Cursor} {members : List (Text × JsonValue)},
    readMembers fuel c = .ok (members, next) → ∀ member ∈ members, member.2.Distinct
  | 0, _, _, _, h => by cases h
  | fuel + 1, c, next, members, h => by
    rw [readMembers] at h
    split at h
    · split at h
      · cases h
      · dsimp only at h
        split at h
        · split at h
          · cases h
          · next value after hvalue =>
            have hfirst := distinct_of_readValue hvalue
            split at h
            · cases h
              exact List.forall_mem_singleton.2 hfirst
            · obtain ⟨_, hmembers, heq⟩ := map_eq_ok_iff.1 h
              cases heq
              exact List.forall_mem_cons.2 ⟨hfirst, distinct_of_readMembers hmembers⟩
            · cases h
        · cases h
    · cases h

end

/-- No object in a value that was read has two members of one name. -/
theorem distinct_of_read {text : List Char} {value : JsonValue} (h : read text = .ok value) : value.Distinct := by
  unfold read at h
  split at h
  · cases h
  · split at h
    · cases h
    · next v next hvalue =>
      dsimp only at h
      split at h
      · cases h
        exact distinct_of_readValue hvalue
      · cases h

end JsonValue

end ElmLint
