import ElmLint.Checker
import ElmLint.Proofs.OrderedMap
import Mathlib.Data.List.DropRight
import Mathlib.Data.List.Induction
import Mathlib.Data.String.Basic

/-!
# Registries and their histories

What a registry lists is told by the calls that were made on it. The last call that registers or unregisters a name says whether the
name is listed and with which checker (`entryCall?`), the last one that disables or enables it says whether it may run
(`lastSwitch?`), and the first one that registered it since it was last unregistered says where it stands (`entryPlace`). Each call
keeps this (`Registry.Reflects.run`), so it holds after all of them (`Registry.reflects_after`).

* `Registry.history_determines`: which checkers are listed and in which order, which of them are enabled, and their sorted names,
  after any calls on a new registry.
-/

namespace ElmLint

/-! ## The order of names -/

theorem charLess_eq (c d : Char) : charLess c d = decide (c < d) := by
  rw [charLess, decide_eq_decide, Char.lt_def, UInt32.lt_iff_toNat_lt]
  rfl

/-- Lists of characters come in the order of a dictionary. -/
theorem dictionaryBefore_charLess : ∀ as bs : List Char, dictionaryBefore charLess as bs = decide (¬ bs < as)
  | [], bs => by simp [dictionaryBefore]
  | a :: as, [] => by simp [dictionaryBefore]
  | a :: as, b :: bs => by
    rw [dictionaryBefore, dictionaryBefore_charLess as bs, charLess_eq, charLess_eq, Bool.eq_iff_iff]
    simp only [Bool.or_eq_true, Bool.and_eq_true, Bool.not_eq_true', decide_eq_true_eq, decide_eq_false_iff_not, List.cons_lt_cons_iff]
    rcases lt_trichotomy a b with hlt | rfl | hgt
    · simp [hlt, hlt.not_gt, hlt.ne']
    · simp
    · simp [hgt, hgt.not_gt]

theorem textBefore_eq (a b : String) : textBefore a b = decide (a ≤ b) := by
  rw [textBefore, dictionaryBefore_charLess, decide_eq_decide, not_lt, String.le_iff_toList_le]

/-- Different names are sorted in ascending order. -/
theorem pairwise_mergeSort_textBefore {names : List String} (h : names.Nodup) : (names.mergeSort textBefore).Pairwise (· < ·) := by
  have hle : (names.mergeSort textBefore).Pairwise fun a b => textBefore a b = true :=
    List.pairwise_mergeSort (fun a b c => by simpa [textBefore_eq] using le_trans)
      (fun a b => by simpa [textBefore_eq] using le_total a b) names
  have hne : (names.mergeSort textBefore).Nodup := (List.mergeSort_perm names textBefore).nodup_iff.2 h
  exact (hle.and hne).imp fun ⟨hab, hne⟩ => lt_of_le_of_ne (by simpa [textBefore_eq] using hab) hne

namespace Registry

/-! ## Calls -/

/-- A call on a registry. -/
inductive Call
  | register (c : Checker)
  | unregister (name : String)
  | disable (name : String)
  | enable (name : String)

namespace Call

/-- The registry that a call leaves. -/
def run (r : Registry) : Call → Registry
  | register c => r.register c
  | unregister name => r.unregister name
  | disable name => r.disable name
  | enable name => r.enable name

/-- Whether a call registers a checker under a name. -/
def registers (name : String) : Call → Bool
  | register c => c.name = name
  | _ => false

/-- Whether a call unregisters a name. -/
def unregisters (name : String) : Call → Bool
  | unregister other => other = name
  | _ => false

/-- Whether a call disables a name. -/
def disables (name : String) : Call → Bool
  | disable other => other = name
  | _ => false

/-- Whether a call enables a name. -/
def enables (name : String) : Call → Bool
  | enable other => other = name
  | _ => false

end Call

/-- The registry after calls on a new one. -/
def after (calls : List Call) : Registry := calls.foldl Call.run {}

theorem after_snoc (calls : List Call) (call : Call) : after (calls ++ [call]) = call.run (after calls) := by
  rw [after, List.foldl_append]
  rfl

/-! ## What the calls say about a name -/

/-- The last call that registers or unregisters a name. -/
def entryCall? (name : String) (calls : List Call) : Option Call :=
  calls.reverse.find? fun call => call.registers name || call.unregisters name

/-- The last call that disables or enables a name. -/
def lastSwitch? (name : String) (calls : List Call) : Option Call :=
  calls.reverse.find? fun call => call.disables name || call.enables name

/-- Whether the last call that disables or enables a name, if there is one, enables it. -/
def mayRun (name : String) (calls : List Call) : Bool := (lastSwitch? name calls).all (·.enables name)

/-- The calls since a name was last unregistered. -/
def sinceUnregistered (name : String) (calls : List Call) : List Call := calls.rtakeWhile (!·.unregisters name)

/-- The place among the calls of the first that registered a name since it was last unregistered. -/
def entryPlace (name : String) (calls : List Call) : Nat :=
  (calls.rdropWhile (!·.unregisters name)).length + (sinceUnregistered name calls).findIdx (·.registers name)

variable {name : String} {calls : List Call} {call : Call}

theorem entryCall?_snoc (name : String) (calls : List Call) (call : Call) :
    entryCall? name (calls ++ [call]) = if call.registers name || call.unregisters name then some call else entryCall? name calls := by
  rw [entryCall?, List.reverse_append, List.reverse_singleton, List.singleton_append, List.find?_cons]
  cases call.registers name || call.unregisters name <;> rfl

theorem lastSwitch?_snoc (name : String) (calls : List Call) (call : Call) :
    lastSwitch? name (calls ++ [call]) = if call.disables name || call.enables name then some call else lastSwitch? name calls := by
  rw [lastSwitch?, List.reverse_append, List.reverse_singleton, List.singleton_append, List.find?_cons]
  cases call.disables name || call.enables name <;> rfl

theorem name_of_entryCall? {c : Checker} (h : entryCall? name calls = some (.register c)) : c.name = name := by
  simpa [Call.registers, Call.unregisters] using List.find?_some h

theorem sinceUnregistered_snoc_of_unregisters (h : call.unregisters name = true) : sinceUnregistered name (calls ++ [call]) = [] :=
  List.rtakeWhile_concat_neg _ _ _ (by simpa using h)

theorem sinceUnregistered_snoc_of_not (h : call.unregisters name = false) :
    sinceUnregistered name (calls ++ [call]) = sinceUnregistered name calls ++ [call] :=
  List.rtakeWhile_concat_pos _ _ _ (by simpa using h)

/-- A name was registered since it was last unregistered if the last call to do either registers it. -/
theorem registers_sinceUnregistered_iff (name : String) (calls : List Call) :
    (∃ call ∈ sinceUnregistered name calls, call.registers name) ↔ ∃ c, entryCall? name calls = some (.register c) := by
  induction calls using List.reverseRecOn with
  | nil => simp [sinceUnregistered, entryCall?]
  | append_singleton calls call ih =>
    rw [entryCall?_snoc]
    cases hcall : call.unregisters name with
    | true =>
      rw [sinceUnregistered_snoc_of_unregisters hcall]
      cases call <;> simp [Call.unregisters] at hcall ⊢
    | false =>
      rw [sinceUnregistered_snoc_of_not hcall]
      simp only [List.mem_append, List.mem_singleton, or_and_right, exists_or, exists_eq_left, ih]
      cases call with
      | register c => by_cases hc : c.name = name <;> simp [Call.registers, hc]
      | unregister _ | disable _ | enable _ => simp_all [Call.registers]

/-! ## Places -/

theorem length_rdropWhile_add (name : String) (calls : List Call) :
    (calls.rdropWhile (!·.unregisters name)).length + (sinceUnregistered name calls).length = calls.length := by
  rw [sinceUnregistered, ← List.length_append, List.rdropWhile_append_rtakeWhile]

/-- A name that is registered has its place among the calls. -/
theorem entryPlace_lt (h : ∃ call ∈ sinceUnregistered name calls, call.registers name) : entryPlace name calls < calls.length := by
  have hlt : (sinceUnregistered name calls).findIdx (·.registers name) < _ := List.findIdx_lt_length.2 h
  have hlength := length_rdropWhile_add name calls
  rw [entryPlace]
  omega

/-- A name that is registered keeps its place as long as it is not unregistered. -/
theorem entryPlace_snoc (h : ∃ call ∈ sinceUnregistered name calls, call.registers name) (hcall : call.unregisters name = false) :
    entryPlace name (calls ++ [call]) = entryPlace name calls := by
  have hlt := List.findIdx_lt_length.2 h
  rw [entryPlace, entryPlace, List.rdropWhile_concat_pos _ _ _ (by simpa using hcall), sinceUnregistered_snoc_of_not hcall,
    List.findIdx_append, if_pos hlt]

/-- A name that is not registered gets the place of the call that registers it. -/
theorem entryPlace_snoc_register {c : Checker} (h : ¬ ∃ call ∈ sinceUnregistered c.name calls, call.registers c.name) :
    entryPlace c.name (calls ++ [.register c]) = calls.length := by
  have hcall : (Call.register c).unregisters c.name = false := rfl
  have hnone := mt List.findIdx_lt_length.1 h
  have hlength := length_rdropWhile_add c.name calls
  rw [entryPlace, List.rdropWhile_concat_pos _ _ _ (by simpa using hcall), sinceUnregistered_snoc_of_not hcall,
    List.findIdx_append, if_neg hnone, List.findIdx_singleton]
  simp only [Call.registers, decide_true, if_true, Nat.zero_add]
  exact hlength

/-! ## What each call keeps -/

/-- A registry is as the calls say: a name has the checker of its last entry, the names stand in the order of their places, and the
disabled ones are those that were last disabled. -/
structure Reflects (calls : List Call) (r : Registry) : Prop where
  entry : ∀ name c, r.checkers.find? name = some c ↔ entryCall? name calls = some (.register c)
  ordered : r.checkers.keys.Pairwise fun a b => entryPlace a calls < entryPlace b calls
  disabled : ∀ name, name ∈ r.disabled ↔ mayRun name calls = false

variable {r : Registry}

namespace Reflects

theorem mem_keys_iff (h : Reflects calls r) (name : String) :
    name ∈ r.checkers.keys ↔ ∃ call ∈ sinceUnregistered name calls, call.registers name := by
  rw [registers_sinceUnregistered_iff, ← not_iff_not, ← OrderedMap.find?_eq_none_iff, Option.eq_none_iff_forall_ne_some]
  simp [h.entry]

/-- The names that stay keep their order under a call that does not unregister them. -/
theorem ordered_snoc {names : List String} (h : Reflects calls r) (hnames : names.Sublist r.checkers.keys)
    (hcall : ∀ name ∈ names, call.unregisters name = false) :
    names.Pairwise fun a b => entryPlace a (calls ++ [call]) < entryPlace b (calls ++ [call]) := by
  refine (h.ordered.sublist hnames).imp_of_mem fun {a b} ha hb hlt => ?_
  rw [entryPlace_snoc ((h.mem_keys_iff a).1 (hnames.subset ha)) (hcall a ha),
    entryPlace_snoc ((h.mem_keys_iff b).1 (hnames.subset hb)) (hcall b hb)]
  exact hlt

theorem register (h : Reflects calls r) (c : Checker) : Reflects (calls ++ [.register c]) (r.register c) where
  entry name d := by
    rw [Registry.register, OrderedMap.find?_insert, entryCall?_snoc]
    by_cases hname : name = c.name
    · simp [hname, Call.registers]
    · have hne : ¬ c.name = name := fun heq => hname heq.symm
      simpa [hname, hne, Call.registers, Call.unregisters] using h.entry name d
  ordered := by
    have hold : r.checkers.keys.Pairwise fun a b => entryPlace a (calls ++ [.register c]) < entryPlace b (calls ++ [.register c]) :=
      h.ordered_snoc (List.Sublist.refl _) fun _ _ => rfl
    rw [Registry.register, OrderedMap.keys_insert]
    simp only [OrderedMap.contains_iff]
    split
    · exact hold
    · next hnew =>
      refine List.pairwise_append.2 ⟨hold, List.pairwise_singleton _ _, fun a ha b hb => ?_⟩
      have hplace := (h.mem_keys_iff a).1 ha
      rw [List.mem_singleton.1 hb, entryPlace_snoc hplace rfl, entryPlace_snoc_register (mt (h.mem_keys_iff _).2 hnew)]
      exact entryPlace_lt hplace
  disabled name := by
    rw [mayRun, lastSwitch?_snoc]
    exact h.disabled name

theorem unregister (h : Reflects calls r) (name : String) : Reflects (calls ++ [.unregister name]) (r.unregister name) where
  entry other d := by
    rw [Registry.unregister, OrderedMap.find?_erase, entryCall?_snoc]
    by_cases hother : other = name
    · simp [hother, Call.unregisters]
    · have hne : ¬ name = other := fun heq => hother heq.symm
      simpa [hother, hne, Call.registers, Call.unregisters] using h.entry other d
  ordered := by
    rw [Registry.unregister, OrderedMap.keys_erase]
    refine h.ordered_snoc List.filter_sublist fun other hother => ?_
    have hne : other ≠ name := by simpa using (List.mem_filter.1 hother).2
    exact decide_eq_false fun heq => hne heq.symm
  disabled other := by
    rw [mayRun, lastSwitch?_snoc]
    exact h.disabled other

theorem disable (h : Reflects calls r) (name : String) : Reflects (calls ++ [.disable name]) (r.disable name) where
  entry other d := by
    rw [entryCall?_snoc]
    exact h.entry other d
  ordered := h.ordered_snoc (List.Sublist.refl _) fun _ _ => rfl
  disabled other := by
    rw [mayRun, lastSwitch?_snoc, Registry.disable, List.mem_cons, h.disabled, mayRun]
    by_cases hother : name = other
    · simp [hother, Call.disables, Call.enables]
    · have hne : ¬ other = name := fun heq => hother heq.symm
      simp [hother, hne, Call.disables, Call.enables]

theorem enable (h : Reflects calls r) (name : String) : Reflects (calls ++ [.enable name]) (r.enable name) where
  entry other d := by
    rw [entryCall?_snoc]
    exact h.entry other d
  ordered := h.ordered_snoc (List.Sublist.refl _) fun _ _ => rfl
  disabled other := by
    rw [mayRun, lastSwitch?_snoc, Registry.enable, List.mem_filter, h.disabled, mayRun]
    by_cases hother : name = other
    · simp [hother, Call.disables, Call.enables]
    · have hne : ¬ other = name := fun heq => hother heq.symm
      simp [hother, hne, Call.disables, Call.enables]

/-- Each call keeps a registry as the calls say. -/
theorem run (h : Reflects calls r) : ∀ call : Call, Reflects (calls ++ [call]) (call.run r)
  | .register c => h.register c
  | .unregister name => h.unregister name
  | .disable name => h.disable name
  | .enable name => h.enable name

end Reflects

/-- A new registry is as its calls say after any of them. -/
theorem reflects_after (calls : List Call) : Reflects calls (after calls) := by
  induction calls using List.reverseRecOn with
  | nil => exact ⟨fun _ _ => by simp [after, entryCall?, OrderedMap.find?, OrderedMap.empty], List.Pairwise.nil,
      fun _ => by simp [after, mayRun, lastSwitch?]⟩
  | append_singleton calls call ih =>
    rw [after_snoc]
    exact ih.run call

/-! ## What a registry lists -/

/-- Every checker stands under its own name. -/
theorem keys_after (calls : List Call) : (after calls).checkers.keys = (after calls).all.map Checker.name := by
  rw [OrderedMap.keys, all, OrderedMap.values, List.map_map]
  refine List.map_congr_left fun entry hmem => ?_
  obtain ⟨name, c⟩ := entry
  have hentry := ((reflects_after calls).entry name c).1 (((after calls).checkers.mem_entries_iff).1 hmem)
  exact (name_of_entryCall? hentry).symm

theorem mem_all_iff (calls : List Call) (c : Checker) : c ∈ (after calls).all ↔ entryCall? c.name calls = some (.register c) := by
  rw [← (reflects_after calls).entry, ← OrderedMap.mem_entries_iff, all, OrderedMap.values, List.mem_map]
  constructor
  · rintro ⟨⟨name, d⟩, hmem, rfl⟩
    have hentry := ((reflects_after calls).entry name d).1 (((after calls).checkers.mem_entries_iff).1 hmem)
    rwa [name_of_entryCall? hentry]
  · exact fun hmem => ⟨_, hmem, rfl⟩

theorem enabled_after (calls : List Call) : (after calls).enabled = (after calls).all.filter fun c => mayRun c.name calls := by
  rw [enabled, all, OrderedMap.values, List.filter_map]
  congr 1
  refine List.filter_congr fun entry hmem => ?_
  obtain ⟨name, c⟩ := entry
  have hentry := ((reflects_after calls).entry name c).1 (((after calls).checkers.mem_entries_iff).1 hmem)
  have hdisabled := (reflects_after calls).disabled name
  rw [Function.comp_apply, name_of_entryCall? hentry]
  cases hrun : mayRun name calls <;> simp [hdisabled, hrun]

/-- Taking a name out and registering it again changes nothing about whether it may run. -/
theorem mayRun_unregister_register (calls : List Call) (c : Checker) (name : String) :
    mayRun name (calls ++ [.unregister c.name, .register c]) = mayRun name calls := by
  rw [List.append_cons, mayRun, lastSwitch?_snoc, lastSwitch?_snoc]
  rfl

/-- A registry is told by the calls made on it since it was new. A name is listed exactly when the last call that registers or
unregisters it registers it, and then with the checker of that call; the names stand in the order of the first calls that registered
them since they were last unregistered; those that are enabled are the ones whose last call to disable or enable them, if there is one,
enables them, in the same order, so a name that was disabled stays so when it is unregistered and registered again; and the names are
those of the checkers that are listed, in ascending order. -/
theorem history_determines (calls : List Call) :
    (∀ name, name ∈ (after calls).all.map Checker.name ↔ ∃ c, entryCall? name calls = some (.register c)) ∧
    (∀ c, c ∈ (after calls).all ↔ entryCall? c.name calls = some (.register c)) ∧
    (after calls).all.Pairwise (fun c d => entryPlace c.name calls < entryPlace d.name calls) ∧
    (after calls).enabled = (after calls).all.filter (fun c => mayRun c.name calls) ∧
    (∀ c, c ∈ (after (calls ++ [.unregister c.name, .register c])).enabled ↔ mayRun c.name calls) ∧
    (after calls).names.Pairwise (· < ·) ∧
    ∀ name, name ∈ (after calls).names ↔ name ∈ (after calls).all.map Checker.name := by
  have hordered := (reflects_after calls).ordered
  rw [keys_after, List.pairwise_map] at hordered
  refine ⟨fun name => ?_, mem_all_iff calls, hordered, enabled_after calls, fun c => ?_, ?_, fun name => ?_⟩
  · rw [← keys_after, (reflects_after calls).mem_keys_iff, registers_sinceUnregistered_iff]
  · have hlisted : c ∈ (after (calls ++ [.unregister c.name, .register c])).all := by
      rw [mem_all_iff, List.append_cons, entryCall?_snoc]
      simp [Call.registers]
    rw [enabled_after, List.mem_filter, mayRun_unregister_register]
    exact and_iff_right hlisted
  · exact pairwise_mergeSort_textBefore (after calls).checkers.nodup
  · rw [names, (List.mergeSort_perm _ _).mem_iff, keys_after]

end Registry

end ElmLint
