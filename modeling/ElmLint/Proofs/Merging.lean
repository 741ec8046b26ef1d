import ElmLint.Proofs.Loading
import ElmLint.Proofs.ManifestJson
import Mathlib.Data.List.Forall2

/-!
# Manifests laid over each other

Of two manifests taken together the second decides about the names that it knows, while the names keep the places that the first gives
them (`Manifest.find?_merge_keyed`, `Manifest.keys_merge`). A map is told by its keys in order and by what it has for them
(`OrderedMap.ext_keys`), so the laws of taking manifests together come down to laws of lookups and of lists of names.

* `Manifest.merge_overrides`: what taking together gives, that it is associative and idempotent with the empty manifest as its unit,
  and which interface each name has when the files that settings name have been laid over the core library.
-/

namespace ElmLint

namespace Manifest

/-! ## Two manifests -/

/-- A manifest in which every interface stands under its own name is one that was made by adding interfaces, and no other is. -/
theorem keyed_iff_exists_interfaces {m : Manifest} : m.Keyed ↔ ∃ is, m = ofInterfaces is := by
  constructor
  · exact fun h => ⟨m.values, h.ofInterfaces_values.symm⟩
  · rintro ⟨is, rfl⟩
    exact keyed_ofInterfaces is

theorem keyed_core : core.Keyed := keyed_ofInterfaces _

theorem keyed_merge (m n : Manifest) : (m.merge n).Keyed := keyed_ofInterfaces _

theorem keys_add (m : Manifest) (i : Interface) : (m.add i).keys = if m.contains i.name then m.keys else m.keys ++ [i.name] :=
  m.keys_insert i.name i

/-- Interfaces with different names keep the names that are there in their places, and bring the others in their own order. -/
theorem keys_foldl_add : ∀ (is : List Interface) (m : Manifest), (is.map Interface.name).Nodup →
    (is.foldl add m).keys = m.keys ++ (is.map Interface.name).filter fun name => !m.contains name
  | [], m, _ => by simp
  | i :: is, m, h => by
    rw [List.map_cons, List.nodup_cons] at h
    rw [List.foldl_cons, keys_foldl_add is (m.add i) h.2, List.map_cons, List.filter_cons, keys_add]
    -- No later interface has the name of this one, so the names that count as known are the same for them.
    have hlater : ((is.map Interface.name).filter fun name => !(m.add i).contains name) =
        (is.map Interface.name).filter fun name => !m.contains name := by
      refine List.filter_congr fun name hname => ?_
      have hne : name ≠ i.name := fun heq => h.1 (heq ▸ hname)
      have hsame : name ∈ (m.add i).keys ↔ name ∈ m.keys := by
        rw [keys_add]
        split <;> simp [hne]
      rw [Bool.not_inj_iff, Bool.eq_iff_iff, OrderedMap.contains_iff, OrderedMap.contains_iff, hsame]
    rw [hlater]
    by_cases hname : i.name ∈ m.keys
    · simp [hname, OrderedMap.contains]
    · simp [hname, OrderedMap.contains]

variable {a b c : Manifest}

/-- What the second of two manifests knows comes after the first, interface by interface. -/
theorem merge_eq_foldl (ha : a.Keyed) (b : Manifest) : a.merge b = b.values.foldl add a := by
  have hfirst : a.values.foldl add .empty = a := ha.ofInterfaces_values
  rw [merge, ofInterfaces, List.foldl_append, hfirst]

theorem find?_merge_keyed (ha : a.Keyed) (hb : b.Keyed) (name : ModulePath) :
    (a.merge b).find? name = (b.find? name).or (a.find? name) := by
  rw [find?_merge a hb, ha.ofInterfaces_values]

theorem keys_merge (ha : a.Keyed) (hb : b.Keyed) : (a.merge b).keys = a.keys ++ b.keys.filter fun name => !a.contains name := by
  rw [merge_eq_foldl ha, keys_foldl_add b.values a hb.nodup_names, hb.names_values]

theorem contains_merge (ha : a.Keyed) (hb : b.Keyed) (name : ModulePath) :
    (a.merge b).contains name = (a.contains name || b.contains name) := by
  rw [Bool.eq_iff_iff, Bool.or_eq_true, OrderedMap.contains_iff, OrderedMap.contains_iff, OrderedMap.contains_iff, keys_merge ha hb]
  by_cases h : name ∈ a.keys <;> simp [h, OrderedMap.contains]

theorem merge_assoc (ha : a.Keyed) (hb : b.Keyed) (hc : c.Keyed) : (a.merge b).merge c = a.merge (b.merge c) := by
  have hab := keyed_merge a b
  have hbc := keyed_merge b c
  refine OrderedMap.ext_keys ?_ fun name => ?_
  · -- A name of the third that neither of the others has is new to both of them, in whichever order they are asked.
    have hnew : (c.keys.filter fun name => !(a.merge b).contains name) =
        (c.keys.filter fun name => !b.contains name).filter fun name => !a.contains name := by
      rw [List.filter_filter]
      exact List.filter_congr fun name _ => by rw [contains_merge ha hb, Bool.not_or]
    rw [keys_merge hab hc, keys_merge ha hb, keys_merge ha hbc, keys_merge hb hc, List.filter_append, List.append_assoc, hnew]
  · rw [find?_merge_keyed hab hc, find?_merge_keyed ha hb, find?_merge_keyed ha hbc, find?_merge_keyed hb hc, Option.or_assoc]

theorem merge_self (ha : a.Keyed) : a.merge a = a := by
  refine OrderedMap.ext_keys ?_ fun name => ?_
  · have hnone : (a.keys.filter fun name => !a.contains name) = [] :=
      List.filter_eq_nil_iff.2 fun name hname => by simp [(OrderedMap.contains_iff a).2 hname]
    rw [keys_merge ha ha, hnone, List.append_nil]
  · rw [find?_merge_keyed ha ha, Option.or_self]

theorem merge_empty (ha : a.Keyed) : a.merge .empty = a := by
  rw [merge_eq_foldl ha]
  rfl

theorem empty_merge (ha : a.Keyed) : Manifest.merge .empty a = a := ha.ofInterfaces_values

/-! ## A list of manifests -/

/-- The last of some manifests that knows a name decides, or else the one that they are laid over. -/
theorem find?_foldl_merge (name : ModulePath) : ∀ {ms : List Manifest} {base : Manifest}, base.Keyed → (∀ m ∈ ms, m.Keyed) →
    (ms.foldl merge base).find? name = (ms.reverse.findSome? (·.find? name)).or (base.find? name)
  | [], _, _, _ => rfl
  | m :: ms, base, hbase, hms => by
    obtain ⟨hm, hms⟩ := List.forall_mem_cons.1 hms
    rw [List.foldl_cons, find?_foldl_merge name (keyed_merge base m) hms, find?_merge_keyed hbase hm, List.reverse_cons,
      List.findSome?_append, List.findSome?_singleton, Option.or_assoc]

end Manifest

/-! ## The manifests that settings name -/

/-- The manifest in the file that a text names. -/
def FileTree.ManifestAt (tree : FileTree) (text : Text) (m : Manifest) : Prop :=
  ∃ path, TreePath.ofText text = .ok path ∧ Manifest.load tree path = .ok m

theorem Manifest.keyed_of_load {tree : FileTree} {path : TreePath} {m : Manifest} (h : load tree path = .ok m) : m.Keyed := by
  unfold load readDocument at h
  split at h
  · cases h
  · cases h
  · cases h
  · split at h
    · cases h
    · next value _ =>
      cases hvalue : ofJson value with
      | error e => rw [hvalue] at h; cases h
      | ok m' =>
        rw [hvalue] at h
        cases h
        exact (Made.read hvalue).keyed

namespace Config

variable {tree : FileTree}

/-- When every file can be read, reading them gives their manifests in order. -/
theorem loadEach_of_manifestsAt {texts : List Text} {ms : List Manifest} (h : List.Forall₂ tree.ManifestAt texts ms) :
    (loadEach tree texts).error? = none ∧ (loadEach tree texts).loaded.map Prod.snd = ms := by
  induction h with
  | nil => exact ⟨rfl, rfl⟩
  | cons htext _ ih =>
    obtain ⟨path, hpath, hload⟩ := htext
    simp only [loadEach, hpath, hload, List.map_cons]
    exact ⟨ih.1, congrArg _ ih.2⟩

/-- Reading ends without an error only when every file can be read. -/
theorem exists_manifestsAt {texts : List Text} (h : (loadEach tree texts).error? = none) :
    ∃ ms, List.Forall₂ tree.ManifestAt texts ms := by
  rw [loadEach_error?_eq_none_iff] at h
  induction texts with
  | nil => exact ⟨[], .nil⟩
  | cons text texts ih =>
    obtain ⟨⟨path, m, hpath, hload⟩, htexts⟩ := List.forall_mem_cons.1 h
    obtain ⟨ms, hms⟩ := ih htexts
    exact ⟨m :: ms, .cons ⟨path, hpath, hload⟩ hms⟩

theorem keyed_of_manifestsAt {texts : List Text} {ms : List Manifest} (h : List.Forall₂ tree.ManifestAt texts ms) :
    ∀ m ∈ ms, m.Keyed := by
  induction h with
  | nil => exact List.forall_mem_nil _
  | cons htext _ ih =>
    obtain ⟨path, -, hload⟩ := htext
    exact List.forall_mem_cons.2 ⟨Manifest.keyed_of_load hload, ih⟩

theorem find?_merged_of_manifestsAt {c : Config} {ms : List Manifest} (h : List.Forall₂ tree.ManifestAt c.manifestPaths ms)
    (name : ModulePath) :
    (c.loadManifests tree).merged.find? name = (ms.reverse.findSome? (·.find? name)).or (Manifest.core.find? name) := by
  have hmerged : (c.loadManifests tree).merged = ms.foldl Manifest.merge .core := by
    rw [LoadedManifests.merged, loadManifests, ← (loadEach_of_manifestsAt h).2, List.foldl_map]
  rw [hmerged, Manifest.find?_foldl_merge name Manifest.keyed_core (keyed_of_manifestsAt h)]

end Config

namespace Manifest

/-- **Taking manifests together is an ordered override.** The second of two manifests decides about the names that it knows and the
first about all others; the names stand as the first has them, and after them those that only the second has, in its order. With that
order, taking manifests together is associative and idempotent, and the empty manifest changes nothing on either side. So the files
that settings name are all read exactly when each of them holds a manifest, and then every name has the interface of the last of
them that knows it, or else that of the core library. -/
theorem merge_overrides :
    (∀ a b : Manifest, a.Keyed → b.Keyed →
      (∀ name, (a.merge b).find? name = if b.contains name then b.find? name else a.find? name) ∧
      (a.merge b).keys = a.keys ++ b.keys.filter fun name => !a.contains name) ∧
    (∀ a b c : Manifest, a.Keyed → b.Keyed → c.Keyed → (a.merge b).merge c = a.merge (b.merge c)) ∧
    (∀ a : Manifest, a.Keyed → a.merge a = a ∧ a.merge .empty = a ∧ Manifest.merge .empty a = a) ∧
    ∀ (tree : FileTree) (settings : Config),
      ((settings.loadManifests tree).error? = none ↔ ∃ ms, List.Forall₂ tree.ManifestAt settings.manifestPaths ms) ∧
      ∀ ms, List.Forall₂ tree.ManifestAt settings.manifestPaths ms → ∀ name,
        (settings.loadManifests tree).merged.find? name = (ms.reverse.findSome? (·.find? name)).or (core.find? name) := by
  refine ⟨fun a b ha hb => ⟨fun name => ?_, keys_merge ha hb⟩, fun a b c => merge_assoc,
    fun a ha => ⟨merge_self ha, merge_empty ha, empty_merge ha⟩, fun tree settings => ⟨⟨Config.exists_manifestsAt, ?_⟩, ?_⟩⟩
  · rw [find?_merge_keyed ha hb]
    by_cases hname : name ∈ b.keys
    · obtain ⟨i, hi⟩ := Option.ne_none_iff_exists'.1 (mt b.find?_eq_none_iff.1 (not_not_intro hname))
      rw [if_pos (b.contains_iff.2 hname), hi, Option.some_or]
    · rw [if_neg (mt b.contains_iff.1 hname), b.find?_eq_none_iff.2 hname, Option.none_or]
  · rintro ⟨ms, hms⟩
    exact (Config.loadEach_of_manifestsAt hms).1
  · exact fun ms => Config.find?_merged_of_manifestsAt

/-- The interface of a module `Result` without types. -/
def bareResult : Interface := ⟨["Result"], .empty⟩

/-- A directory with the file `{"modules":{"Result":{}}}`. -/
def bareResultFile : FileTree := .directory [("deps.json", .file [123, 34, 109, 111, 100, 117, 108, 101, 115, 34, 58, 123, 34, 82, 101,
  115, 117, 108, 116, 34, 58, 123, 125, 125, 125])]

set_option maxRecDepth 100000 in
theorem manifestAt_bareResultFile : bareResultFile.ManifestAt "deps.json" (ofInterfaces [bareResult]) := by
  have hpath : TreePath.ofText "deps.json" = .ok ⟨"", ["deps.json"]⟩ := by decide +kernel
  have htext : bareResultFile.readText ⟨"", ["deps.json"]⟩ = .ok "\x7b\"modules\":\x7b\"Result\":\x7b\x7d\x7d\x7d".toList := by
    decide +kernel
  have hread : JsonValue.read "\x7b\"modules\":\x7b\"Result\":\x7b\x7d\x7d\x7d".toList =
      .ok (.object [("modules", .object [("Result", .object [])])]) := by cbv
  refine ⟨_, hpath, ?_⟩
  rw [load, readDocument, htext]
  simp only [hread]
  exact congrArg (Except.mapError DocumentError.document) (ofJson_ok_iff.2 ⟨_, [("Result", [])], rfl, rfl, rfl⟩)

/-- A module `Http` comes after the core library, and a `Result` without types takes the place of that of the core library, also when it
is read from a file. -/
theorem merge_overrides_bareResult :
    let http : Manifest := ofInterfaces [⟨["Http"], .empty⟩, bareResult]
    core.Keyed ∧ http.Keyed ∧ (core.merge http).find? ["Result"] = some bareResult ∧
      (core.merge http).keys = core.keys ++ [(["Http"] : ModulePath)] ∧
      (http.merge core).merge http = http.merge (core.merge http) ∧ http.merge http = http ∧
      List.Forall₂ bareResultFile.ManifestAt ["deps.json"] [ofInterfaces [bareResult]] ∧
      (Config.loadManifests { manifestPaths := ["deps.json"] } bareResultFile).error? = none ∧
      (Config.loadManifests { manifestPaths := ["deps.json"] } bareResultFile).merged.find? ["Result"] = some bareResult ∧
      (Config.loadManifests { manifestPaths := ["deps.json"] } bareResultFile).merged.find? ["Maybe"] = core.find? ["Maybe"] := by
  intro http
  have hhttp : http.Keyed := keyed_ofInterfaces _
  have hfile : List.Forall₂ bareResultFile.ManifestAt ["deps.json"] [ofInterfaces [bareResult]] :=
    .cons manifestAt_bareResultFile .nil
  obtain ⟨hboth, hassoc, hself, hfiles⟩ := merge_overrides
  obtain ⟨hfind, hkeys⟩ := hboth core http keyed_core hhttp
  obtain ⟨hread, hmerged⟩ := hfiles bareResultFile { manifestPaths := ["deps.json"] }
  refine ⟨keyed_core, hhttp, hfind _, hkeys.trans (by decide +kernel), hassoc _ _ _ hhttp keyed_core hhttp, (hself http hhttp).1, hfile,
    hread.2 ⟨_, hfile⟩, hmerged _ hfile _, hmerged _ hfile _⟩

end Manifest

end ElmLint
