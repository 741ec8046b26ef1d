import ElmLint.Manifest.Json
import ElmLint.Proofs.GrammarShapes
import ElmLint.Proofs.JsonValue
import ElmLint.Proofs.Manifest
import Mathlib.Data.List.Nodup

/-!
# Manifests as JSON and back

A manifest is written as a table: a row for each module, with its dotted name and its types (`moduleMembers`). A table is read row
by row (`ofJson_ok_iff`). Both ways lose nothing: the segments of a path are what its dotted name is split into, because there are
no dots in them (`ModulePath.ofDotted_dotted`), and every text is the dotted name of what it is split into
(`ModulePath.dotted_ofDotted`). The paths of all manifests that the program makes are of this sort (`Manifest.Made.dotless`).
-/

namespace ElmLint

/-! ## Dots -/

/-- What a list is split into at a separator does not hold the separator. -/
theorem notMem_of_mem_splitOn {α : Type} [DecidableEq α] {separator : α} : ∀ {as piece : List α},
    piece ∈ as.splitOn separator → separator ∉ piece
  | [], piece, h => by
    rw [List.splitOn_nil, List.mem_singleton] at h
    simp [h]
  | a :: as, piece, h => by
    rw [List.splitOn_cons_eq_if_modifyHead] at h
    obtain ⟨first, rest, hsplit⟩ := List.exists_cons_of_ne_nil (List.splitOn_ne_nil separator as)
    have hrest : ∀ piece' ∈ first :: rest, separator ∉ piece' := fun piece' hpiece => notMem_of_mem_splitOn (hsplit ▸ hpiece)
    rw [hsplit] at h
    split at h
    · rcases List.mem_cons.1 h with rfl | h
      · exact List.not_mem_nil
      · exact hrest piece h
    · next hne =>
      rw [List.modifyHead_cons, List.mem_cons] at h
      rcases h with rfl | h
      · rw [List.mem_cons, not_or]
        exact ⟨fun e => hne (by simp [e]), hrest first List.mem_cons_self⟩
      · exact hrest piece (List.mem_cons_of_mem first h)

namespace ModulePath

/-- A path as names with dots spell them: it has a segment, and no segment holds a dot. -/
def Dotless (path : ModulePath) : Prop := path ≠ [] ∧ ∀ segment ∈ path, CodePoint.char '.' ∉ segment.codePoints

instance (path : ModulePath) : Decidable path.Dotless :=
  inferInstanceAs (Decidable (path ≠ [] ∧ ∀ segment ∈ path, CodePoint.char '.' ∉ segment.codePoints))

theorem map_codePoints_ofDotted (text : Text) : (ofDotted text).map Text.codePoints = text.codePoints.splitOn (.char '.') := by
  rw [ofDotted, Text.splitOn, List.map_map]
  exact List.map_id _

theorem dotless_ofDotted (text : Text) : (ofDotted text).Dotless := by
  constructor
  · intro hnil
    have hsplit := map_codePoints_ofDotted text
    rw [hnil, List.map_nil] at hsplit
    exact List.splitOn_ne_nil _ _ hsplit.symm
  · intro segment hsegment
    exact notMem_of_mem_splitOn (map_codePoints_ofDotted text ▸ List.mem_map_of_mem hsegment)

/-- A text is the dotted name of what it is split into. -/
theorem dotted_ofDotted (text : Text) : (ofDotted text).dotted = text := by
  rw [dotted, Text.joined, map_codePoints_ofDotted, List.intercalate_splitOn]

theorem ofDotted_injective : Function.Injective ofDotted :=
  Function.LeftInverse.injective dotted_ofDotted

/-- The dotted name of a path is split into its segments. -/
theorem ofDotted_dotted {path : ModulePath} (h : path.Dotless) : ofDotted path.dotted = path := by
  have hsplit : path.dotted.codePoints.splitOn (.char '.') = path.map Text.codePoints :=
    List.splitOn_intercalate _ (List.forall_mem_map.2 h.2) fun hnil => h.1 (List.map_eq_nil_iff.1 hnil)
  rw [ofDotted, Text.splitOn, hsplit, List.map_map]
  exact List.map_id _

theorem dotless_ofName {name : ModuleName} (hne : name ≠ []) (hdots : ∀ segment ∈ name, '.' ∉ segment.toList) :
    (ofName name).Dotless := by
  refine ⟨fun hnil => hne (List.map_eq_nil_iff.1 hnil), List.forall_mem_map.2 fun segment hsegment hdot => ?_⟩
  obtain ⟨c, hc, heq⟩ := List.mem_map.1 hdot
  cases heq
  exact hdots segment hsegment hc

end ModulePath

/-! ## Entries and interfaces -/

theorem OrderedMap.ofList_entries {κ α : Type} [DecidableEq κ] (m : OrderedMap κ α) : ofList m.entries = m :=
  ext_entries (entries_ofList m.nodup)

namespace Manifest

theorem ofInterfaces_eq_ofList (is : List Interface) : ofInterfaces is = .ofList (is.map fun i => (i.name, i)) := by
  rw [OrderedMap.ofList, OrderedMap.insertAll, List.foldl_map]
  rfl

/-- Interfaces with different names all get into a manifest, in their order. -/
theorem values_ofInterfaces {is : List Interface} (h : (is.map Interface.name).Nodup) : (ofInterfaces is).values = is := by
  have hnodup : ((is.map fun i => (i.name, i)).map Prod.fst).Nodup := by rwa [List.map_map]
  rw [ofInterfaces_eq_ofList, OrderedMap.values, OrderedMap.entries_ofList hnodup, List.map_map]
  exact List.map_id _

/-- The names of the interfaces are the keys that they stand under. -/
theorem Keyed.names_values {m : Manifest} (h : m.Keyed) : m.values.map Interface.name = m.keys := by
  rw [OrderedMap.values, List.map_map]
  exact List.map_congr_left fun entry hentry => h entry hentry

theorem Keyed.nodup_names {m : Manifest} (h : m.Keyed) : (m.values.map Interface.name).Nodup := by
  rw [h.names_values]
  exact m.nodup

/-- A manifest is made of the interfaces in it. -/
theorem Keyed.ofInterfaces_values {m : Manifest} (h : m.Keyed) : ofInterfaces m.values = m := by
  have hentries : (m.values.map fun i => (i.name, i)) = m.entries := by
    rw [OrderedMap.values, List.map_map]
    conv_rhs => rw [← List.map_id m.entries]
    exact List.map_congr_left fun entry hentry => Prod.ext (h entry hentry) rfl
  rw [ofInterfaces_eq_ofList, hentries, OrderedMap.ofList_entries]

theorem mem_of_mem_values_ofInterfaces {is : List Interface} {i : Interface} (h : i ∈ (ofInterfaces is).values) : i ∈ is := by
  obtain ⟨⟨name, i'⟩, hentry, rfl⟩ := List.mem_map.1 h
  rw [OrderedMap.mem_entries_iff, find?_ofInterfaces] at hentry
  exact List.mem_reverse.1 (List.mem_of_find?_eq_some hentry)

/-! ## Tables -/

/-- The rows of a table as JSON: the types of each module with their constructors, under its dotted name. -/
def moduleMembers (table : List (Text × List (Text × List Text))) : List (Text × JsonValue) :=
  table.map fun (name, types) => (name, .object (types.map fun (type, constructors) => (type, .texts constructors)))

/-- The interface in a row. -/
def interfaceOf (row : Text × List (Text × List Text)) : Interface := ⟨.ofDotted row.1, .ofList row.2⟩

theorem typesOfJson_ok_iff {module : Text} : ∀ {members : List (Text × JsonValue)} {types : List (Text × List Text)},
    typesOfJson module members = .ok types ↔ members = types.map fun (type, constructors) => (type, .texts constructors)
  | [], types => by cases types <;> simp [typesOfJson]
  | (type, value) :: members, types => by
    rw [typesOfJson]
    constructor
    · intro h
      split at h
      · cases h
      · next constructors htexts =>
        obtain ⟨rest, hrest, rfl⟩ := map_eq_ok_iff.1 h
        rw [List.map_cons, ← typesOfJson_ok_iff.1 hrest, JsonValue.texts?_eq_some_iff.1 htexts]
    · intro h
      obtain ⟨⟨type', constructors⟩, rest, rfl, hfirst, hrest⟩ := List.map_eq_cons_iff.1 h.symm
      cases hfirst
      have htexts := JsonValue.texts?_eq_some_iff.2 (rfl : JsonValue.texts constructors = _)
      simp only [htexts]
      exact map_eq_ok_iff.2 ⟨rest, typesOfJson_ok_iff.2 hrest.symm, rfl⟩

theorem interfacesOfJson_ok_iff : ∀ {members : List (Text × JsonValue)} {is : List Interface},
    interfacesOfJson members = .ok is ↔ ∃ table, members = moduleMembers table ∧ is = table.map interfaceOf
  | [], is => by
    constructor
    · intro h
      cases h
      exact ⟨[], rfl, rfl⟩
    · rintro ⟨table, htable, rfl⟩
      obtain rfl := List.map_eq_nil_iff.1 htable.symm
      rfl
  | (module, value) :: members, is => by
    rw [interfacesOfJson]
    constructor
    · intro h
      split at h
      · cases h
      · next typeMembers hmembers =>
        split at h
        · cases h
        · next types htypes =>
          obtain ⟨rest, hrest, rfl⟩ := map_eq_ok_iff.1 h
          obtain ⟨table, rfl, rfl⟩ := interfacesOfJson_ok_iff.1 hrest
          refine ⟨(module, types) :: table, ?_, rfl⟩
          rw [JsonValue.members?_eq_some_iff.1 hmembers, typesOfJson_ok_iff.1 htypes]
          rfl
    · rintro ⟨table, htable, rfl⟩
      obtain ⟨⟨module', types⟩, rest, rfl, hfirst, hrest⟩ := List.map_eq_cons_iff.1 htable.symm
      cases hfirst
      have hread : interfacesOfJson members = .ok (rest.map interfaceOf) := interfacesOfJson_ok_iff.2 ⟨rest, hrest.symm, rfl⟩
      have htypes : typesOfJson module (types.map fun (type, constructors) => (type, .texts constructors)) = .ok types :=
        typesOfJson_ok_iff.2 rfl
      simp only [JsonValue.members?, htypes, hread]
      rfl

/-- A manifest is read out of an object whose member `modules` is a table. -/
theorem ofJson_ok_iff {value : JsonValue} {m : Manifest} : ofJson value = .ok m ↔
    ∃ members table, value = .object members ∧ members.lookup ("modules" : Text) = some (.object (moduleMembers table)) ∧
      m = ofInterfaces (table.map interfaceOf) := by
  rw [ofJson]
  constructor
  · intro h
    split at h
    · cases h
    · next modules hmodules =>
      obtain ⟨member, hlookup, hmember⟩ := Option.bind_eq_some_iff.1 hmodules
      obtain ⟨members, hmembers, hlookup⟩ := Option.bind_eq_some_iff.1 hlookup
      obtain ⟨is, his, rfl⟩ := map_eq_ok_iff.1 h
      obtain ⟨table, rfl, rfl⟩ := interfacesOfJson_ok_iff.1 his
      rw [JsonValue.members?_eq_some_iff.1 hmember] at hlookup
      exact ⟨members, table, JsonValue.members?_eq_some_iff.1 hmembers, hlookup, rfl⟩
  · rintro ⟨members, table, rfl, hlookup, rfl⟩
    have hread : interfacesOfJson (moduleMembers table) = .ok (table.map interfaceOf) :=
      interfacesOfJson_ok_iff.2 ⟨table, rfl, rfl⟩
    simp only [JsonValue.members?, Option.bind_some, hlookup, hread]
    rfl

theorem toJson_eq (m : Manifest) : m.toJson = .object [("modules", .object (moduleMembers m.modules.entries))] := rfl

/-! ## There and back -/

/-- The paths of all modules in the manifest are of the sort that names with dots spell. -/
def Dotless (m : Manifest) : Prop := ∀ i ∈ m.values, i.name.Dotless

/-- Modules with different paths have different dotted names. -/
theorem entries_modules {m : Manifest} (hkeyed : m.Keyed) (h : m.Dotless) :
    m.modules.entries = m.values.map fun i => (i.name.dotted, i.types.entries) := by
  refine OrderedMap.entries_ofList ?_
  have hnames : (m.values.map fun i => (i.name.dotted, i.types.entries)).map Prod.fst =
      (m.values.map Interface.name).map ModulePath.dotted := by
    rw [List.map_map, List.map_map]
    rfl
  rw [hnames]
  refine List.Nodup.map_on (fun path hpath path' hpath' heq => ?_) hkeyed.nodup_names
  obtain ⟨i, hi, rfl⟩ := List.mem_map.1 hpath
  obtain ⟨i', hi', rfl⟩ := List.mem_map.1 hpath'
  rw [← ModulePath.ofDotted_dotted (h i hi), heq, ModulePath.ofDotted_dotted (h i' hi')]

/-- What is written of an interface is read as the interface. -/
theorem interfaceOf_row {i : Interface} (h : i.name.Dotless) : interfaceOf (i.name.dotted, i.types.entries) = i := by
  rw [interfaceOf, ModulePath.ofDotted_dotted h, OrderedMap.ofList_entries]

theorem ofJson_toJson {m : Manifest} (hkeyed : m.Keyed) (h : m.Dotless) : ofJson m.toJson = .ok m := by
  rw [ofJson_ok_iff]
  refine ⟨_, m.modules.entries, rfl, rfl, ?_⟩
  rw [entries_modules hkeyed h, List.map_map]
  conv_lhs => rw [← hkeyed.ofInterfaces_values]
  conv_lhs => rw [← List.map_id m.values]
  exact congrArg ofInterfaces (List.map_congr_left fun i hi => (interfaceOf_row (h i hi)).symm)

/-- A table without repeated names has no module twice, and no type twice in a module. -/
theorem nodup_of_distinct {table : List (Text × List (Text × List Text))}
    (h : (JsonValue.object [("modules", .object (moduleMembers table))]).Distinct) :
    (table.map Prod.fst).Nodup ∧ ∀ row ∈ table, (row.2.map Prod.fst).Nodup := by
  cases h with
  | object _ hinner =>
    cases hinner _ List.mem_cons_self with
    | object hnames hrows =>
      rw [moduleMembers, List.map_map] at hnames
      refine ⟨hnames, fun row hrow => ?_⟩
      cases hrows _ (List.mem_map_of_mem hrow) with
      | object htypes _ =>
        rw [List.map_map] at htypes
        exact htypes

theorem toJson_ofJson {modules : JsonValue} {m : Manifest} (hdistinct : (JsonValue.object [("modules", modules)]).Distinct)
    (h : ofJson (.object [("modules", modules)]) = .ok m) : m.toJson = .object [("modules", modules)] := by
  obtain ⟨members, table, hobject, hlookup, rfl⟩ := ofJson_ok_iff.1 h
  cases hobject
  rw [List.lookup_cons_self, Option.some.injEq] at hlookup
  subst hlookup
  obtain ⟨hnames, htypes⟩ := nodup_of_distinct hdistinct
  -- Splitting keeps different names different, so no interface takes the place of another.
  have hvalues : (ofInterfaces (table.map interfaceOf)).values = table.map interfaceOf := by
    refine values_ofInterfaces ?_
    have hmapped := hnames.map ModulePath.ofDotted_injective
    rw [List.map_map] at hmapped ⊢
    exact hmapped
  have hdotless : (ofInterfaces (table.map interfaceOf)).Dotless := by
    rw [Dotless, hvalues, List.forall_mem_map]
    exact fun row _ => ModulePath.dotless_ofDotted row.1
  have hentries : (ofInterfaces (table.map interfaceOf)).modules.entries = table := by
    rw [entries_modules (keyed_ofInterfaces _) hdotless, hvalues, List.map_map]
    conv_rhs => rw [← List.map_id table]
    refine List.map_congr_left fun row hrow => Prod.ext (ModulePath.dotted_ofDotted row.1) ?_
    exact OrderedMap.entries_ofList (htypes row hrow)
  rw [toJson_eq, hentries]

end Manifest

/-! ## Names of modules -/

namespace ModuleName

/-- A name as sources spell them: it has a segment, and no segment holds a dot. -/
def Dotless (name : ModuleName) : Prop := name ≠ [] ∧ ∀ segment ∈ name, '.' ∉ segment.toList

theorem dotless_ofDotted (text : List Char) : (ofDotted text).Dotless := by
  constructor
  · intro hnil
    exact List.splitOn_ne_nil _ _ (List.map_eq_nil_iff.1 hnil)
  · refine List.forall_mem_map.2 fun segment hsegment => ?_
    rw [String.toList_ofList]
    exact notMem_of_mem_splitOn hsegment

end ModuleName

namespace Grammar

variable {call : (r : Rule) → Cursor → Outcome r.Sem} {locate : Locate}

theorem gives_moduleName : Gives call moduleName ModuleName.Dotless := (Gives.any _).map fun text _ => ModuleName.dotless_ofDotted text

theorem gives_header : Gives call (header locate) fun h => h.name.Dotless :=
  ((Gives.any _).both (((gives_moduleName.after _).before _).both (.any _))).node fun _ _ _ h => h.2.1

theorem gives_headers : Gives call (topLevel locate) fun items => ∀ i ∈ items, ∀ h ∈ i.header?, h.name.Dotless := by
  have hnone : ∀ {α : Type} (p : Phrase α) (item : α → TopItem), (∀ a, (item a).header? = none) →
      Gives call (.map item p) fun i => ∀ h ∈ i.header?, h.name.Dotless :=
    fun p item hitem => (Gives.any p).map fun a _ => by simp [hitem a]
  have hitem : Gives call (topItem locate) fun i => ∀ h ∈ i.header?, h.name.Dotless := by
    refine .orElse (gives_header.map fun h hname h' hh' => Option.mem_some_iff.1 hh' ▸ hname) ?_
    exact .orElse (hnone _ _ fun _ => rfl) (.orElse (hnone _ _ fun _ => rfl) (.orElse (hnone _ _ fun _ => rfl)
      (.orElse (hnone _ _ fun _ => rfl) (.orElse (hnone _ _ fun _ => rfl) (hnone _ _ fun _ => rfl)))))
  exact (((hitem.separated _).perhaps.after _).before _).map fun _ h => h

end Grammar

/-- A module that was read has a name as sources spell them. -/
theorem Module.dotless_name {source file : String} {m : Module} (h : parse source file = .ok m) : m.name.Dotless := by
  obtain ⟨l, items, -, hread, rfl, -⟩ := parse_ok_iff.1 h
  obtain ⟨next, hread, -⟩ := LaidOut.readPhrase_ok_iff.1 hread
  have hheaders := Grammar.gives_headers _ _ _ hread
  rw [name, ofItems]
  cases hlast : (items.filterMap TopItem.header?).getLast? with
  | none => exact ⟨by simp, by simp⟩
  | some header =>
    obtain ⟨i, hi, hheader⟩ := List.mem_filterMap.1 (List.mem_of_getLast? hlast)
    exact hheaders i hi header hheader

/-! ## The manifests of the program -/

namespace Manifest

/-- The manifests that the program makes: that of the core library, those that are read, those of the interfaces of parsed modules,
and two of them taken together. -/
inductive Made : Manifest → Prop
  | core : Made core
  | read {value : JsonValue} {m : Manifest} : ofJson value = .ok m → Made m
  | parsed {ms : List Module} : (∀ m ∈ ms, ∃ source file, Module.parse source file = .ok m) →
      Made (ofInterfaces (ms.map Interface.ofModule))
  | merged {m n : Manifest} : Made m → Made n → Made (m.merge n)

theorem Made.keyed {m : Manifest} (h : m.Made) : m.Keyed := by
  cases h with
  | core => exact keyed_ofInterfaces _
  | read h =>
    obtain ⟨_, _, -, -, rfl⟩ := ofJson_ok_iff.1 h
    exact keyed_ofInterfaces _
  | parsed => exact keyed_ofInterfaces _
  | merged => exact keyed_ofInterfaces _

theorem dotless_ofInterfaces {is : List Interface} (h : ∀ i ∈ is, i.name.Dotless) : (ofInterfaces is).Dotless :=
  fun i hi => h i (mem_of_mem_values_ofInterfaces hi)

theorem dotless_core : core.Dotless := by
  have hpaths : ∀ entry ∈ coreTypes, ModulePath.Dotless entry.1 := by decide +kernel
  exact dotless_ofInterfaces (List.forall_mem_map.2 hpaths)

theorem Made.dotless {m : Manifest} (h : m.Made) : m.Dotless := by
  induction h with
  | core => exact dotless_core
  | read h =>
    obtain ⟨_, table, -, -, rfl⟩ := ofJson_ok_iff.1 h
    exact dotless_ofInterfaces (List.forall_mem_map.2 fun row _ => ModulePath.dotless_ofDotted row.1)
  | parsed h =>
    refine dotless_ofInterfaces (List.forall_mem_map.2 fun m hm => ?_)
    obtain ⟨source, file, hparse⟩ := h m hm
    obtain ⟨hne, hdots⟩ := Module.dotless_name hparse
    exact ModulePath.dotless_ofName hne hdots
  | merged _ _ hm hn => exact dotless_ofInterfaces (List.forall_mem_append.2 ⟨hm, hn⟩)

/-- **Manifests survive serialisation.** A manifest with paths as names with dots spell them is read again from what is written of
it: the same interfaces in the same order, with the same types and constructors. All manifests that the program makes are of this
sort. An object that has only the member `modules` and no repeated names, as those that are read, is written again by the
manifest that it is read as. -/
theorem reads_written_writes_read :
    (∀ m : Manifest, m.Keyed → m.Dotless → ofJson m.toJson = .ok m) ∧
    (∀ m : Manifest, m.Made → m.Keyed ∧ m.Dotless ∧ ofJson m.toJson = .ok m) ∧
    ∀ (modules : JsonValue) (m : Manifest), (JsonValue.object [("modules", modules)]).Distinct →
      ofJson (.object [("modules", modules)]) = .ok m → m.toJson = .object [("modules", modules)] :=
  ⟨fun _ hkeyed h => ofJson_toJson hkeyed h, fun _ h => ⟨h.keyed, h.dotless, ofJson_toJson h.keyed h.dotless⟩,
    fun _ _ hdistinct h => toJson_ofJson hdistinct h⟩

/-- The text `{"modules": {"Json.Decode": {"Error": ["Field", "Failure"]}}}` is read as a manifest that is written as it stood.
Laid over the core library it survives being written and read, and so it does as a manifest that only has to be made of paths
without dots. -/
theorem survives_read_and_merged : ∃ (modules : JsonValue) (m : Manifest),
    JsonValue.read "\x7b\"modules\": \x7b\"Json.Decode\": \x7b\"Error\": [\"Field\", \"Failure\"]\x7d\x7d\x7d".toList =
      .ok (.object [("modules", modules)]) ∧
    ofJson (.object [("modules", modules)]) = .ok m ∧ m.toJson = .object [("modules", modules)] ∧
    ofJson (core.merge m).toJson = .ok (core.merge m) ∧ m.Keyed ∧ m.Dotless ∧ ofJson m.toJson = .ok m := by
  have hread : JsonValue.read
      "\x7b\"modules\": \x7b\"Json.Decode\": \x7b\"Error\": [\"Field\", \"Failure\"]\x7d\x7d\x7d".toList =
        .ok (.object [("modules", .object [("Json.Decode", .object [("Error", .texts ["Field", "Failure"])])])]) := by
    cbv
  obtain ⟨hwritten, hmade, hread_again⟩ := reads_written_writes_read
  refine ⟨_, ofInterfaces [⟨["Json", "Decode"], .ofList [("Error", ["Field", "Failure"])]⟩], hread, ?_⟩
  have hjson : ofJson (.object [("modules", .object [("Json.Decode", .object [("Error", .texts ["Field", "Failure"])])])]) =
      .ok (ofInterfaces [⟨["Json", "Decode"], .ofList [("Error", ["Field", "Failure"])]⟩]) :=
    ofJson_ok_iff.2 ⟨_, [("Json.Decode", [("Error", ["Field", "Failure"])])], rfl, rfl, rfl⟩
  obtain ⟨hkeyed, hdotless, -⟩ := hmade _ (.read hjson)
  obtain ⟨-, -, hmerged⟩ := hmade _ (.merged .core (.read hjson))
  exact ⟨hjson, hread_again _ _ (JsonValue.distinct_of_read hread) hjson, hmerged, hkeyed, hdotless,
    hwritten _ hkeyed hdotless⟩

end Manifest

end ElmLint
