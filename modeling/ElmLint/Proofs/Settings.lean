import ElmLint.Config
import ElmLint.Proofs.JsonValue
import ElmLint.Proofs.Project

/-!
# Which settings are accepted, and that a run does not reject them

An option is read from the members of an object in one of three ways, and each gives what is written there or the default
(`Sets`). A value describes settings when it is an object of known members that set each option, and the settings make sense
(`Describes`); these are the values that are read (`ofJson_ok_iff`). The kind of origin check and the path of the result module are
looked at again when a checker is given its options, and when warnings are collected. What was accepted passes there too.
-/

namespace ElmLint

namespace Config

/-! ## Options -/

/-- What the members of an object set an option to: a value that is written there, or the default. -/
inductive Sets {α : Type} (members : List (Text × JsonValue)) (option : String) (written : α → JsonValue) (fallback : α) : α → Prop
  | absent : members.lookup (option : Text) = none → Sets members option written fallback fallback
  | present {a : α} : members.lookup (option : Text) = some (written a) → Sets members option written fallback a

variable {members : List (Text × JsonValue)} {option : String} {c : Config} {value : JsonValue}

/-- An option is set to what is read, when its default is read where it is absent, and where it is present what is written. -/
theorem sets_iff {α : Type} {written : α → JsonValue} {fallback a : α} {outcome : Except ConfigError α}
    (habsent : members.lookup (option : Text) = none → outcome = .ok fallback)
    (hpresent : ∀ value, members.lookup (option : Text) = some value → (outcome = .ok a ↔ value = written a)) :
    outcome = .ok a ↔ Sets members option written fallback a := by
  constructor
  · intro h
    cases hlookup : members.lookup (option : Text) with
    | none =>
      rw [habsent hlookup] at h
      cases h
      exact .absent hlookup
    | some value => exact .present ((hpresent value hlookup).1 h ▸ hlookup)
  · intro h
    cases h with
    | absent hlookup => exact habsent hlookup
    | present hlookup => exact (hpresent _ hlookup).2 rfl

theorem textOption_ok_iff {fallback t : Text} :
    textOption members option fallback = .ok t ↔ Sets members option .string fallback t := by
  refine sets_iff (fun h => by simp [textOption, h]) fun value h => ?_
  rw [← JsonValue.text?_eq_some_iff]
  cases htext : value.text? <;> simp [textOption, h, htext]

theorem textsOption_ok_iff {fallback items : List Text} :
    textsOption members option fallback = .ok items ↔ Sets members option .texts fallback items := by
  refine sets_iff (fun h => by simp [textsOption, h]) fun value h => ?_
  rw [← JsonValue.texts?_eq_some_iff]
  cases htexts : value.texts? <;> simp [textsOption, h, htexts]

/-- File patterns with the ids that are suppressed there, as JSON. -/
def writtenPatterns (patterns : List (Text × List Text)) : JsonValue :=
  .object (patterns.map fun (pattern, ids) => (pattern, .texts ids))

theorem filePatterns?_eq_some_iff {patterns : List (Text × List Text)} :
    filePatterns? value = some patterns ↔ value = writtenPatterns patterns := by
  have hentry : ∀ (member : Text × JsonValue) (entry : Text × List Text),
      member.2.texts?.map (member.1, ·) = some entry ↔ member = (entry.1, .texts entry.2) := by
    rintro ⟨pattern, ids⟩ ⟨pattern', ids'⟩
    simp [JsonValue.texts?_eq_some_iff, and_comm]
  simp [filePatterns?, writtenPatterns, Option.bind_eq_some_iff, JsonValue.members?_eq_some_iff, mapM_eq_some_iff hentry]

theorem filePatternsOption_ok_iff {patterns : List (Text × List Text)} :
    filePatternsOption members = .ok patterns ↔ Sets members "file_suppressions" writtenPatterns [] patterns := by
  refine sets_iff (fun h => by simp [filePatternsOption, h]) fun value h => ?_
  rw [← filePatterns?_eq_some_iff]
  cases hpatterns : filePatterns? value <;> simp [filePatternsOption, h, hpatterns]

/-! ## What is accepted -/

/-- All members are options. -/
def Known (members : List (Text × JsonValue)) : Prop := ∀ member ∈ members, ∃ option ∈ optionNames, member.1 = option

/-- Settings that make sense: the path of the result module has segments and no empty one, and there is such an origin check. -/
structure Sensible (c : Config) : Prop where
  path : c.resultModule ≠ []
  segments : ∀ segment ∈ c.resultModule, segment.isEmpty = false
  check : c.originCheck = "exact" ∨ c.originCheck = "any"

/-- The members of an object describe settings: all are options, each option is set to a value of its type or has its default,
and the settings make sense. -/
structure Describes (members : List (Text × JsonValue)) (c : Config) : Prop where
  known : Known members
  originCheck : Sets members "origin_check" .string "exact" c.originCheck
  resultModule : Sets members "result_module" .texts ["Result"] c.resultModule
  disabledCheckers : Sets members "disabled_checkers" .texts [] c.disabledCheckers
  suppressions : Sets members "suppressions" .texts [] c.suppressions
  fileSuppressions : Sets members "file_suppressions" writtenPatterns [] c.fileSuppressions
  manifestPaths : Sets members "manifest_paths" .texts [] c.manifestPaths
  outputFormat : Sets members "output_format" .string "text" c.outputFormat
  sensible : c.Sensible

theorem unknownOptions_isEmpty_iff : (unknownOptions members).isEmpty = true ↔ Known members := by
  have hsorted : (unknownOptions members).isEmpty = true ↔
      (members.map Prod.fst).filter (fun name => !optionNames.any (Text.ofString · == name)) = [] := by
    rw [List.isEmpty_iff, ← List.length_eq_zero_iff, unknownOptions, List.length_mergeSort, List.length_eq_zero_iff]
  rw [hsorted, List.filter_eq_nil_iff, List.forall_mem_map, Known]
  simp only [Bool.not_eq_true', Bool.not_eq_false, List.any_eq_true, beq_iff_eq]
  simp only [eq_comm]

theorem mem_originChecks_iff {kind : Text} :
    originChecks.any (Text.ofString · == kind) = true ↔ kind = "exact" ∨ kind = "any" := by
  simp only [originChecks, List.any_cons, List.any_nil, Bool.or_false, Bool.or_eq_true, beq_iff_eq]
  rw [eq_comm, @eq_comm _ _ kind]

theorem checked_ok_iff {c' : Config} : checked c = .ok c' ↔ c.Sensible ∧ c = c' := by
  have hpath : (c.resultModule.isEmpty || c.resultModule.any (·.isEmpty)) = true ↔
      ¬ (c.resultModule ≠ [] ∧ ∀ segment ∈ c.resultModule, segment.isEmpty = false) := by
    simp [or_iff_not_imp_left]
  rw [checked]
  constructor
  · intro h
    split at h
    · cases h
    · next hvalid =>
      rw [hpath, not_not] at hvalid
      split at h
      · next hcheck =>
        cases h
        exact ⟨⟨hvalid.1, hvalid.2, mem_originChecks_iff.1 hcheck⟩, rfl⟩
      · cases h
  · rintro ⟨hsensible, rfl⟩
    rw [if_neg (by rw [hpath, not_not]; exact ⟨hsensible.path, hsensible.segments⟩),
      if_pos (mem_originChecks_iff.2 hsensible.check)]

theorem ofMembers_ok_iff (hknown : Known members) : ofMembers members = .ok c ↔ Describes members c := by
  simp only [ofMembers, bind_eq_ok_iff, textOption_ok_iff, textsOption_ok_iff, filePatternsOption_ok_iff, checked_ok_iff]
  constructor
  · rintro ⟨kind, hkind, form, hform, path, hpath, disabled, hdisabled, ids, hids, paths, hpaths, patterns, hpatterns,
      hsensible, rfl⟩
    exact ⟨hknown, hkind, hpath, hdisabled, hids, hpatterns, hpaths, hform, hsensible⟩
  · intro h
    exact ⟨_, h.originCheck, _, h.outputFormat, _, h.resultModule, _, h.disabledCheckers, _, h.suppressions, _, h.manifestPaths, _,
      h.fileSuppressions, h.sensible, rfl⟩

/-- The settings that are read from a value are those that it describes. -/
theorem ofJson_ok_iff : ofJson value = .ok c ↔ ∃ members, value = .object members ∧ Describes members c := by
  rw [ofJson]
  constructor
  · intro h
    split at h
    · cases h
    · next members hmembers =>
      split at h
      · next hknown => exact ⟨members, JsonValue.members?_eq_some_iff.1 hmembers,
          (ofMembers_ok_iff (unknownOptions_isEmpty_iff.1 hknown)).1 h⟩
      · cases h
  · rintro ⟨members, rfl, h⟩
    simp only [JsonValue.members?]
    rw [if_pos (unknownOptions_isEmpty_iff.2 h.known)]
    exact (ofMembers_ok_iff h.known).2 h

/-- An empty object describes the defaults. -/
example : ofJson (.object []) = .ok {} := by decide +kernel

/-! ## What is looked at again -/

/-- Checkers are asked for an origin check. -/
theorem Sensible.asks (h : c.Sensible) : ∃ check, c.checkOptions.Asks check := by
  rcases h.check with hexact | hany
  · exact ⟨_, .exact hexact h.path h.segments⟩
  · exact ⟨_, .any hany⟩

/-- A run with the options of sensible settings goes through, when all its checkers but that for ignored errors accept any
options. -/
theorem Sensible.runs (h : c.Sensible) {r : Runner} {names : Option (List String)} (hoptions : r.options = c.checkOptions)
    (hothers : ∀ checker ∈ r.selected names, checker = ignoredErrorChecker ∨
      ∀ ctx failure, checker.check ctx ≠ .error (.options failure)) (ms : List Module) :
    ∃ results, r.runModules ms names = .ok results := by
  obtain ⟨check, hasks⟩ := h.asks
  have haccepts : r.AcceptsOptions names := by
    intro checker hchecker ctx hctx failure
    rcases hothers checker hchecker with rfl | hany
    · exact Runner.ignoredErrorChecker_accepts (hctx.trans hoptions ▸ hasks) failure
    · exact hany ctx failure
  obtain ⟨results, hrun, -⟩ := Runner.exists_runModules haccepts ms
  exact ⟨results, hrun⟩

/-- Sensible settings can only be odd in that the result module has no effect, or that there is no such output format. -/
theorem Sensible.warnings (h : c.Sensible) : ∀ warning ∈ c.warnings,
    warning = "result_module has no effect with origin_check 'any'" ∨
      warning = "output_format must be one of text, json, got " ++ quoted c.outputFormat := by
  have hcheck : choiceWarning "origin_check" originChecks c.originCheck = [] := if_pos (mem_originChecks_iff.2 h.check)
  have hmodule : ∀ warning ∈ c.moduleWarning, warning = "result_module has no effect with origin_check 'any'" := by
    rw [moduleWarning, if_neg (by simp [h.path])]
    split <;> simp
  have hformat : ∀ warning ∈ choiceWarning "output_format" outputFormats c.outputFormat,
      warning = "output_format must be one of text, json, got " ++ quoted c.outputFormat := by
    rw [choiceWarning]
    split
    · simp
    · simp only [List.mem_singleton, forall_eq]
      rfl
  intro warning hwarning
  rw [Config.warnings, hcheck, List.nil_append, List.mem_append] at hwarning
  exact hwarning.imp (hmodule warning) (hformat warning)

/-- Accepted settings cannot fail later. A value is read as the settings that it describes, and is refused exactly when it describes
none. With the settings that are read, checkers are asked for an origin check, every run goes through in which no other checker than
that for ignored errors rejects its options, and there is no warning that the origin check is unknown or the path of the result
module empty: the only ones are that the path has no effect, and that the output format is unknown. -/
theorem accepted_settings_run (value : JsonValue) :
    (∀ c, ofJson value = .ok c ↔ ∃ members, value = .object members ∧ Describes members c) ∧
    ((∃ error, ofJson value = .error error) ↔ ¬ ∃ members c, value = .object members ∧ Describes members c) ∧
    ∀ c, ofJson value = .ok c →
      (∃ check, OriginCheck.ofOptions c.checkOptions.originCheck c.checkOptions.resultModule = .ok check) ∧
      (∀ (r : Runner) (names : Option (List String)), r.options = c.checkOptions →
        (∀ checker ∈ r.selected names, checker = ignoredErrorChecker ∨
          ∀ ctx failure, checker.check ctx ≠ .error (.options failure)) →
        ∀ ms, ∃ results, r.runModules ms names = .ok results) ∧
      ∀ warning ∈ c.warnings, warning = "result_module has no effect with origin_check 'any'" ∨
        warning = "output_format must be one of text, json, got " ++ quoted c.outputFormat := by
  refine ⟨fun _ => ofJson_ok_iff, ?_, fun c h => ?_⟩
  · constructor
    · rintro ⟨error, herror⟩ ⟨members, c, hdescribes⟩
      rw [ofJson_ok_iff.2 ⟨members, hdescribes⟩] at herror
      cases herror
    · intro hnone
      cases hread : ofJson value with
      | error error => exact ⟨error, rfl⟩
      | ok c =>
        obtain ⟨members, hdescribes⟩ := ofJson_ok_iff.1 hread
        exact absurd ⟨members, c, hdescribes⟩ hnone
  · obtain ⟨members, -, hdescribes⟩ := ofJson_ok_iff.1 h
    obtain ⟨check, hasks⟩ := hdescribes.sensible.asks
    exact ⟨⟨check, hasks.ofOptions⟩, fun _ _ hoptions hothers ms => hdescribes.sensible.runs hoptions hothers ms,
      hdescribes.sensible.warnings⟩

/-- The text `{"origin_check": "any", "result_module": ["Api"], "output_format": "xml"}` is read, and runs with what it asks for go
through. Both warnings that are possible are given. -/
theorem odd_settings_run : ∃ value c,
    JsonValue.read "\x7b\"origin_check\": \"any\", \"result_module\": [\"Api\"], \"output_format\": \"xml\"\x7d".toList = .ok value ∧
      ofJson value = .ok c ∧ (∀ ms, ∃ results, ({ options := c.checkOptions } : Runner).runModules ms none = .ok results) ∧
      (∃ check, OriginCheck.ofOptions c.checkOptions.originCheck c.checkOptions.resultModule = .ok check) ∧ c.warnings.length = 2 := by
  have hread : JsonValue.read
      "\x7b\"origin_check\": \"any\", \"result_module\": [\"Api\"], \"output_format\": \"xml\"\x7d".toList =
        .ok (.object [("origin_check", .string "any"), ("result_module", .texts ["Api"]), ("output_format", .string "xml")]) := by
    cbv
  obtain ⟨hdescribed, -, hlater⟩ := accepted_settings_run
    (.object [("origin_check", .string "any"), ("result_module", .texts ["Api"]), ("output_format", .string "xml")])
  have hsettings : ofJson (.object [("origin_check", .string "any"), ("result_module", .texts ["Api"]),
      ("output_format", .string "xml")]) =
        .ok { originCheck := "any", resultModule := ["Api"], outputFormat := "xml" } := by
    decide +kernel
  obtain ⟨hcheck, hruns, -⟩ := hlater _ hsettings
  refine ⟨_, _, hread, hsettings, fun ms => hruns _ none rfl (fun checker hchecker => .inl ?_) ms, hcheck, by decide⟩
  exact List.mem_singleton.1 hchecker

end Config

end ElmLint
