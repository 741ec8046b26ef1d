import ElmLint.Proofs.JsonRoundTrip
import ElmLint.Run

/-!
# Results as lines of JSON

What a diagnostic is written as is read back (`Diagnostic.read_renderJson`), and tells diagnostics apart by all that is written of them
(`Diagnostic.same_of_toJson`). No line breaks are written, so the lines of a result are those of its diagnostics
(`RunResults.splitOn_renderJson`).

* `RunResults.jsonLines_lossless`: what a diagnostic is written as, what is read from it, and what the lines of a result are.
-/

namespace ElmLint

namespace JsonValue

/-- The halves of surrogate pairs are no characters, so a string holds none. -/
theorem unpaired_ofString (s : String) : Unpaired (Text.ofString s).codePoints := by
  have hchar : ∀ c : Char, ¬ isHighSurrogate c.toNat = true := by
    intro c
    have hvalid := toNat_valid c
    simp only [isHighSurrogate, Bool.and_eq_true, decide_eq_true_eq]
    omega
  exact (List.pairwise_map.2 (List.pairwise_of_forall fun c _ h => hchar c h.1)).isChain

theorem restorable_ofString (s : String) : Restorable (.string s) := .string (unpaired_ofString s)

theorem restorable_strings (items : List String) : (strings items).Restorable := by
  refine .array fun item hitem => ?_
  rw [List.map_map] at hitem
  obtain ⟨s, -, rfl⟩ := List.mem_map.1 hitem
  exact restorable_ofString s

theorem ofNat_inj {m n : Nat} (h : ofNat m = ofNat n) : m = n := by
  have hdigits : Nat.toDigits 10 m = Nat.toDigits 10 n := String.ofList_inj.1 (number.inj h)
  rw [← decimalNumber_toDigits m, hdigits, decimalNumber_toDigits]

theorem ofString_inj {s t : String} (h : string (Text.ofString s) = string (Text.ofString t)) : s = t :=
  Text.ofString_injective (string.inj h)

theorem strings_inj {ss ts : List String} (h : strings ss = strings ts) : ss = ts := by
  have hitems := array.inj h
  rw [List.map_map, List.map_map] at hitems
  exact List.map_injective_iff.2 (fun _ _ => ofString_inj) hitems

end JsonValue

theorem Severity.name_inj {s t : Severity} (h : s.name = t.name) : s = t := by
  cases s <;> cases t <;> first | rfl | exact absurd h (by decide)

theorem SourceRange.eq_of_places : ∀ {r s : SourceRange}, r.start.row = s.start.row → r.start.column = s.start.column →
    r.stop.row = s.stop.row → r.stop.column = s.stop.column → r = s
  | ⟨⟨_, _⟩, ⟨_, _⟩⟩, ⟨⟨_, _⟩, ⟨_, _⟩⟩, rfl, rfl, rfl, rfl => rfl

namespace Diagnostic

variable {d e : Diagnostic}

/-! ## One diagnostic -/

/-- The names of the fields that are written. -/
def fieldNames : List String :=
  ["file", "line", "column", "endLine", "endColumn", "severity", "message", "details", "errorId", "checker", "addon"]

theorem toJson_eq (d : Diagnostic) : ∃ members, d.toJson = .object members ∧ members.map Prod.fst = fieldNames.map Text.ofString :=
  ⟨_, rfl, rfl⟩

theorem restorable_toJson (d : Diagnostic) : d.toJson.Restorable := by
  refine .object (?_ : (fieldNames.map Text.ofString).Nodup) (fun member hmember => ?_) ?_
  · decide
  · have hname : member.1 ∈ fieldNames.map Text.ofString := List.mem_map_of_mem hmember
    obtain ⟨name, -, heq⟩ := List.mem_map.1 hname
    rw [← heq]
    exact JsonValue.unpaired_ofString name
  · simp only [List.forall_mem_cons]
    exact ⟨JsonValue.restorable_ofString _, .ofNat _, .ofNat _, .ofNat _, .ofNat _, JsonValue.restorable_ofString _,
      JsonValue.restorable_ofString _, JsonValue.restorable_strings _, JsonValue.restorable_ofString _,
      JsonValue.restorable_ofString _, JsonValue.restorable_ofString _, List.forall_mem_nil _⟩

theorem toList_renderJson (d : Diagnostic) : d.renderJson.toList = d.toJson.encode := String.toList_ofList

theorem printable_renderJson (d : Diagnostic) : ∀ c ∈ d.renderJson.toList, IsPrintableAscii c := by
  rw [toList_renderJson]
  exact JsonValue.printable_encode d.restorable_toJson

theorem newline_notMem_renderJson (d : Diagnostic) : '\n' ∉ d.renderJson.toList := fun h =>
  absurd (d.printable_renderJson _ h) (by decide)

theorem read_renderJson (d : Diagnostic) : JsonValue.read d.renderJson.toList = .ok d.toJson := by
  rw [toList_renderJson]
  exact JsonValue.read_encode d.restorable_toJson

/-- Two diagnostics agree in all that is written of them: they may differ in how certain they are and in what they rest on. -/
structure Agree (d e : Diagnostic) : Prop where
  file : d.file = e.file
  range : d.range = e.range
  severity : d.severity = e.severity
  message : d.message = e.message
  details : d.details = e.details
  errorId : d.errorId = e.errorId
  checker : d.checker = e.checker

theorem agree_of_toJson (h : d.toJson = e.toJson) : Agree d e := by
  simp only [toJson, JsonValue.object.injEq, List.cons.injEq, Prod.mk.injEq, true_and, and_true] at h
  obtain ⟨hfile, hrow, hcolumn, hrow', hcolumn', hseverity, hmessage, hdetails, hid, hchecker⟩ := h
  exact {
    file := JsonValue.ofString_inj hfile
    range := SourceRange.eq_of_places (JsonValue.ofNat_inj hrow) (JsonValue.ofNat_inj hcolumn) (JsonValue.ofNat_inj hrow')
      (JsonValue.ofNat_inj hcolumn')
    severity := Severity.name_inj (JsonValue.ofString_inj hseverity)
    message := JsonValue.ofString_inj hmessage
    details := JsonValue.strings_inj hdetails
    errorId := JsonValue.ofString_inj hid
    checker := JsonValue.ofString_inj hchecker }

/-- Diagnostics that are written alike agree. -/
theorem agree_of_renderJson (h : d.renderJson = e.renderJson) : Agree d e := by
  have hread := d.read_renderJson
  rw [h, e.read_renderJson] at hread
  exact agree_of_toJson (Except.ok.inj hread).symm

end Diagnostic

namespace RunResults

/-! ## Results -/

/-- The lines of a result are those of its diagnostics, in their order. -/
theorem splitOn_renderJson {r : RunResults} (h : r.diagnostics ≠ []) :
    r.renderJson.toList.splitOn '\n' = r.diagnostics.map (·.renderJson.toList) := by
  have hlines : ∀ line ∈ r.diagnostics.map (·.renderJson.toList), '\n' ∉ line := by
    intro line hline
    obtain ⟨d, -, rfl⟩ := List.mem_map.1 hline
    exact d.newline_notMem_renderJson
  have htext : r.renderJson.toList = ['\n'].intercalate (r.diagnostics.map (·.renderJson.toList)) := by
    rw [renderJson, String.toList_intercalate, List.map_map]
    rfl
  rw [htext, List.splitOn_intercalate _ hlines (by simpa using h)]

/-- Lines of JSON lose nothing. A diagnostic is written in printable ASCII characters only, without a line break; reading that gives the
object of its eleven fields, and diagnostics that are written alike agree in all of them. If there are any diagnostics, the result is
cut at its line breaks into the lines of its diagnostics, in their order, and each of them is read as the object of its diagnostic. -/
theorem jsonLines_lossless :
    (∀ d : Diagnostic, (∀ c ∈ d.renderJson.toList, IsPrintableAscii c) ∧ '\n' ∉ d.renderJson.toList ∧ '\r' ∉ d.renderJson.toList ∧
      JsonValue.read d.renderJson.toList = .ok d.toJson ∧
      ∃ members, d.toJson = .object members ∧ members.map Prod.fst = Diagnostic.fieldNames.map Text.ofString) ∧
    (∀ d e : Diagnostic, d.renderJson = e.renderJson → d.Agree e) ∧
    ∀ r : RunResults, r.diagnostics ≠ [] →
      r.renderJson.toList.splitOn '\n' = r.diagnostics.map (·.renderJson.toList) ∧
      (r.renderJson.toList.splitOn '\n').map JsonValue.read = r.diagnostics.map fun d => .ok d.toJson := by
  refine ⟨fun d => ⟨d.printable_renderJson, d.newline_notMem_renderJson, fun h => ?_, d.read_renderJson, d.toJson_eq⟩,
    fun _ _ => Diagnostic.agree_of_renderJson, fun r h => ⟨splitOn_renderJson h, ?_⟩⟩
  · exact absurd (d.printable_renderJson _ h) (by decide)
  · rw [splitOn_renderJson h, List.map_map]
    exact List.map_congr_left fun d _ => by rw [Function.comp_apply, d.read_renderJson]

/-- A diagnostic with a quote, a backslash, a line break, a delete character and a character beyond the basic plane. -/
def escaped : Diagnostic where
  errorId := "ignoredError"
  message := "\"\\\n\x7f😀"
  severity := .warning
  file := "src/Ünter.elm"
  range := ⟨⟨3, 5⟩, ⟨3, 10⟩⟩
  details := ["", "\t"]

theorem jsonLines_lossless_escaped :
    escaped.renderJson = { escaped with confidence := .high }.renderJson ∧ escaped.Agree { escaped with confidence := .high } ∧
    [escaped, { escaped with message := "" }] ≠ [] ∧
    (({ diagnostics := [escaped, { escaped with message := "" }] } : RunResults).renderJson.toList.splitOn '\n').map JsonValue.read =
      [.ok escaped.toJson, .ok { escaped with message := "" }.toJson] := by
  have hsame : escaped.renderJson = { escaped with confidence := .high }.renderJson :=
    congrArg JsonValue.render (rfl : escaped.toJson = { escaped with confidence := .high }.toJson)
  have hsome : [escaped, { escaped with message := "" }] ≠ [] := List.cons_ne_nil _ _
  exact ⟨hsame, jsonLines_lossless.2.1 _ _ hsame, hsome,
    (jsonLines_lossless.2.2 { diagnostics := [escaped, { escaped with message := "" }] } hsome).2⟩

end RunResults

end ElmLint
