import ElmLint.Config
import ElmLint.Proofs.Suppression

/-!
# Plain file patterns

A pattern without `*`, `?` and `[` matches the one file name that it is (`globMatches_iff_of_plain`). A suppression for such a
pattern also reaches every file whose name ends with it (`selectsFile_iff_of_plain`). That end can be made of whole components of
the name (`Text.EndsComponents`), or it can begin inside a component (`Text.CutsComponent`): the files that a plain pattern
selects are those of either sort (`covers_iff_endsComponents_or_cuts`).
-/

namespace ElmLint

/-! ## Patterns and names -/

namespace Text

/-- A pattern without the characters that stand for others. -/
def IsPlain (pattern : Text) : Prop :=
  ∀ p ∈ pattern.codePoints, p ≠ .char '*' ∧ p ≠ .char '?' ∧ p ≠ .char '['

/-- The pattern is a file name, or its last components: a slash stands before them. -/
def EndsComponents (pattern file : Text) : Prop :=
  file = pattern ∨ CodePoint.char '/' :: pattern.codePoints <:+ file.codePoints

/-- The pattern is the end of a file name, and begins inside one of its components: what stands before it is no slash. -/
def CutsComponent (pattern file : Text) : Prop :=
  ∃ p, p ≠ .char '/' ∧ p :: pattern.codePoints <:+ file.codePoints

instance (pattern : Text) : Decidable pattern.IsPlain :=
  inferInstanceAs (Decidable (∀ p ∈ pattern.codePoints, p ≠ .char '*' ∧ p ≠ .char '?' ∧ p ≠ .char '['))

instance (pattern file : Text) : Decidable (pattern.EndsComponents file) :=
  inferInstanceAs (Decidable (file = pattern ∨ CodePoint.char '/' :: pattern.codePoints <:+ file.codePoints))

theorem eq_iff_codePoints {s t : Text} : s = t ↔ s.codePoints = t.codePoints := by
  cases s
  cases t
  simp

/-- The end of a name is the whole of it, or something stands before it. -/
theorem suffix_iff_endsComponents_or_cuts (pattern file : Text) :
    pattern.codePoints <:+ file.codePoints ↔ pattern.EndsComponents file ∨ pattern.CutsComponent file := by
  constructor
  · rintro ⟨before, hbefore⟩
    rcases List.eq_nil_or_concat before with rfl | ⟨first, p, rfl⟩
    · exact .inl (.inl (eq_iff_codePoints.2 hbefore.symm))
    · have hsuffix : p :: pattern.codePoints <:+ file.codePoints := ⟨first, by simpa using hbefore⟩
      by_cases hslash : p = .char '/'
      · subst hslash
        exact .inl (.inr hsuffix)
      · exact .inr ⟨p, hslash, hsuffix⟩
  · rintro ((rfl | hsuffix) | ⟨p, -, hsuffix⟩)
    · exact List.suffix_rfl
    · exact (List.suffix_cons _ _).trans hsuffix
    · exact (List.suffix_cons _ _).trans hsuffix

/-- What stands before the end of a name is determined, so a pattern does not both end with components and cut one. -/
theorem CutsComponent.not_endsComponents {pattern file : Text} (h : pattern.CutsComponent file) :
    ¬ pattern.EndsComponents file := by
  obtain ⟨p, hslash, hsuffix⟩ := h
  rintro (rfl | hcomponents)
  · have hlength := hsuffix.length_le
    rw [List.length_cons] at hlength
    omega
  · have hlast := (List.suffix_of_suffix_length_le hsuffix hcomponents (by simp)).eq_of_length (by simp)
    exact hslash (List.cons.inj hlast).1

end Text

/-! ## Matching -/

namespace Glob

/-- A plain pattern is made of code points that stand for themselves. -/
theorem itemsFrom_of_plain : ∀ ps : List CodePoint,
    (∀ p ∈ ps, p ≠ .char '*' ∧ p ≠ .char '?' ∧ p ≠ .char '[') → itemsFrom 0 ps = ps.map .exact
  | [], _ => rfl
  | p :: ps, h => by
    obtain ⟨⟨hstar, hany, hset⟩, hps⟩ := List.forall_mem_cons.1 h
    rw [itemsFrom, itemsFrom_of_plain ps hps, List.map_cons]
    · exact hstar
    · exact hany
    · exact hset

/-- Code points that stand for themselves stand for no other text. -/
theorem accepts_map_exact : ∀ ps qs : List CodePoint, accepts (ps.map .exact) qs = true ↔ ps = qs
  | [], qs => by rw [List.map_nil, accepts, List.isEmpty_iff, eq_comm]
  | p :: ps, [] => by simp [accepts]
  | p :: ps, q :: qs => by simp [accepts, Item.accepts, accepts_map_exact ps qs]

theorem headD_forEnding (f : List CodePoint → Bool) (ps : List CodePoint) : (forEnding f ps).headD false = f ps := by
  cases ps <;> rfl

end Glob

theorem globMatches_eq_accepts (pattern name : Text) :
    globMatches pattern name = Glob.accepts (Glob.itemsFrom 0 pattern.codePoints) name.codePoints := by
  rw [globMatches, Glob.endings_eq, Glob.headD_forEnding]

/-- A plain pattern matches nothing but itself. -/
theorem globMatches_iff_of_plain {pattern name : Text} (h : pattern.IsPlain) : globMatches pattern name = true ↔ pattern = name := by
  rw [globMatches_eq_accepts, Glob.itemsFrom_of_plain _ h, Glob.accepts_map_exact, Text.eq_iff_codePoints]

/-! ## Suppressing in files -/

namespace Suppressions

/-- A plain pattern selects the files whose names end with it. -/
theorem selectsFile_iff_of_plain {pattern file : Text} (h : pattern.IsPlain) :
    selectsFile pattern file = true ↔ pattern.codePoints <:+ file.codePoints := by
  simp only [selectsFile, Bool.or_eq_true, beq_iff_eq, List.isSuffixOf_iff_suffix, globMatches_iff_of_plain h]
  constructor
  · rintro ((rfl | hsuffix) | rfl)
    · exact List.suffix_rfl
    · exact hsuffix
    · exact List.suffix_rfl
  · exact fun hsuffix => .inl (.inr hsuffix)

/-- When nothing else is suppressed, an id in the files of a plain pattern suppresses a diagnostic with that id in exactly the files
whose names end with the pattern, be it with whole components or inside one. So the files are those that the pattern names by whole
components, the whole name or what follows a slash, exactly when it does not begin inside a component. It makes no difference
whether the suppression is added by itself or read from settings. -/
theorem covers_iff_endsComponents_or_cuts {pattern id : Text} {d : Diagnostic} (hplain : pattern.IsPlain) (hid : id = d.errorId) :
    ((({} : Suppressions).addFile id pattern).covers d = true ↔ pattern.EndsComponents d.file ∨ pattern.CutsComponent d.file) ∧
      (((({} : Suppressions).addFile id pattern).covers d = true ↔ pattern.EndsComponents d.file) ↔
        ¬ pattern.CutsComponent d.file) ∧
      ({ fileSuppressions := [(pattern, [id])] } : Config).suppressed = ({} : Suppressions).addFile id pattern := by
  have hcovers : (({} : Suppressions).addFile id pattern).covers d = true ↔
      pattern.EndsComponents d.file ∨ pattern.CutsComponent d.file := by
    have hnone : ({} : Suppressions).covers d = false := rfl
    have hcovered : coversId id d = true := (coversId_iff id d).2 (.inl hid)
    rw [covers_addFile, hnone, Bool.false_or, hcovered, Bool.true_and, selectsFile_iff_of_plain hplain,
      Text.suffix_iff_endsComponents_or_cuts]
  refine ⟨hcovers, ?_, rfl⟩
  rw [hcovers]
  constructor
  · intro hends hcuts
    exact hcuts.not_endsComponents (hends.1 (.inr hcuts))
  · intro hcuts
    rw [or_iff_left hcuts]

/-- The name of a file without its directory selects the file. -/
theorem covers_last_component :
    ("Main.elm" : Text).IsPlain ∧ Text.EndsComponents "Main.elm" "src/Main.elm" ∧
      (({} : Suppressions).addFile "ignoredError" "Main.elm").covers (diagnosticInLineThree "src/Main.elm") = true := by
  have hplain : ("Main.elm" : Text).IsPlain := by decide +kernel
  have hends : Text.EndsComponents "Main.elm" "src/Main.elm" := by decide +kernel
  exact ⟨hplain, hends, (covers_iff_endsComponents_or_cuts hplain rfl).1.2 (.inl hends)⟩

/-- It also selects a file whose name ends with it in the middle of a component, though that file has another name. -/
theorem covers_inside_component :
    ("Main.elm" : Text).IsPlain ∧ ¬ Text.EndsComponents "Main.elm" "src/DomMain.elm" ∧
      (({} : Suppressions).addFile "ignoredError" "Main.elm").covers (diagnosticInLineThree "src/DomMain.elm") = true := by
  decide +kernel

end Suppressions

end ElmLint
