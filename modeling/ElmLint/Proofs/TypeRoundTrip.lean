import ElmLint.Proofs.PatternRoundTrip
import ElmLint.Proofs.WrittenTypes

/-!
# Written type annotations are read back

`TypeExpr.render` writes a type annotation down on one line, with a blank between each two words and parentheses around the arguments
that need them. The rule for types reads the annotation back, up to the end of the text: from the text as it stands, and from the
laid-out text, in which layout puts no marker (`Layout.wordSteps_type`).

* `TypeExpr.readType_render`: every type annotation that the grammar can give is read back, apart from the places in it.
-/

namespace ElmLint

/-- A type annotation on one line, with single blanks between its words. -/
def TypeExpr.render (t : TypeExpr) : String := String.ofList ([' '].intercalate t.words)

/-! ## Layout of the words -/

namespace Layout

section Balanced

variable {blocks : List Block} {depth : Nat}

/-- Words that close the brackets they open still do so with parentheses around them. -/
theorem wordSteps_grouped {words : List (List Char)} (needed : Bool)
    (h : ∀ {depth : Nat}, depthOf blocks ≤ depth → WordSteps blocks depth words depth) (hdepth : depthOf blocks ≤ depth) :
    WordSteps blocks depth (TypeExpr.grouped needed words) depth := by
  cases needed with
  | true => exact (h (Nat.le_succ_of_le hdepth)).bracketed (by decide) (by decide) hdepth
  | false => exact h hdepth

theorem wordSteps_listed (hdepth : depthOf blocks < depth) {items : List (List (List Char))}
    (h : ∀ item ∈ items, WordSteps blocks depth item depth) : WordSteps blocks depth (TypeExpr.listed items) depth := by
  cases items with
  | nil => rfl
  | cons item items =>
    obtain ⟨hitem, hitems⟩ := List.forall_mem_cons.1 h
    exact hitem.append (wordSteps_flatMap fun later hlater => ⟨depth, .comma hdepth, hitems later hlater⟩)

theorem wordSteps_base {base : Option String} (h : ∀ name ∈ base, IsLowerName name) :
    WordSteps blocks depth (TypeExpr.baseWords base) depth := by
  cases base with
  | none => rfl
  | some name => exact ⟨depth, .plain (isPlainWord_lowerName (h name rfl)), wordSteps_plain (isPlainWord_symbol "|" (by decide))⟩

/-- The words of a type annotation close the brackets that they open. -/
theorem wordSteps_type {t : TypeExpr} (h : t.Renderable) :
    ∀ {depth : Nat}, depthOf blocks ≤ depth → WordSteps blocks depth t.words depth := by
  induction h with
  | var _ hname =>
    intro depth _
    rw [TypeExpr.words]
    exact wordSteps_plain (isPlainWord_lowerName hname)
  | @reference qualifier name arguments _ hsegments _ ih =>
    intro depth hdepth
    have hname : IsPlainWord (qualifiedWord qualifier name) :=
      isPlainWord_qualifiedWord (fun s hs => hsegments s (List.mem_append_left _ hs)) (.inl (hsegments name (by simp)))
    rw [TypeExpr.words, TypeExpr.argumentWords_eq_flatMap]
    exact ⟨depth, .plain hname, wordSteps_flatMap fun t ht => wordSteps_grouped _ (ih t ht) hdepth⟩
  | unit _ =>
    intro depth hdepth
    have hnone : WordSteps blocks (depth + 1) [] (depth + 1) := rfl
    rw [TypeExpr.words]
    exact hnone.bracketed (by decide) (by decide) hdepth
  | tuple _ _ _ ih =>
    intro depth hdepth
    rw [TypeExpr.words, TypeExpr.wordsEach_eq_map]
    refine (wordSteps_listed (Nat.lt_succ_of_le hdepth) (List.forall_mem_map.2 fun t ht => ?_)).bracketed (by decide) (by decide) hdepth
    exact ih t ht (Nat.le_succ_of_le hdepth)
  | record _ hbase hnames _ ih =>
    intro depth hdepth
    rw [TypeExpr.words, TypeExpr.fieldWords_eq_map]
    refine ((wordSteps_base hbase).append (wordSteps_listed (Nat.lt_succ_of_le hdepth)
      (List.forall_mem_map.2 fun field hfield => ?_))).bracketed (by decide) (by decide) hdepth
    exact ⟨_, .plain (isPlainWord_lowerName (hnames field hfield)), _, .plain (isPlainWord_symbol ":" (by decide)),
      ih field hfield (Nat.le_succ_of_le hdepth)⟩
  | function _ _ _ ihArgument ihResult =>
    intro depth hdepth
    rw [TypeExpr.words]
    exact (wordSteps_grouped _ ihArgument hdepth).append ⟨depth, .plain (isPlainWord_symbol "->" (by decide)), ihResult hdepth⟩

end Balanced

end Layout

/-! ## Reading a whole text -/

/-- Words with blanks before them come after a word. -/
theorem after_blanks {words : List (List Char)} (h : ∀ w ∈ words, IsWord w) :
    After (words.map .inr) ((spotsOf (words.map fun w => .inr ⟨.blank, w⟩)).flatMap Spot.text) ∧
      Layout.EndsTight ((spotsOf (words.map fun w => .inr ⟨.blank, w⟩)).flatMap Spot.text) := by
  induction words with
  | nil => exact ⟨⟨(fun _ hc => nomatch hc), .nil⟩, fun _ hc => nomatch hc⟩
  | cons w words ih =>
    obtain ⟨hw, hwords⟩ := List.forall_mem_cons.1 h
    obtain ⟨hafter, htight⟩ := ih hwords
    obtain ⟨c, cs, rfl, hc⟩ := hw.begins
    rw [List.map_cons, List.map_cons, spotsOf_spot, List.flatMap_cons, Spot.text, List.append_assoc]
    exact ⟨Layout.after_gap .blank (.word hc hafter.1 hafter.2), htight.word hw _⟩

/-- Words with single blanks between them are all that is in the text, which ends with the last of them. -/
theorem flush_line {words : List (List Char)} (hne : words ≠ []) (h : ∀ w ∈ words, IsWord w) :
    Flush (words.map .inr) ([' '].intercalate words) ∧ Layout.EndsTight ([' '].intercalate words) := by
  obtain ⟨w, words, rfl⟩ := List.exists_cons_of_ne_nil hne
  obtain ⟨hw, hwords⟩ := List.forall_mem_cons.1 h
  obtain ⟨hafter, htight⟩ := after_blanks hwords
  obtain ⟨c, cs, rfl, hc⟩ := hw.begins
  rw [intercalate_blank]
  exact ⟨.word hc hafter.1 hafter.2, htight.word hw []⟩

/-- A text that has the words of a type annotation and ends with the last of them is read as the annotation. -/
theorem TypeExpr.readPhrase_of_flush {t : TypeExpr} (h : t.Renderable) {l : LaidOut} (hflush : Flush (t.words.map .inr) l.text)
    (htight : Layout.EndsTight l.text) : ∃ t', l.readPhrase Grammar.typeExpr = .ok t' ∧ t'.bare = t.bare := by
  have hback : Grammar.TypeReadBack l.range t := Grammar.readBackType h
  have htakes := Grammar.takes_of_rule (hback.whole [] Grammar.endsType_nil)
  rw [List.append_nil] at htakes
  exact LaidOut.readPhrase_of_takes htakes hflush htight

/-- **Reading undoes writing, for all type annotations.** Every type annotation that the grammar can give, written down on one line with
parentheses around the functions to the left of arrows and around the functions and the types with arguments among arguments, is read
by the rule for types to the end of the text, both as it stands and laid out; what is read is the annotation, apart from the places in
it. -/
theorem TypeExpr.readType_render (t : TypeExpr) (h : t.Renderable) :
    (∃ t', (LaidOut.plain t.render.toList).readPhrase Grammar.typeExpr = .ok t' ∧ t'.bare = t.bare) ∧
      ∃ l t', LaidOut.parse t.render = .ok l ∧ l.readPhrase Grammar.typeExpr = .ok t' ∧ t'.bare = t.bare := by
  have hback : Grammar.TypeReadBack (fun _ _ => default) t := Grammar.readBackType h
  obtain ⟨w, words, hwords, -⟩ := hback.begun
  have hne : t.words ≠ [] := hwords ▸ List.cons_ne_nil w words
  have hsteps : Layout.WordSteps [] 0 t.words 0 := Layout.wordSteps_type h (Nat.le_refl 0)
  have hsource : t.render.toList = [' '].intercalate t.words := String.toList_ofList
  constructor
  · obtain ⟨hflush, htight⟩ := flush_line hne hsteps.isWord
    rw [hsource]
    exact readPhrase_of_flush h hflush htight
  · obtain ⟨scanned, hscanned, hflush, htight⟩ := exists_flush_line hne hsteps
    obtain ⟨t', hread, hbare⟩ := readPhrase_of_flush h hflush htight
    refine ⟨_, t', LaidOut.parse_ok_iff.2 (LaidOut.ofSource_ok_iff.2 ⟨scanned, ?_, rfl⟩), ?_, hbare⟩
    · rw [hsource]
      exact hscanned
    · rw [hsource]
      exact hread

/-- A type annotation of all kinds, with functions and types with arguments where they need parentheses and where they do not. -/
def allTypeKinds : TypeExpr :=
  let named (name : String) : TypeExpr := .reference [] name [] default
  let found : TypeExpr := .reference ["Maybe"] "Maybe" [.reference [] "List" [named "Int"] default] default
  let table : TypeExpr := .reference ["Dict"] "Dict" [named "String", .function (.var "a" default) (.var "b" default) default] default
  let model : TypeExpr := .record [⟨"f", .unit default, default⟩, ⟨"g", .tuple [named "Int", table] default, default⟩] (some "r") default
  .function (.function (.var "a" default) found default) (.function model (.record [] none default) default) default

theorem renderable_allTypeKinds : allTypeKinds.Renderable := by
  have hnamed : ∀ name, IsUpperName name → (TypeExpr.reference [] name [] default).Renderable :=
    fun name hname => .reference _ (by simpa using hname) (fun _ ht => nomatch ht)
  have hvar : ∀ name, IsLowerName name → (TypeExpr.var name default).Renderable := fun name hname => .var _ hname
  have hlist : (TypeExpr.reference [] "List" [.reference [] "Int" [] default] default).Renderable :=
    .reference _ (by decide) (List.forall_mem_singleton.2 (hnamed "Int" (by decide)))
  have harrow : (TypeExpr.function (.var "a" default) (.var "b" default) default).Renderable :=
    .function _ (hvar "a" (by decide)) (hvar "b" (by decide))
  refine .function _ (.function _ (hvar "a" (by decide)) (.reference _ (by decide) (List.forall_mem_singleton.2 hlist)))
    (.function _ (.record _ (by decide) (by decide) (List.forall_mem_cons.2 ⟨.unit _, List.forall_mem_singleton.2 ?_⟩))
      (.record _ (by decide) (by decide) (fun _ hfield => nomatch hfield)))
  refine .tuple _ (by decide) (List.forall_mem_cons.2 ⟨hnamed "Int" (by decide), List.forall_mem_singleton.2 ?_⟩)
  exact .reference _ (by decide) (List.forall_mem_cons.2 ⟨hnamed "String" (by decide), List.forall_mem_singleton.2 harrow⟩)

theorem TypeExpr.readType_render_allTypeKinds :
    allTypeKinds.render = "( a -> Maybe.Maybe ( List Int ) ) -> " ++
      "\x7b r | f : ( ) , g : ( Int , Dict.Dict String ( a -> b ) ) \x7d -> \x7b \x7d" ∧
    (∃ t', (LaidOut.plain allTypeKinds.render.toList).readPhrase Grammar.typeExpr = .ok t' ∧ t'.bare = allTypeKinds.bare) ∧
      ∃ l t', LaidOut.parse allTypeKinds.render = .ok l ∧ l.readPhrase Grammar.typeExpr = .ok t' ∧ t'.bare = allTypeKinds.bare :=
  ⟨by decide +kernel, TypeExpr.readType_render allTypeKinds renderable_allTypeKinds⟩

end ElmLint
