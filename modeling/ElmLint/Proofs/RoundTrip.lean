import ElmLint.Proofs.Bare
import ElmLint.Proofs.LaidRendering
import ElmLint.Proofs.Parse

/-!
# Rendered expressions are read back

`Module.parse_render`: the source that an expression is rendered as is read as a module with one declaration, whose body is the
expression again, apart from the places in it. Layout puts the markers of the rendering into the text
(`exists_flush_render`), and the grammar reads the text to its end (`Grammar.takes_topLevel`). That is a module when every literal
of the expression has a value; a literal without one, such as an integer with too many digits, is all that is told of the source
otherwise (`Module.parse_render_of_valueless`).
-/

namespace ElmLint

namespace Grammar

variable {locate : Locate} {style : Style} {e : Expr}

/-- Nothing but the declaration of a function begins with `x`. -/
theorem takes_topItem (h : ExprReadBack locate style e) (indent : Nat) :
    Takes locate (Flush (.inr ['x'] :: .inr ['='] :: e.signs style indent)) (topItem locate)
      (fun item => ∃ body range, item = .declaration (.function ⟨"x", [], body, range, none⟩) ∧ body.bare = e.bare) (Indented []) := by
  have hname : IsLowerName "x" := by decide
  have hatomic : ∀ p ∈ ([] : List Pattern), p.isAtomic = true := fun _ hp => nomatch hp
  have hpatterns : ∀ p ∈ ([] : List Pattern), p.Renderable style := fun _ hp => nomatch hp
  have hsignature : Misses locate (Flush (.inr ['x'] :: .inr ['='] :: e.signs style indent)) (signature locate) :=
    misses_signature hname hpatterns
  have hfunction := takes_functionDecl hname hatomic hpatterns h indent endsExpr_nil
  rw [List.append_nil] at hfunction
  refine Misses.orElse (misses_at rfl rfl).map (Misses.orElse (misses_at rfl rfl).map (Misses.orElse (misses_at rfl rfl).map
    (Misses.orElse (misses_at rfl rfl).map (Misses.orElse (misses_at rfl rfl).map (Misses.orElse hsignature.map
      (hfunction.map fun decl hdecl => ?_))))))
  obtain ⟨name, arguments, body, range, annotation⟩ := decl
  simp only [LetDecl.bare, LetDecl.function.injEq, FunctionDecl.mk.injEq, List.map_nil, List.map_eq_nil_iff] at hdecl
  obtain ⟨rfl, rfl, hbody, -, rfl⟩ := hdecl
  exact ⟨body, range, rfl, hbody⟩

/-- A rendered expression is read back to the end of the text. -/
theorem takes_topLevel (h : ExprReadBack locate style e) (indent : Nat) :
    Takes locate (Flush (.inr ['x'] :: .inr ['='] :: e.signs style indent)) (topLevel locate)
      (fun items => ∃ body range, items = [.declaration (.function ⟨"x", [], body, range, none⟩)] ∧ body.bare = e.bare)
      (· = []) := by
  have hnone : ∀ c ∈ firstChar? [], (marker .separating).begins c = false := fun _ hc => nomatch hc
  have hseparator : Misses locate (Indented []) (gap *> marker .separating *> gap) :=
    (takes_gap.andThen_misses (misses_flush rfl hnone)).andThen
  have hitems : Takes locate (Flush (.inr ['x'] :: .inr ['='] :: e.signs style indent))
      (separated (gap *> marker .separating *> gap) (topItem locate))
      (fun items => ∃ body range, items = [.declaration (.function ⟨"x", [], body, range, none⟩)] ∧ body.bare = e.bare)
      (Indented []) := by
    refine ((takes_topItem h indent).seq hseparator.andThen.many).map ?_
    rintro ⟨item, items⟩ ⟨⟨body, range, rfl, hbody⟩, rfl⟩
    exact ⟨body, range, rfl, hbody⟩
  refine (((takes_gap.andThen hitems.opt).of fun _ => Flush.indented).andSkip (takes_gap.leaves fun _ => Flush.eq_nil)).map ?_
  rintro _ ⟨items, rfl, hitems⟩
  exact hitems

end Grammar

/-- The literals of what was read have no error when those of what was written have values. -/
theorem Expr.literalError?_eq_none_iff {e body : Expr} (h : body.bare = e.bare) : literalError? body.literals = none ↔ e.HasValues := by
  rw [ElmLint.literalError?_eq_none_iff, ← hasValues_congr h, HasValues, literalValues, List.forall_mem_map]

/-- The source of a rendered expression is scanned, and what is laid out is read to its end as the declaration. -/
theorem exists_readPhrase_render {style : Style} {e : Expr} (h : e.Renderable style) : ∃ scanned body range,
    Scanned.ofSource (e.render style).toList = .ok scanned ∧
      (LaidOut.ofScanned (e.render style).toList scanned).readPhrase Grammar.topLevel =
        .ok [.declaration (.function ⟨"x", [], body, range, none⟩)] ∧ body.bare = e.bare := by
  obtain ⟨scanned, hscanned, hflush⟩ := exists_flush_render h
  let l := LaidOut.ofScanned (e.render style).toList scanned
  have hback : Grammar.ExprReadBack l.range style e := Grammar.exprReadBack h
  rcases Grammar.takes_topLevel hback style.indent (Grammar.fuelFor l.text) (.start l.text) hflush with
    hfuel | ⟨items, next, hread, ⟨body, range, rfl, hbody⟩, hrest⟩
  · exact absurd hfuel (Grammar.readText_ne_exhausted _ _ _)
  · exact ⟨scanned, body, range, hscanned, LaidOut.readPhrase_ok_iff.2 ⟨next, hread, hrest⟩, hbody⟩

namespace Module

/-- Every expression that the grammar can give, that is rendered and whose literals have values is read back: the source that
declares `x` to be the expression, with each nested construct on a line of its own that is indented further, is read as a module
with this declaration only, and its body is the expression, apart from the places in it. -/
theorem parse_render (style : Style) (e : Expr) (h : e.Renderable style) (hvalues : e.HasValues) (file : String) :
    ∃ m body range, parse (e.render style) file = .ok m ∧ m.header = none ∧ m.imports = [] ∧
      m.declarations = [.function ⟨"x", [], body, range, none⟩] ∧ body.bare = e.bare := by
  obtain ⟨scanned, body, range, hscanned, hphrase, hbody⟩ := exists_readPhrase_render h
  let m := ofItems [.declaration (.function ⟨"x", [], body, range, none⟩)] scanned.comments file
  have hliterals : m.literals = body.literals := List.append_nil _
  have hnone : literalError? m.literals = none := by rw [hliterals, Expr.literalError?_eq_none_iff hbody]; exact hvalues
  exact ⟨m, body, range, (parse_ok_iff_of_scanned hscanned).2 ⟨_, hphrase, rfl, hnone⟩, rfl, rfl, rfl, hbody⟩

/-- When a literal of the expression has no value, its source is no module. -/
theorem parse_render_of_valueless {style : Style} {e : Expr} (h : e.Renderable style) (hvalues : ¬ e.HasValues) (file : String) :
    ∃ error, parse (e.render style) file = .error (.literal error) := by
  obtain ⟨scanned, body, range, hscanned, hphrase, hbody⟩ := exists_readPhrase_render h
  have hlaid := LaidOut.ofSource_ok_iff.2 ⟨scanned, hscanned, rfl⟩
  refine parse_of_holdsValuelessLiteral ((holdsValuelessLiteral_iff hlaid file).2 ⟨_, hphrase, ?_⟩) file
  have hliterals : (ofItems [.declaration (.function ⟨"x", [], body, range, none⟩)]
      (LaidOut.ofScanned (e.render style).toList scanned).comments file).literals = body.literals := List.append_nil _
  rwa [hliterals, Ne, Expr.literalError?_eq_none_iff hbody]

end Module

/-- Four blanks more for each nested construct. No number with a fraction is written. -/
def fourBlanks : Style := ⟨4, by decide, fun _ => []⟩

theorem renderable_digit {style : Style} {n : Nat} (h : n < 10) : (Literal.int n).Renderable style :=
  Nat.lt_of_lt_of_le h (Nat.le_self_pow (by decide) 10)

/-- A `case` on an application to a `let` in parentheses, with an operator and a function in its arms. -/
def matchedLet : Expr :=
  let binding : LetDecl Expr := .function ⟨"y", [.var "z" default], .literal (.int 1) default, default, none⟩
  let subject : Expr := .application (.reference [] "f" default)
    [.parenthesized (.letIn [binding] (.reference ["List"] "map" default) default) default] default
  let sum : Expr := .binary "+" (.reference [] "a" default) (.literal (.int 2) default) default
  let quote : Expr := .lambda [.wildcard default] (.literal (.string [34]) default) default
  .caseOf subject [⟨.named ["Maybe"] "Just" [.var "a" default] default, sum⟩, ⟨.wildcard default, quote⟩] default

theorem renderable_matchedLet : matchedLet.Renderable fourBlanks := by
  have ha : IsLowerName "a" := by decide
  have hf : IsLowerName "f" := by decide
  have hy : IsLowerName "y" := by decide
  have hz : IsLowerName "z" := by decide
  have hmap : IsLowerName "map" := by decide
  have hlist : IsUpperName "List" := by decide
  have hmaybe : IsUpperName "Maybe" := by decide
  have hjust : IsUpperName "Just" := by decide
  have hsum : (Expr.binary "+" (.reference [] "a" default) (.literal (.int 2) default) default).Renderable fourBlanks :=
    .binary _ (by decide) rfl rfl (.reference _ (by simp) (.inr ha)) (.literal _ (renderable_digit (by decide)))
  have hquote : (Expr.lambda [.wildcard default] (.literal (.string [34]) default) default).Renderable fourBlanks :=
    .lambda _ (by simp) (by simp [Pattern.isAtomic]) (List.forall_mem_singleton.2 (.wildcard _)) (.literal _ trivial)
  have hpattern : (Pattern.named ["Maybe"] "Just" [.var "a" default] default).Renderable fourBlanks :=
    .named _ (List.forall_mem_cons.2 ⟨hmaybe, List.forall_mem_singleton.2 hjust⟩) (by simp [Pattern.isAtomic])
      (List.forall_mem_singleton.2 (.var _ ha))
  have hlet : (Expr.letIn [.function ⟨"y", [.var "z" default], .literal (.int 1) default, default, none⟩]
      (.reference ["List"] "map" default) default).Renderable fourBlanks :=
    .letIn _ (by simp)
      (List.forall_mem_singleton.2 ⟨rfl, hy, by simp [Pattern.isAtomic], List.forall_mem_singleton.2 (.var _ hz)⟩)
      (List.forall_mem_singleton.2 (.literal _ (renderable_digit (by decide))))
      (.reference _ (List.forall_mem_singleton.2 hlist) (.inr hmap))
  refine .caseOf _ (by simp) (List.forall_mem_cons.2 ⟨hpattern, List.forall_mem_singleton.2 (.wildcard _)⟩) ?_
    (List.forall_mem_cons.2 ⟨hsum, List.forall_mem_singleton.2 hquote⟩)
  exact .application _ (by simp) rfl (by simp [Expr.isAtomic]) (.reference _ (by simp) (.inr hf))
    (List.forall_mem_singleton.2 (.parenthesized _ hlet))

namespace Module

set_option maxRecDepth 100000 in
theorem parse_render_matchedLet :
    matchedLet.render fourBlanks = "\n".intercalate ["x =", "    case", "        f", "            (", "                let",
      "                    y z =", "                        1", "                in", "                    List.map", "            )",
      "    of", "        Maybe.Just a ->", "                a", "            +", "                2", "        _ ->",
      "            \\ _ ->", "                \"\\u\x7b22\x7d\""] ∧
    ∃ m body range, parse (matchedLet.render fourBlanks) "Main.elm" = .ok m ∧ m.header = none ∧ m.imports = [] ∧
      m.declarations = [.function ⟨"x", [], body, range, none⟩] ∧ body.bare = matchedLet.bare :=
  ⟨by decide +kernel, parse_render fourBlanks matchedLet renderable_matchedLet (by decide +kernel) "Main.elm"⟩

end Module

/-- An integer is written like its digits when they have no value. -/
theorem Literal.words_valueless (style : Style) (n : Nat) :
    words style (.valueless (String.ofList (Nat.toDigits 10 n))) = words style (.int n) := by
  rw [words, words, String.toList_ofList]

/-- A one with too many zeros, as it is read. -/
theorem renderable_longInteger {style : Style} {k : Nat} (h : Literal.maxDigits ≤ k) :
    (Literal.valueless (String.ofList (Nat.toDigits 10 (10 ^ k)))).Renderable style :=
  ⟨10 ^ k, Nat.pow_le_pow_right (by decide) h, String.toList_ofList⟩

namespace Module

/-- A one with 4300 zeros is rendered as the digits that it has, and its source is no module: an integer with so many digits has
no value. -/
theorem parse_render_longInteger :
    (Expr.literal (.int (10 ^ 4300)) default).render fourBlanks = String.ofList ("x =\n    1".toList ++ List.replicate 4300 '0') ∧
      ¬ ∃ m, parse ((Expr.literal (.int (10 ^ 4300)) default).render fourBlanks) "Main.elm" = .ok m := by
  have hsame : ∀ n, (Expr.literal (.int n) default).render fourBlanks =
      (Expr.literal (.valueless (String.ofList (Nat.toDigits 10 n))) default).render fourBlanks := by
    intro n
    simp only [Expr.render, Expr.declared, Expr.marked, Literal.words_valueless]
  have hdigits : ∀ k, (Expr.literal (.int (10 ^ k)) default).render fourBlanks =
      String.ofList ("x =\n    1".toList ++ List.replicate k '0') := by
    intro k
    simp [Expr.render, Expr.declared, Expr.marked, Literal.words, toDigits_pow (by decide : 1 < 10), lineOf, fourBlanks, Spot.text,
      Gap.text]
  refine ⟨hdigits 4300, ?_⟩
  have hvalueless : ∀ text, ¬ (Expr.literal (.valueless text) default).HasValues := fun _ =>
    mt Expr.hasValues_literal.1 (Option.some_ne_none _)
  rw [hsame]
  obtain ⟨error, herror⟩ :=
    parse_render_of_valueless (.literal default (renderable_longInteger (k := 4300) (by decide))) (hvalueless _) "Main.elm"
  rintro ⟨m, hm⟩
  cases herror.symm.trans hm

end Module

end ElmLint
