import ElmLint.Proofs.Lookup
import ElmLint.IgnoredError

/-!
# What the search for ignored errors finds

The search keeps a stack of patterns, takes one off at a time and puts its children in its place, unless it reports the
pattern. `Search.answer` is what has been found together with what there is to be found in the patterns on the stack; no step
changes it (`answer_visit`), so it is what a run ends with (`run_eq_answer`). The search of the arms therefore finds those among
all the patterns inside them, in their order, that it confirms (`classify_exact`): what it passes over after a finding is a
wildcard. In a parsed module the lookup table confirms what the scope of the module does, so the findings are told without any
table (`ignoredErrors_eq`).
-/

namespace ElmLint

namespace Pattern

/-- The finding that reports a pattern. -/
def finding (p : Pattern) : Finding := { range := p.range }

/-- Whether a pattern ignores an error, by the scope of its module: it is the error constructor with a wildcard as its only
argument, and under an exact check the scope leads it to the module in question. -/
def ignoresErrorIn (scope : Scope) (check : OriginCheck) : Pattern → Bool
  | named qualifier name [wildcard _] _ =>
    name == errorConstructor &&
      match check with
      | .any => true
      | .exact module => (scope.resolve qualifier name).map ModulePath.ofName == some module
  | _ => false

theorem exists_of_ignoresError {p : Pattern} (h : p.ignoresError = true) :
    ∃ qualifier w r, p = named qualifier errorConstructor [wildcard w] r := by
  unfold ignoresError at h
  split at h
  · rw [beq_iff_eq] at h
    subst h
    exact ⟨_, _, _, rfl⟩
  · cases h

theorem ignoresErrorIn_eq_false {p : Pattern} (h : p.ignoresError = false) (scope : Scope) (check : OriginCheck) :
    p.ignoresErrorIn scope check = false := by
  unfold ignoresErrorIn
  split
  · rw [ignoresError] at h
    rw [h, Bool.false_and]
  · rfl

end Pattern

/-- The patterns of a module that ignore errors: inside each arm of each of its `case` expressions. -/
def Module.ignoringPatterns (m : Module) (scope : Scope) (check : OriginCheck) : List Pattern :=
  m.expressions.flatMap fun e => e.armPatterns.flatMap fun p => p.subpatterns.filter (Pattern.ignoresErrorIn scope check)

/-! ## Searching patterns -/

section Classify

variable (resolver : Option Resolver) (check : OriginCheck)

namespace OriginCheck

/-- Whether a pattern is reported. -/
def reports (p : Pattern) : Bool := p.ignoresError && check.confirms resolver p

/-- Whether a pattern is resolved. -/
def resolves (p : Pattern) : Bool := p.ignoresError && check.consults resolver

/-- What there is to be found in patterns: all of them that are reported and all that are resolved, outer before inner and left
before right. -/
def classified (ps : List Pattern) : Classified where
  findings := ((Pattern.subpatternsOf ps).filter (check.reports resolver)).map Pattern.finding
  resolved := (Pattern.subpatternsOf ps).filter (check.resolves resolver)

end OriginCheck

/-- What a pattern that ignores an error has inside does not. -/
theorem Pattern.filter_children_of_ignoresError {p : Pattern} (h : p.ignoresError = true) (f : Pattern → Bool) :
    (subpatternsOf p.children).filter (fun c => c.ignoresError && f c) = [] := by
  obtain ⟨_, _, _, rfl⟩ := exists_of_ignoresError h
  rfl

namespace Classified

theorem append_assoc (a b c : Classified) : a ++ b ++ c = a ++ (b ++ c) :=
  congrArg₂ mk (List.append_assoc ..) (List.append_assoc ..)

theorem empty_append (a : Classified) : ({} : Classified) ++ a = a := rfl

theorem append_empty (a : Classified) : a ++ ({} : Classified) = a :=
  congrArg₂ mk (List.append_nil _) (List.append_nil _)

end Classified

namespace OriginCheck

theorem classified_append (ps qs : List Pattern) :
    check.classified resolver (ps ++ qs) = check.classified resolver ps ++ check.classified resolver qs := by
  simp only [classified, Pattern.subpatternsOf_eq, List.flatMap_append, List.filter_append, List.map_append]
  rfl

/-- A pattern comes before its children, and these before what follows it. -/
theorem classified_cons (p : Pattern) (ps : List Pattern) : check.classified resolver (p :: ps) =
    ⟨if check.reports resolver p then [p.finding] else [], if check.resolves resolver p then [p] else []⟩ ++
      check.classified resolver (p.children ++ ps) := by
  have hall : Pattern.subpatternsOf (p :: ps) = p :: Pattern.subpatternsOf (p.children ++ ps) := by
    rw [Pattern.subpatternsOf, Pattern.subpatterns_eq, Pattern.subpatternsOf_eq, Pattern.subpatternsOf_eq, List.flatMap_append,
      List.cons_append]
  simp only [classified, hall, List.filter_cons]
  split <;> split <;> rfl

/-- Nothing is missed by passing over the children of a pattern that is reported. -/
theorem classified_children {p : Pattern} (h : check.reports resolver p = true) (ps : List Pattern) :
    check.classified resolver (p.children ++ ps) = check.classified resolver ps := by
  have hshape : p.ignoresError = true := (Bool.and_eq_true_iff.1 h).1
  have hchildren : check.classified resolver p.children = {} :=
    congrArg₂ Classified.mk (congrArg (List.map Pattern.finding) (Pattern.filter_children_of_ignoresError hshape _))
      (Pattern.filter_children_of_ignoresError hshape _)
  rw [classified_append, hchildren, Classified.empty_append]

end OriginCheck

namespace Search

/-- What a search has found, and what there is to be found in the patterns on its stack. -/
def answer (s : Search) : Classified := s.found ++ check.classified resolver s.stack.toList.reverse

theorem visit_of_reports {s : Search} {p : Pattern} (h : check.reports resolver p = true) : s.visit resolver check p =
    ⟨s.stack.pop, s.found ++ ⟨[p.finding], if check.resolves resolver p then [p] else []⟩⟩ :=
  if_pos h

theorem visit_of_not_reports {s : Search} {p : Pattern} (h : ¬check.reports resolver p = true) : s.visit resolver check p =
    ⟨s.stack.pop ++ p.children.reverse, s.found ++ ⟨[], if check.resolves resolver p then [p] else []⟩⟩ :=
  if_neg h

/-- A step does not change what is found in the end. -/
theorem answer_visit {s : Search} {p : Pattern} (h : s.stack.back? = some p) :
    (s.visit resolver check p).answer resolver check = s.answer resolver check := by
  obtain ⟨stack, hstack⟩ := Array.back?_eq_some_iff.1 h
  have hnext : s.answer resolver check = s.found ++ check.classified resolver (p :: stack.toList.reverse) := by
    rw [answer, hstack, Array.toList_push, List.reverse_append, List.reverse_singleton, List.singleton_append]
  rw [hnext, OriginCheck.classified_cons, ← Classified.append_assoc]
  by_cases hreported : check.reports resolver p = true
  · rw [visit_of_reports resolver check hreported, OriginCheck.classified_children resolver check hreported,
      if_pos hreported, answer, hstack, Array.pop_push]
  · rw [visit_of_not_reports resolver check hreported, if_neg hreported, answer, hstack, Array.pop_push,
      Array.toList_appendList, List.reverse_append, List.reverse_reverse]

/-- A search ends with all that there is to be found. -/
theorem run_eq_answer (s : Search) : s.run resolver check = s.answer resolver check := by
  fun_induction run resolver check s with
  | case1 s h =>
    have hempty : s.stack = #[] := Array.back?_eq_none_iff.1 h
    rw [answer, hempty]
    exact (Classified.append_empty _).symm
  | case2 s p h ih => rw [ih, answer_visit resolver check h]

end Search

theorem classify_eq (ps : List Pattern) : classify resolver check ps = check.classified resolver ps := by
  rw [classify, Search.run_eq_answer, Search.answer, Search.start, List.reverse_reverse]
  exact Classified.empty_append _

/-- A search finds the patterns that are reported, outer before inner and left before right. -/
theorem findings_classify (ps : List Pattern) : (classify resolver check ps).findings =
    ((Pattern.subpatternsOf ps).filter (check.reports resolver)).map Pattern.finding := by
  rw [classify_eq, OriginCheck.classified]

/-- The resolver is asked about every pattern that looks like an ignored error, or about none. -/
theorem resolved_classify (ps : List Pattern) : (classify resolver check ps).resolved =
    if check.consults resolver then (Pattern.subpatternsOf ps).filter Pattern.ignoresError else [] := by
  rw [classify_eq, OriginCheck.classified]
  show (Pattern.subpatternsOf ps).filter (fun p => p.ignoresError && check.consults resolver) = _
  cases check.consults resolver with
  | false => simp only [Bool.and_false, List.filter_false, Bool.false_eq_true, if_false]
  | true => simp only [Bool.and_true, if_true]

theorem classify_append (ps qs : List Pattern) :
    classify resolver check (ps ++ qs) = classify resolver check ps ++ classify resolver check qs := by
  rw [classify_eq, classify_eq, classify_eq, OriginCheck.classified_append]

/-- Whatever the check, what is found is found among all that look like ignored errors. -/
theorem findings_classify_sublist_any (ps : List Pattern) :
    (classify resolver check ps).findings.Sublist (classify resolver .any ps).findings := by
  rw [findings_classify, findings_classify]
  refine List.Sublist.map _ (List.monotone_filter_right _ fun p hp => ?_)
  exact Bool.and_eq_true_iff.2 ⟨(Bool.and_eq_true_iff.1 hp).1, rfl⟩

/-- What a search does depends on the resolver only in what it says about the patterns that were resolved. -/
theorem classify_congr {resolve resolve' : Resolver} {ps : List Pattern}
    (h : ∀ p ∈ (classify (some resolve) check ps).resolved, resolve p = resolve' p) :
    classify (some resolve) check ps = classify (some resolve') check ps := by
  cases check with
  | any => rw [classify_eq, classify_eq]; rfl
  | exact module =>
    rw [resolved_classify] at h
    rw [classify_eq, classify_eq, OriginCheck.classified, OriginCheck.classified]
    refine congrArg₂ Classified.mk (congrArg _ (List.filter_congr fun p hp => ?_)) rfl
    cases hshape : p.ignoresError with
    | false => rw [OriginCheck.reports, OriginCheck.reports, hshape, Bool.false_and, Bool.false_and]
    | true =>
      have hsame : resolve p = resolve' p := h p (List.mem_filter.2 ⟨hp, hshape⟩)
      rw [OriginCheck.reports, OriginCheck.reports, OriginCheck.confirms, OriginCheck.confirms, hsame]

/-- **The search finds what it is meant to find.** A pattern counts if it is the error constructor with a wildcard as its only
argument. The search reports those among all patterns, outer before inner and left before right, that count and are
confirmed. It asks the resolver about those that count, once about each, when the check is for one module, and never
otherwise; whatever the resolver would say about other patterns makes no difference. So the searches of two lists make the search
of one after the other, and a check for one module leaves out some of what is found without it. -/
theorem classify_exact (ps : List Pattern) :
    (∀ p : Pattern, p.ignoresError = true ↔ ∃ qualifier w r, p = .named qualifier "Err" [.wildcard w] r) ∧
    (classify resolver check ps).findings =
      ((ps.flatMap Pattern.subpatterns).filter fun p => p.ignoresError && check.confirms resolver p).map
        (fun p => { range := p.range }) ∧
    (classify resolver check ps).resolved =
      (match check, resolver with
        | .exact _, some _ => (ps.flatMap Pattern.subpatterns).filter Pattern.ignoresError
        | .exact _, none => []
        | .any, _ => []) ∧
    (∀ resolve resolve' : Resolver, (∀ p ∈ (classify (some resolve) check ps).resolved, resolve p = resolve' p) →
      classify (some resolve) check ps = classify (some resolve') check ps) ∧
    (∀ qs, classify resolver check (ps ++ qs) = classify resolver check ps ++ classify resolver check qs) ∧
    (∀ module, (classify resolver (.exact module) ps).findings.Sublist (classify resolver .any ps).findings) := by
  refine ⟨fun p => ⟨Pattern.exists_of_ignoresError, ?_⟩, ?_, ?_, fun _ _ => classify_congr check,
    classify_append resolver check ps, fun module => findings_classify_sublist_any resolver _ ps⟩
  · rintro ⟨_, _, _, rfl⟩
    rfl
  · rw [← Pattern.subpatternsOf_eq]
    exact findings_classify resolver check ps
  · rw [← Pattern.subpatternsOf_eq, resolved_classify]
    cases check <;> cases resolver <;> rfl

end Classify

/-- The pattern `( Err _, Own.Err _ )`, whose second constructor is not the one of `Result`. -/
def twoErrors : Pattern :=
  .tuple [.named [] "Err" [.wildcard ⟨⟨1, 7⟩, ⟨1, 8⟩⟩] ⟨⟨1, 3⟩, ⟨1, 8⟩⟩,
    .named ["Own"] "Err" [.wildcard ⟨⟨1, 18⟩, ⟨1, 19⟩⟩] ⟨⟨1, 10⟩, ⟨1, 19⟩⟩] ⟨⟨1, 1⟩, ⟨1, 21⟩⟩

/-- The resolver is asked about both constructors, one of them is found, and no answer about the pair matters. -/
theorem classify_exact_twoErrors :
    (classify (some fun p => if p.range.start.column = 3 then some ["Result"] else some ["Own"]) (.exact ["Result"])
      [twoErrors]).findings = [{ range := ⟨⟨1, 3⟩, ⟨1, 8⟩⟩ }] ∧
    classify (some fun p => if p.range.start.column = 3 then some ["Result"] else some ["Own"]) (.exact ["Result"]) [twoErrors] =
      classify (some fun p => if p.range.start.column ≤ 3 then some ["Result"] else some ["Own"]) (.exact ["Result"])
        [twoErrors] := by
  obtain ⟨-, hfindings, hresolved, hcongr, -⟩ := classify_exact
    (some fun p => if p.range.start.column = 3 then some ["Result"] else some ["Own"]) (.exact ["Result"]) [twoErrors]
  refine ⟨hfindings.trans (by decide +kernel), hcongr _ _ ?_⟩
  rw [hresolved]
  decide

/-! ## Searching modules -/

namespace Module

variable {m : Module}

/-- The patterns inside the arms of a module are patterns of the module. -/
theorem mem_patterns_of_armPatterns {e : Expr} {p q : Pattern} (he : e ∈ m.expressions) (hp : p ∈ e.armPatterns)
    (hq : q ∈ p.subpatterns) : q ∈ m.patterns := by
  obtain ⟨f, hf, he⟩ := List.mem_flatMap.1 he
  have hbound : p ∈ e.boundPatterns := by
    cases e with
    | caseOf subject arms r => exact hp
    | _ => cases hp
  refine List.mem_flatMap.2 ⟨f, hf, List.mem_flatMap.2 ⟨p, ?_, hq⟩⟩
  exact List.mem_append_right _ (List.mem_flatMap.2 ⟨e, he, hbound⟩)

/-- The table of a module with different places confirms the patterns that its scope leads to the right module. -/
theorem reports_build (hnodup : (m.references.map Reference.range).Nodup) (manifest : Manifest) (check : OriginCheck)
    {q : Pattern} (hq : q ∈ m.patterns) :
    check.reports (some (LookupTable.build m manifest).resolver) q =
      q.ignoresErrorIn (Scope.ofModule m manifest.orCore) check := by
  cases hshape : q.ignoresError with
  | false => rw [OriginCheck.reports, hshape, Bool.false_and, Pattern.ignoresErrorIn_eq_false hshape]
  | true =>
    obtain ⟨qualifier, w, range, rfl⟩ := Pattern.exists_of_ignoresError hshape
    have hreference : ⟨.pattern, qualifier, errorConstructor, range⟩ ∈ m.references :=
      List.mem_append_left _ (List.mem_filterMap.2 ⟨_, hq, rfl⟩)
    have horigin := LookupTable.origin?_build hnodup manifest hreference
    cases check with
    | any => rfl
    | exact module =>
      simp only [OriginCheck.reports, Pattern.ignoresError, OriginCheck.confirms, LookupTable.resolver, Pattern.range,
        horigin, Pattern.ignoresErrorIn]
      cases (Scope.ofModule m manifest.orCore).resolve qualifier errorConstructor <;> rfl

/-- What the search finds in a module with different places are the patterns that ignore errors by its scope, in order. -/
theorem ignoredErrors_eq (hnodup : (m.references.map Reference.range).Nodup) (manifest : Manifest) (check : OriginCheck) :
    m.ignoredErrors (some (LookupTable.build m manifest).resolver) check =
      (m.ignoringPatterns (Scope.ofModule m manifest.orCore) check).map Pattern.finding := by
  rw [ignoredErrors, ignoringPatterns, List.map_flatMap]
  refine List.flatMap_congr fun e he => ?_
  rw [findings_classify, Pattern.subpatternsOf_eq, List.filter_flatMap]
  refine congrArg _ (List.flatMap_congr fun p hp => List.filter_congr fun q hq => ?_)
  exact reports_build hnodup manifest check (mem_patterns_of_armPatterns he hp hq)

end Module

end ElmLint
