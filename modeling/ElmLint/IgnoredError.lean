import ElmLint.Lookup

/-!
# Ignored errors

An arm of a `case` that matches `Err _` throws away the reason of a failure. Which `Err` is meant is decided by an
`OriginCheck`: the constructor has to come from a given module, or any constructor of that name counts.

* `classify` searches patterns for ignored errors, and tells which patterns it had to resolve.
* `Module.ignoredErrors` searches the arms of every `case` in a module.
-/

namespace ElmLint

/-- An ignored error: its place, and what is said about it. -/
structure Finding where
  range : SourceRange
  message : String := "The error is being ignored."
  details : List String :=
    ["Please check whether the error can't be used to improve the situation for the user. You can for instance display " ++
     "the error message to the user or re-attempt the operation."]
deriving Repr, DecidableEq, Inhabited

/-! ## Origin checks -/

/-- Which constructors named `Err` count. -/
inductive OriginCheck where
  /-- Those of one module; a reference that cannot be resolved does not count. -/
  | exact (module : ModulePath)
  /-- All of them. -/
  | any
deriving Repr, DecidableEq, Inhabited

/-- How a module is asked for the origin of a constructor pattern. -/
abbrev Resolver := Pattern → Option ModuleName

namespace OriginCheck

/-- The module of the constructor that is meant when nothing else is said. -/
def resultModule : ModulePath := ["Result"]

/-- Whether a constructor pattern counts. Without a resolver nothing is known to come from a module. -/
def confirms (check : OriginCheck) (resolver : Option Resolver) (p : Pattern) : Bool :=
  match check, resolver with
  | any, _ => true
  | exact _, none => false
  | exact module, some resolve => (resolve p).any fun origin => ModulePath.ofName origin == module

/-- Whether the resolver is asked at all. -/
def consults (check : OriginCheck) (resolver : Option Resolver) : Bool :=
  match check with
  | any => false
  | exact _ => resolver.isSome

/-- The name of the kind of check in options. -/
def name : OriginCheck → String
  | exact _ => "exact"
  | any => "any"

/-- The segments of a module's name, quoted and in parentheses. A single one is followed by a comma. -/
def describeModule (module : ModulePath) : String :=
  let items := ", ".intercalate (module.map quoted)
  if module.length == 1 then "(" ++ items ++ ",)" else "(" ++ items ++ ")"

/-- The check with its module, for the evidence of a diagnostic. -/
def describe : OriginCheck → String
  | exact module => "ExactModule(" ++ describeModule module ++ ")"
  | any => "AnyOrigin()"

end OriginCheck

/-- Why options give no origin check. -/
inductive OriginCheckError where
  | unknownKind (kind : Text)
  | invalidModule (module : ModulePath)
deriving Repr, DecidableEq, Inhabited

/-- The failure that reports the error. -/
def OriginCheckError.failure : OriginCheckError → Failure
  | unknownKind kind => {
      kind := .configuration
      message := "unknown origin check " ++ quoted kind ++ "; expected 'exact' or 'any'"
      code := .unknownOption }
  | invalidModule module => {
      kind := .configuration
      message := "invalid result module " ++ quoted (ModulePath.dotted module)
      hint := "Give a module path such as 'Result'" }

/-- The origin check that options ask for. -/
def OriginCheck.ofOptions (kind : Text) (module : ModulePath) : Except OriginCheckError OriginCheck :=
  if kind = "any" then .ok .any
  else if kind = "exact" then
    if module.isEmpty || module.any (·.isEmpty) then .error (.invalidModule module) else .ok (.exact module)
  else .error (.unknownKind kind)

/-! ## Classification -/

/-- The constructor whose argument is an error. -/
def errorConstructor : String := "Err"

/-- Whether a pattern is the error constructor with a wildcard as its only argument. -/
def Pattern.ignoresError : Pattern → Bool
  | .named _ name [.wildcard _] _ => name == errorConstructor
  | _ => false

/-- What a search through patterns finds, and the patterns that were resolved on the way. -/
structure Classified where
  findings : List Finding := []
  resolved : List Pattern := []
deriving Inhabited

instance : Append Classified := ⟨fun a b => ⟨a.findings ++ b.findings, a.resolved ++ b.resolved⟩⟩

theorem Pattern.length_subpatternsOf_append (qs : List Pattern) : ∀ ps : List Pattern,
    (subpatternsOf (ps ++ qs)).length = (subpatternsOf ps).length + (subpatternsOf qs).length
  | [] => (Nat.zero_add _).symm
  | p :: ps => by
    rw [List.cons_append, subpatternsOf, subpatternsOf, List.length_append, List.length_append, length_subpatternsOf_append qs ps,
      Nat.add_assoc]

/-- A search through patterns: those that are still to be looked at, the next one last, and what was found so far. -/
structure Search where
  stack : Array Pattern
  found : Classified := {}

namespace Search

/-- A search that is to go through patterns from left to right. -/
def start (ps : List Pattern) : Search := { stack := ps.reverse.toArray }

/-- The number of patterns that the search can still come to. -/
def pending (s : Search) : Nat := (Pattern.subpatternsOf s.stack.toList.reverse).length

section Visit

variable (resolver : Option Resolver) (check : OriginCheck)

/-- Take the next pattern, `p`, off the stack. An ignored error is reported and not searched further; anything else is
searched, also what merely looks like an ignored error. -/
def visit (s : Search) (p : Pattern) : Search :=
  let resolved := if p.ignoresError && check.consults resolver then [p] else []
  if p.ignoresError && check.confirms resolver p then
    { stack := s.stack.pop, found := s.found ++ { findings := [{ range := p.range }], resolved } }
  else
    { stack := s.stack.pop ++ p.children.reverse, found := s.found ++ { resolved } }

/-- What is still to be looked at shrinks: a pattern is taken off, and at most its children are put in its place. -/
theorem pending_visit_lt {s : Search} {p : Pattern} (h : s.stack.back? = some p) :
    (s.visit resolver check p).pending < s.pending := by
  obtain ⟨stack, hstack⟩ := Array.back?_eq_some_iff.1 h
  have hinside : (Pattern.subpatternsOf p.children).length < p.subpatterns.length := by
    cases p <;> simp [Pattern.children, Pattern.subpatterns, Pattern.subpatternsOf]
  have hpending : s.pending = p.subpatterns.length + (Pattern.subpatternsOf s.stack.pop.toList.reverse).length := by
    rw [pending, hstack, Array.pop_push, Array.toList_push, List.reverse_append, List.reverse_singleton, List.singleton_append,
      Pattern.subpatternsOf, List.length_append]
  rw [hpending]
  by_cases hreported : (p.ignoresError && check.confirms resolver p) = true
  · rw [visit, if_pos hreported, pending]
    exact Nat.lt_add_of_pos_left (Nat.zero_lt_of_lt hinside)
  · rw [visit, if_neg hreported, pending, Array.toList_appendList, List.reverse_append, List.reverse_reverse,
      Pattern.length_subpatternsOf_append]
    omega

/-- Go on until nothing is left to be looked at. -/
def run (s : Search) : Classified :=
  match _h : s.stack.back? with
  | none => s.found
  | some p => run (s.visit resolver check p)
termination_by s.pending
decreasing_by exact pending_visit_lt resolver check _h

end Visit

end Search

/-- Search patterns depth first, from left to right. -/
def classify (resolver : Option Resolver) (check : OriginCheck) (ps : List Pattern) : Classified :=
  (Search.start ps).run resolver check

/-- The resolver that looks references up in a table. -/
def LookupTable.resolver (t : LookupTable) : Resolver := fun p => t.origin? p.range

/-- The patterns of the arms of a `case`; none for any other expression. -/
def Expr.armPatterns : Expr → List Pattern
  | .caseOf _ arms _ => arms.map (·.pattern)
  | _ => []

/-- The ignored errors in the arms of every `case` of a module. -/
def Module.ignoredErrors (m : Module) (resolver : Option Resolver) (check : OriginCheck) : List Finding :=
  m.expressions.flatMap fun e => (classify resolver check e.armPatterns).findings

end ElmLint
