import ElmLint.Position
import ElmLint.Syntax.Literal

/-!
# Patterns

A pattern is what an argument, an arm of a `case` or a destructuring binding is matched with. `Pattern.subpatterns` lists
a pattern and all patterns inside it, outer before inner and left before right.
-/

namespace ElmLint

/-- The segments of a module's name, or of the qualifier of a name; empty for no qualifier. -/
abbrev ModuleName := List String

/-- A module's name as it is written: its segments joined by dots. -/
def ModuleName.dotted (name : ModuleName) : String := ".".intercalate name

/-- The segments of a name that is written with dots. -/
def ModuleName.ofDotted (text : List Char) : ModuleName := (text.splitOn '.').map String.ofList

/-- Patterns, each with its place in the source. -/
inductive Pattern where
  | wildcard (range : SourceRange)
  | literal (value : Literal) (range : SourceRange)
  | var (name : String) (range : SourceRange)
  /-- A constructor with its arguments. -/
  | named (qualifier : ModuleName) (name : String) (arguments : List Pattern) (range : SourceRange)
  | parenthesized (inner : Pattern) (range : SourceRange)
  /-- `head :: tail`. -/
  | cons (head tail : Pattern) (range : SourceRange)
  | list (elements : List Pattern) (range : SourceRange)
  | tuple (elements : List Pattern) (range : SourceRange)
  /-- `inner as name`. -/
  | aliased (inner : Pattern) (name : String) (range : SourceRange)
  /-- `{ field, … }`. -/
  | record (fields : List String) (range : SourceRange)
deriving Repr, Inhabited

namespace Pattern

/-- The place of a pattern. -/
def range : Pattern → SourceRange
  | wildcard r | literal _ r | var _ r | named _ _ _ r | parenthesized _ r | cons _ _ r | list _ r | tuple _ r
  | aliased _ _ r | record _ r => r

/-- The patterns directly inside a pattern, from left to right. -/
def children : Pattern → List Pattern
  | wildcard _ | literal _ _ | var _ _ | record _ _ => []
  | named _ _ arguments _ => arguments
  | parenthesized inner _ | aliased inner _ _ => [inner]
  | cons head tail _ => [head, tail]
  | list elements _ | tuple elements _ => elements

mutual

/-- A pattern and all patterns inside it, outer before inner and left before right. -/
def subpatterns : Pattern → List Pattern
  | wildcard r => [wildcard r]
  | literal v r => [literal v r]
  | var n r => [var n r]
  | named q n arguments r => named q n arguments r :: subpatternsOf arguments
  | parenthesized inner r => parenthesized inner r :: inner.subpatterns
  | cons head tail r => cons head tail r :: (head.subpatterns ++ tail.subpatterns)
  | list elements r => list elements r :: subpatternsOf elements
  | tuple elements r => tuple elements r :: subpatternsOf elements
  | aliased inner n r => aliased inner n r :: inner.subpatterns
  | record fields r => [record fields r]

/-- The subpatterns of several patterns, one after another. -/
def subpatternsOf : List Pattern → List Pattern
  | [] => []
  | p :: ps => p.subpatterns ++ subpatternsOf ps

end

/-- A constructor's name with its qualifier, as it is written. -/
def qualifiedName? : Pattern → Option String
  | named qualifier name _ _ => some (ModuleName.dotted (qualifier ++ [name]))
  | _ => none

end Pattern

end ElmLint
