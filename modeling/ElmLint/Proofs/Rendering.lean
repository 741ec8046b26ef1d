import ElmLint.Grammar.Module
import Mathlib.Algebra.Group.Nat.Defs

/-!
# Writing expressions down

`Expr.render` writes an expression down as the source of a module with one declaration. Each nested expression starts on a line of
its own and is indented further than the one around it; so do the arms of a `case` and the declarations of a `let`, each at the
column of its block. Operators, commas, closing brackets and the words `then`, `else`, `of` and `in` stand on lines of their own, to
the left of all that is inside.

A rendering is made of words with the gaps before them, among which `Expr.marked` also tells where layout is to write markers.
`Expr.Renderable` is the class of expressions that are rendered: those that the grammar can give, made of references, literals,
applications, operators, brackets, `if`, `case`, `let` and functions. The literals among them need not have a value: the grammar
gives an integer with too many digits too, and an escape may name any number.
-/

namespace ElmLint

/-! ## Words and gaps -/

/-- What stands before a word: a line break and so many blanks, or one blank. -/
inductive Gap where
  | line (indent : Nat)
  | blank
deriving Repr, DecidableEq, Inhabited

/-- The characters of a gap. -/
def Gap.text : Gap → List Char
  | line indent => '\n' :: List.replicate indent ' '
  | blank => [' ']

/-- A word with the gap before it. -/
structure Spot where
  gap : Gap
  word : List Char
deriving Repr, DecidableEq, Inhabited

/-- The characters of a gap and a word. -/
def Spot.text (s : Spot) : List Char := s.gap.text ++ s.word

/-- Words on a line, with single blanks between them. -/
def lineOf (indent : Nat) : List (List Char) → List (Marker ⊕ Spot)
  | [] => []
  | word :: words => .inr ⟨.line indent, word⟩ :: words.map fun word => .inr ⟨.blank, word⟩

/-- A line with one word. -/
def wordLine (indent : Nat) (word : String) : List (Marker ⊕ Spot) := lineOf indent [word.toList]

/-- How expressions are written: how much further a nested construct is indented, and the text of a number with a fraction. -/
structure Style where
  indent : Nat
  indent_pos : 0 < indent
  floatText : Binary64 → List Char

/-! ## Literals -/

/-- A code point in a string or character literal: itself, if it is a visible character of ASCII or a space that means nothing
else there, or an escape. -/
def escapedPoint (codePoint : Nat) : List Char :=
  if 0x20 ≤ codePoint && codePoint < 0x7F && codePoint != '"'.toNat && codePoint != '\''.toNat && codePoint != '\\'.toNat then
    [Char.ofNat codePoint]
  else '\\' :: 'u' :: '{' :: (Nat.toDigits 16 codePoint ++ ['}'])

/-- Code points between quotes. -/
def quotedPoints (quote : Char) (codePoints : List Nat) : List Char := quote :: (codePoints.flatMap escapedPoint ++ [quote])

/-- The words of a literal. A number without a value is written as it was read. -/
def Literal.words (style : Style) : Literal → List (List Char)
  | .int value => [Nat.toDigits 10 value]
  | .float value => [style.floatText value]
  | .string codePoints => [quotedPoints '"' codePoints]
  | .char codePoints => [quotedPoints '\'' codePoints]
  | .unit => [['('], [')']]
  | .valueless text => [text.toList]

/-- A literal that the grammar can give when it reads the words of the literal: an integer is one with a value as long as it has no
more digits than are converted, and one without a value from then on. -/
def Literal.Renderable (style : Style) : Literal → Prop
  | .int value => value < 10 ^ maxDigits
  | .unit | .string _ => True
  | .float value =>
    floatLength? isAnyDigit (style.floatText value) = some (style.floatText value).length ∧
      Literal.ofFloat (style.floatText value) = .float value
  | .char codePoints => codePoints ≠ []
  | .valueless text => ∃ n, 10 ^ maxDigits ≤ n ∧ text.toList = Nat.toDigits 10 n

/-! ## Names -/

/-- A text of name characters that begins with one of a class. -/
def IsName (first : Char → Bool) (name : List Char) : Prop :=
  ∃ c cs, name = c :: cs ∧ first c = true ∧ ∀ d ∈ cs, isNameChar d = true

theorem isName_iff_all {first : Char → Bool} {name : List Char} :
    IsName first name ↔ name.head?.any first = true ∧ name.tail.all isNameChar = true := by
  cases name with
  | nil => simp [IsName]
  | cons c cs =>
    simp only [IsName, List.head?_cons, Option.any_some, List.tail_cons, List.all_eq_true]
    constructor
    · rintro ⟨_, _, heq, hc, hcs⟩
      cases heq
      exact ⟨hc, hcs⟩
    · rintro ⟨hc, hcs⟩
      exact ⟨c, cs, rfl, hc, hcs⟩

instance (first : Char → Bool) (name : List Char) : Decidable (IsName first name) := decidable_of_iff _ isName_iff_all.symm

/-- A name that begins with a small letter and is no keyword. -/
def IsLowerName (name : String) : Prop := IsName isLower name.toList ∧ name ∉ keywords

instance (name : String) : Decidable (IsLowerName name) := inferInstanceAs (Decidable (_ ∧ _))

/-- A capitalised name. -/
def IsUpperName (name : String) : Prop := IsName isUpper name.toList

instance (name : String) : Decidable (IsUpperName name) := inferInstanceAs (Decidable (IsName _ _))

/-- The word of a name with its qualifier. -/
def qualifiedWord (qualifier : ModuleName) (name : String) : List Char := (ModuleName.dotted (qualifier ++ [name])).toList

/-! ## Patterns -/

namespace Pattern

/-- A pattern that needs no parentheses as an argument. -/
def isAtomic : Pattern → Bool
  | wildcard _ | literal _ _ | var _ _ | parenthesized _ _ | list _ _ | tuple _ _ | record _ _ => true
  | named _ _ arguments _ => arguments.isEmpty
  | cons _ _ _ | aliased _ _ _ => false

/-- A pattern with an alias. -/
def isAliased : Pattern → Bool
  | aliased _ _ _ => true
  | _ => false

/-- A pattern with `::` outside parentheses. -/
def isCons : Pattern → Bool
  | cons _ _ _ => true
  | _ => false

/-- A pattern that the grammar can give. -/
inductive Renderable (style : Style) : Pattern → Prop
  | wildcard (range : SourceRange) : Renderable style (.wildcard range)
  | literal {value : Literal} (range : SourceRange) : value.Renderable style → Renderable style (.literal value range)
  | var {name : String} (range : SourceRange) : IsLowerName name → Renderable style (.var name range)
  | named {qualifier : ModuleName} {name : String} {arguments : List Pattern} (range : SourceRange) :
      (∀ segment ∈ qualifier ++ [name], IsUpperName segment) → (∀ p ∈ arguments, p.isAtomic = true) →
      (∀ p ∈ arguments, Renderable style p) → Renderable style (.named qualifier name arguments range)
  | parenthesized {inner : Pattern} (range : SourceRange) : Renderable style inner → Renderable style (.parenthesized inner range)
  | cons {head tail : Pattern} (range : SourceRange) : head.isCons = false → head.isAliased = false → tail.isAliased = false →
      Renderable style head → Renderable style tail → Renderable style (.cons head tail range)
  | list {elements : List Pattern} (range : SourceRange) : (∀ p ∈ elements, Renderable style p) →
      Renderable style (.list elements range)
  | tuple {elements : List Pattern} (range : SourceRange) : 2 ≤ elements.length → (∀ p ∈ elements, Renderable style p) →
      Renderable style (.tuple elements range)
  | aliased {inner : Pattern} {name : String} (range : SourceRange) : Renderable style inner → IsLowerName name →
      Renderable style (.aliased inner name range)
  | record {fields : List String} (range : SourceRange) : (∀ field ∈ fields, IsLowerName field) →
      Renderable style (.record fields range)

mutual

/-- The words of a pattern. -/
def words (style : Style) : Pattern → List (List Char)
  | wildcard _ => [['_']]
  | literal value _ => value.words style
  | var name _ => [name.toList]
  | named qualifier name arguments _ => qualifiedWord qualifier name :: wordsEach style [] arguments
  | parenthesized inner _ => ['('] :: (words style inner ++ [[')']])
  | cons head tail _ => words style head ++ [':', ':'] :: words style tail
  | list elements _ => ['['] :: (elementWords style elements ++ [[']']])
  | tuple elements _ => ['('] :: (elementWords style elements ++ [[')']])
  | aliased inner name _ => words style inner ++ [['a', 's'], name.toList]
  | record fields _ => ['{'] :: ((fields.map String.toList).intersperse [','] ++ [['}']])

/-- The words of patterns with some words before each of them. -/
def wordsEach (style : Style) (before : List (List Char)) : List Pattern → List (List Char)
  | [] => []
  | p :: ps => before ++ (words style p ++ wordsEach style before ps)

/-- The words of patterns with commas between them. -/
def elementWords (style : Style) : List Pattern → List (List Char)
  | [] => []
  | p :: ps => words style p ++ wordsEach style [[',']] ps

end

theorem wordsEach_eq_flatMap (style : Style) (before : List (List Char)) :
    ∀ ps : List Pattern, wordsEach style before ps = ps.flatMap fun p => before ++ p.words style
  | [] => rfl
  | p :: ps => by rw [wordsEach, wordsEach_eq_flatMap style before ps, List.flatMap_cons, List.append_assoc]

end Pattern

/-! ## Expressions -/

namespace Expr

/-- An expression that needs no parentheses as an argument. -/
def isAtomic : Expr → Bool
  | literal _ _ | reference _ _ _ | parenthesized _ _ | tuple _ _ | list _ _ => true
  | _ => false

/-- Two expressions joined by an operator. -/
def isBinary : Expr → Bool
  | binary _ _ _ _ => true
  | _ => false

/-- An expression that takes in every operator after it. -/
def isOpen : Expr → Bool
  | lambda _ _ _ | conditional _ _ _ _ | letIn _ _ _ => true
  | _ => false

/-- An expression whose last operand takes in every operator after it. -/
def endsOpen : Expr → Bool
  | binary _ _ right _ => right.isOpen
  | e => e.isOpen

end Expr

/-- The declaration of a function without an annotation, whose name and arguments the grammar can give. -/
def LetDecl.HasPlainHead (style : Style) : LetDecl Expr → Prop
  | .function decl => decl.signature = none ∧ IsLowerName decl.name ∧
      (∀ p ∈ decl.arguments, p.isAtomic = true) ∧ ∀ p ∈ decl.arguments, p.Renderable style
  | .destructuring _ _ _ => False

namespace Expr

/-- An expression that the grammar can give, and that is rendered. Operators group to the left, and no operator stands after an
operand that would take it in. -/
inductive Renderable (style : Style) : Expr → Prop
  | literal {value : Literal} (range : SourceRange) : value.Renderable style → Renderable style (.literal value range)
  | reference {qualifier : ModuleName} {name : String} (range : SourceRange) : (∀ segment ∈ qualifier, IsUpperName segment) →
      IsUpperName name ∨ IsLowerName name → Renderable style (.reference qualifier name range)
  | application {function : Expr} {arguments : List Expr} (range : SourceRange) : arguments ≠ [] → function.isAtomic = true →
      (∀ e ∈ arguments, e.isAtomic = true) → Renderable style function → (∀ e ∈ arguments, Renderable style e) →
      Renderable style (.application function arguments range)
  | binary {operator : String} {left right : Expr} (range : SourceRange) : operator ∈ operators → left.endsOpen = false →
      right.isBinary = false → Renderable style left → Renderable style right →
      Renderable style (.binary operator left right range)
  | parenthesized {inner : Expr} (range : SourceRange) : Renderable style inner → Renderable style (.parenthesized inner range)
  | tuple {elements : List Expr} (range : SourceRange) : 2 ≤ elements.length → (∀ e ∈ elements, Renderable style e) →
      Renderable style (.tuple elements range)
  | list {elements : List Expr} (range : SourceRange) : (∀ e ∈ elements, Renderable style e) →
      Renderable style (.list elements range)
  | conditional {condition thenBranch elseBranch : Expr} (range : SourceRange) : Renderable style condition →
      Renderable style thenBranch → Renderable style elseBranch →
      Renderable style (.conditional condition thenBranch elseBranch range)
  | caseOf {subject : Expr} {arms : List (Arm Expr)} (range : SourceRange) : arms ≠ [] →
      (∀ arm ∈ arms, arm.pattern.Renderable style) → Renderable style subject → (∀ arm ∈ arms, Renderable style arm.body) →
      Renderable style (.caseOf subject arms range)
  | letIn {declarations : List (LetDecl Expr)} {body : Expr} (range : SourceRange) : declarations ≠ [] →
      (∀ decl ∈ declarations, decl.HasPlainHead style) → (∀ decl ∈ declarations, Renderable style decl.body) →
      Renderable style body → Renderable style (.letIn declarations body range)
  | lambda {arguments : List Pattern} {body : Expr} (range : SourceRange) : arguments ≠ [] →
      (∀ p ∈ arguments, p.isAtomic = true) → (∀ p ∈ arguments, p.Renderable style) → Renderable style body →
      Renderable style (.lambda arguments body range)

mutual

/-- The rendering of an expression at an indentation, with the markers of its blocks. -/
def marked (style : Style) (indent : Nat) : Expr → List (Marker ⊕ Spot)
  | literal value _ => lineOf indent (value.words style)
  | reference qualifier name _ => lineOf indent [qualifiedWord qualifier name]
  | application function arguments _ =>
    function.marked style indent ++ markedEach style [] (indent + style.indent) arguments
  | binary op left right _ =>
    left.marked style (indent + style.indent) ++ (wordLine indent op ++ right.marked style (indent + style.indent))
  | parenthesized inner _ => wordLine indent "(" ++ (inner.marked style (indent + style.indent) ++ wordLine indent ")")
  | tuple elements _ => wordLine indent "(" ++ (markedElements style indent elements ++ wordLine indent ")")
  | list elements _ => wordLine indent "[" ++ (markedElements style indent elements ++ wordLine indent "]")
  | conditional condition thenBranch elseBranch _ =>
    wordLine indent "if" ++ (condition.marked style (indent + style.indent) ++
      (wordLine indent "then" ++ (thenBranch.marked style (indent + style.indent) ++
        (wordLine indent "else" ++ elseBranch.marked style (indent + style.indent)))))
  | caseOf subject arms _ =>
    wordLine indent "case" ++ (subject.marked style (indent + style.indent) ++
      (wordLine indent "of" ++ (markedArms style .opening (indent + style.indent) arms ++ [.inl .closing])))
  | letIn declarations body _ =>
    wordLine indent "let" ++ (markedDecls style .opening (indent + style.indent) declarations ++
      .inl .closing :: (wordLine indent "in" ++ body.marked style (indent + style.indent)))
  | lambda arguments body _ =>
    lineOf indent (['\\'] :: (Pattern.wordsEach style [] arguments ++ [['-', '>']])) ++
      body.marked style (indent + style.indent)
  | _ => []

/-- Expressions at one indentation, with something before each of them. -/
def markedEach (style : Style) (before : List (Marker ⊕ Spot)) (indent : Nat) : List Expr → List (Marker ⊕ Spot)
  | [] => []
  | e :: es => before ++ (e.marked style indent ++ markedEach style before indent es)

/-- Expressions between brackets at an indentation, with commas between them. -/
def markedElements (style : Style) (indent : Nat) : List Expr → List (Marker ⊕ Spot)
  | [] => []
  | e :: es => e.marked style (indent + style.indent) ++
      markedEach style (wordLine indent ",") (indent + style.indent) es

/-- The arms of a `case` at an indentation, the first of them after `marker`. -/
def markedArms (style : Style) (marker : Marker) (indent : Nat) : List (Arm Expr) → List (Marker ⊕ Spot)
  | [] => []
  | ⟨pattern, body⟩ :: arms =>
    .inl marker :: (lineOf indent (pattern.words style ++ [['-', '>']]) ++
      (body.marked style (indent + style.indent) ++ markedArms style .separating indent arms))

/-- The declarations of a `let` at an indentation, the first of them after `marker`. -/
def markedDecls (style : Style) (marker : Marker) (indent : Nat) : List (LetDecl Expr) → List (Marker ⊕ Spot)
  | [] => []
  | .function ⟨name, arguments, body, _, _⟩ :: decls =>
    .inl marker :: (lineOf indent (name.toList :: (Pattern.wordsEach style [] arguments ++ [['=']])) ++
      (body.marked style (indent + style.indent) ++ markedDecls style .separating indent decls))
  | .destructuring pattern value _ :: decls =>
    .inl marker :: (lineOf indent (pattern.words style ++ [['=']]) ++
      (value.marked style (indent + style.indent) ++ markedDecls style .separating indent decls))

end

/-- The words of the declaration `x = …` after the name, with the gaps before them and the markers of its blocks. -/
def declared (style : Style) (e : Expr) : List (Marker ⊕ Spot) := .inr ⟨.blank, ['=']⟩ :: e.marked style style.indent

/-- The source of a module that declares `x` to be an expression. -/
def render (style : Style) (e : Expr) : String :=
  String.ofList ('x' :: ((declared style e).filterMap Sum.getRight?).flatMap Spot.text)

end Expr

end ElmLint
