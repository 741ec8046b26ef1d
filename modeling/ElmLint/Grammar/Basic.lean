import ElmLint.Peg
import ElmLint.Syntax.Module

/-!
# The grammar: rules, and what all of them use

The rules are those by which the grammar refers to itself; all else is written in terms of them. Blanks never include
markers, so the marker after `of` is where a block of arms begins, and nothing else.
-/

namespace ElmLint.Grammar

/-- The rules of the grammar. -/
inductive Rule where
  | typeExpr
  | typeAtom
  | pattern
  | consPattern
  | patternAtom
  | expr
  | operand
  | postfixAtom
  | atom
  | setter
  | arm
  | letItem
deriving Repr, DecidableEq

/-- What a match of a rule gives. -/
abbrev Rule.Sem : Rule → Type
  | typeExpr | typeAtom => TypeExpr
  | pattern | consPattern | patternAtom => Pattern
  | expr | operand | postfixAtom | atom => Expr
  | setter => Setter Expr
  | arm => Arm Expr
  | letItem => LetItem

/-- A parsing expression of this grammar. -/
abbrev Phrase (α : Type) := Peg Rule Rule.Sem α

/-- How the offsets of a match give its place in the source. -/
abbrev Locate := Nat → Nat → SourceRange

/-- A match of a rule. -/
def rule (r : Rule) : Phrase r.Sem := .rule r

/-! ## Words -/

/-- The given characters. -/
def symbol (text : String) : Phrase (List Char) := .lexeme (.exact text)

/-- The given word. -/
def word (text : String) : Phrase (List Char) := .lexeme (.word text)

/-- Any number of blanks. -/
def gap : Phrase (List Char) := .lexeme .blanks

/-- At least one blank. -/
def space : Phrase (List Char) := .lexeme .someBlanks

/-- A layout marker. -/
def marker (m : Marker) : Phrase (List Char) := .lexeme (.marker m)

/-- The text of a lexeme. -/
def textOf (l : Lexeme) : Phrase String := .map String.ofList (.lexeme l)

/-- A binary operator. -/
def operator : Phrase String := textOf .operator

/-- A name that begins with a small letter and is no keyword. -/
def lowerName : Phrase String := .without (.lexeme .keyword) *> textOf .lowerName

/-- A capitalised name. -/
def upperName : Phrase String := textOf .upperName

/-- A dotted name as its qualifier and its last segment. -/
def qualified (text : List Char) : ModuleName × String :=
  ((ModuleName.ofDotted text).dropLast, (ModuleName.ofDotted text).getLastD "")

/-- The name of a module. -/
def moduleName : Phrase ModuleName := .map ModuleName.ofDotted (.lexeme .upperPath)

/-- A capitalised name, perhaps with a qualifier. -/
def qualifiedUpper : Phrase (ModuleName × String) := .map qualified (.lexeme .upperPath)

/-! ## Lists -/

/-- A symbol with blanks around it. -/
def spaced (text : String) : Phrase (List Char) := gap *> symbol text <* gap

/-- One item or more, separated by `separator`. -/
def separated {α β : Type} (separator : Phrase β) (item : Phrase α) : Phrase (List α) :=
  .map (fun (first, rest) => first :: rest) (.seq item (.many (separator *> item)))

/-- One item or more, separated by commas. -/
def commaList {α : Type} (item : Phrase α) : Phrase (List α) := separated (spaced ",") item

/-- Two items or more, separated by commas. -/
def commaPair {α : Type} (item : Phrase α) : Phrase (List α) :=
  .map (fun (first, rest) => first :: rest) (.seq item (.atLeastOne (spaced "," *> item)))

/-- Something between brackets, with blanks inside them. -/
def between {α : Type} (left : String) (item : Phrase α) (right : String) : Phrase α :=
  symbol left *> gap *> item <* gap <* symbol right

/-! ## Literals -/

/-- A number with a fraction or an exponent. -/
def floatLiteral : Phrase Literal := .map Literal.ofFloat (.lexeme .float)

/-- An integer. -/
def intLiteral : Phrase Literal := .map Literal.ofInt (.lexeme .int)

/-- A string. -/
def stringLiteral : Phrase Literal := .map Literal.ofString (.lexeme .string)

/-- A character. -/
def charLiteral : Phrase Literal := .map Literal.ofChar (.lexeme .char)

/-- A literal other than the unit. -/
def literal : Phrase Literal := floatLiteral <|> intLiteral <|> stringLiteral <|> charLiteral

/-- The unit `()`. -/
def unit : Phrase Literal := .map (fun _ => .unit) (symbol "(" *> gap *> symbol ")")

end ElmLint.Grammar
