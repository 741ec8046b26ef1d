import ElmLint.Syntax.Module

/-!
# Kinds of syntax

The names of the kinds of tokens, patterns, expressions and declarations, by which a listing of a source tells them apart.
-/

namespace ElmLint

/-- The name of a kind of pattern. -/
def Pattern.kindName : Pattern → String
  | wildcard _ => "WildcardPattern"
  | literal _ _ => "LiteralPattern"
  | var _ _ => "VarPattern"
  | named _ _ _ _ => "NamedPattern"
  | parenthesized _ _ => "ParenthesizedPattern"
  | cons _ _ _ => "UnConsPattern"
  | list _ _ => "ListPattern"
  | tuple _ _ => "TuplePattern"
  | aliased _ _ _ => "AsPattern"
  | record _ _ => "RecordPattern"

/-- The name of a kind of expression. -/
def Expr.kindName : Expr → String
  | literal _ _ => "Literal"
  | reference _ _ _ => "FunctionOrValue"
  | application _ _ _ => "Application"
  | binary _ _ _ _ => "OperatorApplication"
  | operator _ _ => "PrefixOperator"
  | negation _ _ => "Negation"
  | parenthesized _ _ => "ParenthesizedExpression"
  | tuple _ _ => "TupledExpression"
  | list _ _ => "ListExpression"
  | record _ _ => "RecordExpression"
  | update _ _ _ => "RecordUpdate"
  | access _ _ _ => "RecordAccess"
  | accessor _ _ => "RecordAccessFunction"
  | conditional _ _ _ _ => "IfBlock"
  | caseOf _ _ _ => "CaseExpression"
  | letIn _ _ _ => "LetExpression"
  | lambda _ _ _ => "Lambda"

/-- The name of a kind of declaration. -/
def Declaration.kindName : Declaration → String
  | function _ => "FunctionDeclaration"
  | customType _ => "CustomTypeDeclaration"
  | typeAlias _ => "TypeAliasDeclaration"
  | port _ => "PortDeclaration"
  | signature _ => "Signature"

/-- The name of what an entry of an exposing list makes visible. -/
def ExposedKind.name : ExposedKind → String
  | value => "value"
  | type => "type"
  | openType => "open_type"
  | operator => "infix"

/-- The name of a kind of token. -/
def Token.Kind.label : Token.Kind → String
  | string => "string"
  | char => "char"
  | number => "number"
  | name => "name"
  | bracket => "bracket"
  | comma => "comma"
  | operator => "op"
  | other => "other"

end ElmLint
