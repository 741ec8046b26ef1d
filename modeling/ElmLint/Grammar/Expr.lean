import ElmLint.Grammar.Pattern
import ElmLint.Grammar.Type

/-!
# The grammar of expressions

Operators all bind alike and group to the left. The arms of a `case` and the items of a `let` stand between the markers
that layout has written.
-/

namespace ElmLint.Grammar

variable (locate : Locate)

/-! ## Atoms -/

/-- The expressions between parentheses: a grouped one, or a tuple. -/
def exprGroup : Phrase Expr :=
  .node (fun i j elements => match elements with
    | [inner] => .parenthesized inner (locate i j)
    | elements => .tuple elements (locate i j))
  (between "(" (commaList (rule .expr)) ")")

/-- A tuple. -/
def tupleExpr : Phrase Expr :=
  .node (fun i j elements => .tuple elements (locate i j)) (between "(" (commaPair (rule .expr)) ")")

/-- An expression in parentheses. -/
def parenthesizedExpr : Phrase Expr :=
  .node (fun i j inner => .parenthesized inner (locate i j)) (between "(" (rule .expr) ")")

/-- An operator in parentheses. -/
def operatorFunction : Phrase Expr :=
  .node (fun i j op => .operator op (locate i j)) (between "(" operator ")")

/-- The elements of a list. -/
def exprList : Phrase (List Expr) := commaList (rule .expr)

/-- A list. -/
def listExpr : Phrase Expr :=
  .node (fun i j elements => .list (elements.getD []) (locate i j)) (between "[" (.opt exprList) "]")

/-- `name = value` in a record. -/
def setter : Phrase (Setter Expr) :=
  .node (fun i j (name, value) => ⟨name, value, locate i j⟩) (.seq lowerName (spaced "=" *> rule .expr))

/-- The fields of a record with their values. -/
def setters : Phrase (List (Setter Expr)) := commaList (rule .setter)

/-- A record with some fields replaced. -/
def recordUpdate : Phrase Expr :=
  .node (fun i j (name, setters) => .update name setters (locate i j))
    (between "\x7b" (.seq lowerName (spaced "|" *> setters)) "\x7d")

/-- A record. -/
def recordExpr : Phrase Expr :=
  .node (fun i j setters => .record (setters.getD []) (locate i j)) (between "\x7b" (.opt setters) "\x7d")

/-- A dot and the name of a field. -/
def fieldAccess : Phrase String := .map (fun text => String.ofList (text.drop 1)) (.lexeme .field)

/-- A field's accessor function. -/
def accessor : Phrase Expr := .node (fun i j field => .accessor field (locate i j)) fieldAccess

/-- A value or constructor by its name. -/
def reference : Phrase Expr :=
  .node (fun i j (qualifier, name) => .reference qualifier name (locate i j))
    (.without (.lexeme .keyword) *> .map qualified (.lexeme .path))

/-- An expression that needs no parentheses anywhere. -/
def atom : Phrase Expr :=
  .node (fun i j value => .literal value (locate i j)) (literal <|> unit)
  <|> operatorFunction locate
  <|> exprGroup locate
  <|> listExpr locate
  <|> recordUpdate locate
  <|> recordExpr locate
  <|> accessor locate
  <|> reference locate

/-- An atom with the fields accessed on it, each access spanning from the start of the atom. -/
def postfixAtom : Phrase Expr :=
  .map (fun (inner, accesses) =>
    accesses.foldl (fun e (field, range) => .access e field ⟨e.range.start, range.stop⟩) inner)
  (.seq (rule .atom) (.many (.node (fun i j field => (field, locate i j)) fieldAccess)))

/-! ## Operands and chains -/

/-- A minus right before an atom. -/
def negation : Phrase Expr :=
  .node (fun i j inner => .negation inner (locate i j)) (symbol "-" *> rule .postfixAtom)

/-- A function with its arguments, or an atom alone. -/
def application : Phrase Expr :=
  .node (fun i j (function, arguments) =>
    if arguments.isEmpty then function else .application function arguments (locate i j))
  (.seq (rule .postfixAtom) (.many (gap *> rule .postfixAtom)))

/-- `if … then … else …`. -/
def conditional : Phrase Expr :=
  .node (fun i j (condition, thenBranch, elseBranch) => .conditional condition thenBranch elseBranch (locate i j))
    (.seq (word "if" *> gap *> rule .expr)
      (.seq (gap *> word "then" *> gap *> rule .expr) (gap *> word "else" *> gap *> rule .expr)))

/-- Items of a block, between the markers that layout has written. -/
def block {α : Type} (item : Phrase α) : Phrase (List α) :=
  marker .opening *> gap *> separated (gap *> marker .separating *> gap) item <* gap <* marker .closing

/-- `pattern -> body`. -/
def arm : Phrase (Arm Expr) :=
  .map (fun (pattern, body) => ⟨pattern, body⟩) (.seq (rule .pattern) (spaced "->" *> rule .expr))

/-- `case … of` with its arms. -/
def caseOf : Phrase Expr :=
  .node (fun i j (subject, arms) => .caseOf subject arms (locate i j))
    (.seq (word "case" *> gap *> rule .expr) (gap *> word "of" *> gap *> block (rule .arm)))

/-- `name : type`. -/
def signature : Phrase Signature :=
  .node (fun i j (name, type) => ⟨name, type, locate i j⟩) (.seq lowerName (spaced ":" *> rule .typeExpr))

/-- The arguments of a function declaration. -/
def functionArguments : Phrase (List Pattern) := .many (gap *> rule .patternAtom)

/-- `name arguments = body`. -/
def functionDecl : Phrase (FunctionDecl Expr) :=
  .node (fun i j (name, arguments, body) => ⟨name, arguments, body, locate i j, none⟩)
    (.seq lowerName (.seq functionArguments (spaced "=" *> rule .expr)))

/-- `pattern = value`. -/
def destructuring : Phrase (LetDecl Expr) :=
  .node (fun i j (pattern, value) => .destructuring pattern value (locate i j))
    (.seq (rule .pattern) (spaced "=" *> rule .expr))

/-- An item of a `let` block. A plain name before the equals sign declares a value and is no destructuring, even when
what follows is no expression. -/
def letItem : Phrase LetItem :=
  .map .signature (signature locate)
  <|> .map (fun decl => .declaration (.function decl)) (functionDecl locate)
  <|> .without (lowerName *> gap *> symbol "=") *> .map .declaration (destructuring locate)

/-- `let … in …`. -/
def letIn : Phrase Expr :=
  .node (fun i j (items, body) => .letIn (LetItem.attach items) body (locate i j))
    (.seq (word "let" *> gap *> block (rule .letItem)) (gap *> word "in" *> gap *> rule .expr))

/-- `\ arguments -> body`. -/
def lambda : Phrase Expr :=
  .node (fun i j (arguments, body) => .lambda arguments body (locate i j))
    (.seq (symbol "\\" *> gap *> separated gap (rule .patternAtom)) (spaced "->" *> rule .expr))

/-- An expression without operators outside parentheses. -/
def operand : Phrase Expr :=
  lambda locate <|> conditional locate <|> caseOf locate <|> letIn locate <|> negation locate <|> application locate

/-- An expression: operands joined by operators, which group to the left. -/
def expr : Phrase Expr :=
  .map (fun (first, rest) =>
    rest.foldl (fun left (op, right) => .binary op left right ⟨left.range.start, right.range.stop⟩) first)
  (.seq (rule .operand) (.many (.seq (gap *> operator) (gap *> rule .operand))))

end ElmLint.Grammar
