import ElmLint.Grammar.Basic

/-!
# The grammar of type annotations

A tuple and a type in parentheses begin alike, so one expression reads both and the number of its elements decides.
-/

namespace ElmLint.Grammar

variable (locate : Locate)

/-- The types between parentheses: one that is only grouped, or a tuple. -/
def typeGroup : Phrase TypeExpr :=
  .node (fun i j elements => match elements with
    | [inner] => inner
    | elements => .tuple elements (locate i j))
  (between "(" (commaList (rule .typeExpr)) ")")

/-- A tuple type. -/
def tupleType : Phrase TypeExpr :=
  .node (fun i j elements => .tuple elements (locate i j)) (between "(" (commaPair (rule .typeExpr)) ")")

/-- A type in parentheses, which leave no trace. -/
def parenthesizedType : Phrase TypeExpr := between "(" (rule .typeExpr) ")"

/-- `name : type` in a record type. -/
def fieldType : Phrase (FieldType TypeExpr) :=
  .node (fun i j (name, type) => ⟨name, type, locate i j⟩) (.seq lowerName (spaced ":" *> rule .typeExpr))

/-- The variable that a record type extends. -/
def recordBase : Phrase String := lowerName <* spaced "|"

/-- The fields of a record type. -/
def fieldTypes : Phrase (List (FieldType TypeExpr)) := commaList (fieldType locate)

/-- A record type. -/
def recordType : Phrase TypeExpr :=
  .node (fun i j (base, fields) => .record (fields.getD []) base (locate i j))
    (between "\x7b" (.seq (.opt recordBase) (.opt (fieldTypes locate))) "\x7d")

/-- A type that needs no parentheses as an argument. -/
def typeAtom : Phrase TypeExpr :=
  .node (fun i j _ => .unit (locate i j)) unit
  <|> typeGroup locate
  <|> recordType locate
  <|> .node (fun i j (qualifier, name) => .reference qualifier name [] (locate i j)) qualifiedUpper
  <|> .node (fun i j name => .var name (locate i j)) lowerName

/-- A type by its name, with at least one argument. -/
def appliedType : Phrase TypeExpr :=
  .node (fun i j ((qualifier, name), arguments) => .reference qualifier name arguments (locate i j))
    (.seq qualifiedUpper (.atLeastOne (gap *> rule .typeAtom)))

/-- A type without arrows outside parentheses. -/
def typeApplication : Phrase TypeExpr := appliedType locate <|> rule .typeAtom

/-- A type; arrows associate to the right. -/
def typeExpr : Phrase TypeExpr :=
  .node (fun i j (argument, result) => match result with
    | some result => .function argument result (locate i j)
    | none => argument)
  (.seq (typeApplication locate) (.opt (spaced "->" *> rule .typeExpr)))

end ElmLint.Grammar
