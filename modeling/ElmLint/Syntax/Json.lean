import ElmLint.Json.Value
import ElmLint.Syntax.Kind

/-!
# Syntax trees as JSON

A node is an object: the member `node` names its kind, the member `range` gives its place as a list of four numbers, and the
other members are its parts. The numbers of literals are written as text, so that no reader can round them: integers in
decimal, others by the bits of their double. A text that holds a surrogate is written as its code points.
-/

namespace ElmLint

/-- The rows and columns of a range. -/
def SourceRange.toJson (r : SourceRange) : JsonValue :=
  .array ([r.start.row, r.start.column, r.stop.row, r.stop.column].map .ofNat)

/-- A part that may be missing. -/
def JsonValue.ofOption {α : Type} (toJson : α → JsonValue) : Option α → JsonValue
  | some a => toJson a
  | none => .null

/-- A node without a place. -/
def JsonValue.node (kind : String) (parts : List (Text × JsonValue)) : JsonValue :=
  .object (("node", .string kind) :: parts)

/-- A node with its place. -/
def JsonValue.nodeAt (kind : String) (r : SourceRange) (parts : List (Text × JsonValue)) : JsonValue :=
  .node kind (parts ++ [(("range" : Text), r.toJson)])

open JsonValue (node nodeAt strings ofOption)

/-- A code point that is no character. -/
def isSurrogate (codePoint : Nat) : Bool := 0xD800 ≤ codePoint && codePoint ≤ 0xDFFF

/-- A text that is given by its code points. -/
def JsonValue.ofCodePoints (points : List Nat) : JsonValue :=
  if points.any isSurrogate then .object [("codepoints", .array (points.map .ofNat))]
  else .string (String.ofList (points.map Char.ofNat))

/-- The kind and the value of a literal. -/
def Literal.members : Literal → List (Text × JsonValue)
  | int value => [("kind", .string "int"), ("value", .string (toString value))]
  | float value => [("kind", .string "float"), ("value", .string value.hex)]
  | string points => [("kind", .string "string"), ("value", .ofCodePoints points)]
  | char points => [("kind", .string "char"), ("value", .ofCodePoints points)]
  | unit => [("kind", .string "unit"), ("value", .null)]
  | valueless text => [("kind", .string "number"), ("value", .string text)]

/-! ## Patterns and types -/

mutual

/-- A pattern as JSON. -/
def Pattern.toJson : Pattern → JsonValue
  | .wildcard r => nodeAt "WildcardPattern" r []
  | .literal value r => nodeAt "LiteralPattern" r value.members
  | .var name r => nodeAt "VarPattern" r [("name", .string name)]
  | .named qualifier name arguments r => nodeAt "NamedPattern" r
      [("module_name", strings qualifier), ("name", .string name), ("arguments", .array (patternsToJson arguments))]
  | .parenthesized inner r => nodeAt "ParenthesizedPattern" r [("pattern", inner.toJson)]
  | .cons head tail r => nodeAt "UnConsPattern" r [("head", head.toJson), ("tail", tail.toJson)]
  | .list elements r => nodeAt "ListPattern" r [("elements", .array (patternsToJson elements))]
  | .tuple elements r => nodeAt "TuplePattern" r [("elements", .array (patternsToJson elements))]
  | .aliased inner name r => nodeAt "AsPattern" r [("pattern", inner.toJson), ("alias", .string name)]
  | .record fields r => nodeAt "RecordPattern" r [("fields", strings fields)]

/-- Patterns as JSON. -/
def patternsToJson : List Pattern → List JsonValue
  | [] => []
  | p :: ps => p.toJson :: patternsToJson ps

end

/-- A field of a record type as JSON, when its type is. -/
def fieldToJson (name : String) (type : JsonValue) (r : SourceRange) : JsonValue :=
  nodeAt "RecordField" r [("name", .string name), ("type_annotation", type)]

mutual

/-- A type annotation as JSON. -/
def TypeExpr.toJson : TypeExpr → JsonValue
  | .var name r => nodeAt "GenericType" r [("name", .string name)]
  | .reference qualifier name arguments r => nodeAt "TypeReference" r
      [("module_name", strings qualifier), ("name", .string name), ("arguments", .array (typesToJson arguments))]
  | .unit r => nodeAt "UnitType" r []
  | .tuple elements r => nodeAt "TupleType" r [("elements", .array (typesToJson elements))]
  | .record fields base r => nodeAt "RecordType" r
      [("fields", .array (fieldsToJson fields)), ("extends", ofOption .string base)]
  | .function argument result r => nodeAt "FunctionType" r [("argument", argument.toJson), ("result", result.toJson)]

/-- Type annotations as JSON. -/
def typesToJson : List TypeExpr → List JsonValue
  | [] => []
  | t :: ts => t.toJson :: typesToJson ts

/-- The fields of a record type as JSON. -/
def fieldsToJson : List (FieldType TypeExpr) → List JsonValue
  | [] => []
  | ⟨name, type, r⟩ :: fields => fieldToJson name type.toJson r :: fieldsToJson fields

end

/-- A field of a record type as JSON. -/
def FieldType.toJson (f : FieldType TypeExpr) : JsonValue := fieldToJson f.name f.type.toJson f.range

/-- A signature as JSON. -/
def Signature.toJson (s : Signature) : JsonValue :=
  nodeAt "Signature" s.range [("name", .string s.name), ("type_annotation", s.type.toJson)]

/-! ## Expressions -/

/-- A field with its value as JSON, when its value is. -/
def setterToJson (name : String) (value : JsonValue) (r : SourceRange) : JsonValue :=
  nodeAt "RecordSetter" r [("name", .string name), ("expression", value)]

/-- An arm as JSON, when its body is. -/
def armToJson (pattern : Pattern) (body : JsonValue) : JsonValue :=
  node "CaseArm" [("pattern", pattern.toJson), ("expression", body)]

/-- A function as JSON, when its body is. -/
def functionToJson (name : String) (arguments : List Pattern) (body : JsonValue) (r : SourceRange)
    (signature : Option Signature) : JsonValue :=
  nodeAt "FunctionDeclaration" r
    [("name", .string name), ("arguments", .array (patternsToJson arguments)), ("expression", body),
     ("signature", ofOption Signature.toJson signature)]

/-- A destructuring binding as JSON, when its value is. -/
def destructuringToJson (pattern : Pattern) (value : JsonValue) (r : SourceRange) : JsonValue :=
  nodeAt "LetDestructuring" r [("pattern", pattern.toJson), ("expression", value)]

mutual

/-- An expression as JSON. -/
def Expr.toJson : Expr → JsonValue
  | .literal value r => nodeAt "Literal" r value.members
  | .reference qualifier name r =>
    nodeAt "FunctionOrValue" r [("module_name", strings qualifier), ("name", .string name)]
  | .application function arguments r =>
    nodeAt "Application" r [("expressions", .array (function.toJson :: exprsToJson arguments))]
  | .binary operator left right r => nodeAt "OperatorApplication" r
      [("operator", .string operator), ("left", left.toJson), ("right", right.toJson)]
  | .operator operator r => nodeAt "PrefixOperator" r [("operator", .string operator)]
  | .negation inner r => nodeAt "Negation" r [("expression", inner.toJson)]
  | .parenthesized inner r => nodeAt "ParenthesizedExpression" r [("expression", inner.toJson)]
  | .tuple elements r => nodeAt "TupledExpression" r [("elements", .array (exprsToJson elements))]
  | .list elements r => nodeAt "ListExpression" r [("elements", .array (exprsToJson elements))]
  | .record setters r => nodeAt "RecordExpression" r [("setters", .array (settersToJson setters))]
  | .update name setters r =>
    nodeAt "RecordUpdate" r [("name", .string name), ("setters", .array (settersToJson setters))]
  | .access inner field r => nodeAt "RecordAccess" r [("expression", inner.toJson), ("field", .string field)]
  | .accessor field r => nodeAt "RecordAccessFunction" r [("field", .string field)]
  | .conditional condition thenBranch elseBranch r => nodeAt "IfBlock" r
      [("condition", condition.toJson), ("then_branch", thenBranch.toJson), ("else_branch", elseBranch.toJson)]
  | .caseOf subject arms r => nodeAt "CaseExpression" r [("subject", subject.toJson), ("arms", .array (armsToJson arms))]
  | .letIn declarations body r => nodeAt "LetExpression" r
      [("declarations", .array (letDeclsToJson declarations)), ("expression", body.toJson)]
  | .lambda arguments body r =>
    nodeAt "Lambda" r [("arguments", .array (patternsToJson arguments)), ("expression", body.toJson)]

/-- Expressions as JSON. -/
def exprsToJson : List Expr → List JsonValue
  | [] => []
  | e :: es => e.toJson :: exprsToJson es

/-- The fields of a record as JSON. -/
def settersToJson : List (Setter Expr) → List JsonValue
  | [] => []
  | ⟨name, value, r⟩ :: setters => setterToJson name value.toJson r :: settersToJson setters

/-- The arms of a `case` as JSON. -/
def armsToJson : List (Arm Expr) → List JsonValue
  | [] => []
  | ⟨pattern, body⟩ :: arms => armToJson pattern body.toJson :: armsToJson arms

/-- The declarations of a `let` as JSON. -/
def letDeclsToJson : List (LetDecl Expr) → List JsonValue
  | [] => []
  | .function ⟨name, arguments, body, r, signature⟩ :: decls =>
    functionToJson name arguments body.toJson r signature :: letDeclsToJson decls
  | .destructuring pattern value r :: decls => destructuringToJson pattern value.toJson r :: letDeclsToJson decls

end

/-- A field with its value as JSON. -/
def Setter.toJson (s : Setter Expr) : JsonValue := setterToJson s.name s.value.toJson s.range

/-- An arm as JSON. -/
def Arm.toJson (a : Arm Expr) : JsonValue := armToJson a.pattern a.body.toJson

/-- A function as JSON. -/
def FunctionDecl.toJson (d : FunctionDecl Expr) : JsonValue :=
  functionToJson d.name d.arguments d.body.toJson d.range d.signature

/-- A `let` declaration as JSON. -/
def LetDecl.toJson : LetDecl Expr → JsonValue
  | .function d => d.toJson
  | .destructuring pattern value r => destructuringToJson pattern value.toJson r

/-- An item of a `let` block as JSON. -/
def LetItem.toJson : LetItem → JsonValue
  | .signature s => s.toJson
  | .declaration d => d.toJson

/-! ## Modules -/

/-- A constructor of a custom type as JSON. -/
def ValueConstructor.toJson (c : ValueConstructor) : JsonValue :=
  nodeAt "ValueConstructor" c.range [("name", .string c.name), ("arguments", .array (typesToJson c.arguments))]

/-- A custom type as JSON. -/
def CustomType.toJson (d : CustomType) : JsonValue :=
  nodeAt "CustomTypeDeclaration" d.range
    [("name", .string d.name), ("type_variables", strings d.parameters),
     ("constructors", .array (d.constructors.map ValueConstructor.toJson))]

/-- A type alias as JSON. -/
def TypeAlias.toJson (d : TypeAlias) : JsonValue :=
  nodeAt "TypeAliasDeclaration" d.range
    [("name", .string d.name), ("type_variables", strings d.parameters), ("type_annotation", d.type.toJson)]

/-- A port as JSON. -/
def Port.toJson (d : Port) : JsonValue :=
  nodeAt "PortDeclaration" d.range [("name", .string d.name), ("type_annotation", d.type.toJson)]

/-- A declaration as JSON. -/
def Declaration.toJson : Declaration → JsonValue
  | .function d => d.toJson
  | .customType d => d.toJson
  | .typeAlias d => d.toJson
  | .port d => d.toJson
  | .signature d => d.toJson

/-- An entry of an exposing list as JSON. -/
def ExposedItem.toJson (i : ExposedItem) : JsonValue :=
  nodeAt "ExposedItem" i.range [("name", .string i.name), ("kind", .string i.kind.name)]

/-- An exposing list as JSON. -/
def Exposing.toJson (e : Exposing) : JsonValue :=
  nodeAt "Exposing" e.range
    [("expose_all", .bool e.isEverything), ("items", .array (e.items.map ExposedItem.toJson))]

/-- A module header as JSON. -/
def ModuleHeader.toJson (h : ModuleHeader) : JsonValue :=
  nodeAt "ModuleHeader" h.range
    [("module_name", strings h.name), ("exposing", h.exposing.toJson),
     ("is_port_module", .bool (h.kind == .port)), ("is_effect_module", .bool (h.kind == .effect))]

/-- An import as JSON. -/
def Import.toJson (i : Import) : JsonValue :=
  nodeAt "Import" i.range
    [("module_name", strings i.name), ("alias", ofOption .string i.aliasName),
     ("exposing", ofOption Exposing.toJson i.exposing)]

/-- A comment as JSON. -/
def Comment.toJson (c : Comment) : JsonValue := nodeAt "Comment" c.range [("text", .string c.text)]

/-- A module as JSON. -/
def Module.toJson (m : Module) : JsonValue :=
  node "Module"
    [("header", ofOption ModuleHeader.toJson m.header), ("imports", .array (m.imports.map Import.toJson)),
     ("declarations", .array (m.declarations.map Declaration.toJson)),
     ("comments", .array (m.comments.map Comment.toJson)), ("file", .string m.file)]

end ElmLint
