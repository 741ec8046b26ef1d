import ElmLint.Grammar.Expr

/-!
# The grammar of declarations and modules
-/

namespace ElmLint.Grammar

variable (locate : Locate)

/-! ## Headers and imports -/

/-- An operator in an exposing list. -/
def exposedOperator : Phrase ExposedItem :=
  .node (fun i j name => ⟨name, .operator, locate i j⟩) (between "(" operator ")")

/-- A type with its constructors in an exposing list. -/
def exposedOpenType : Phrase ExposedItem :=
  .node (fun i j name => ⟨name, .openType, locate i j⟩)
    (upperName <* gap <* symbol "(" <* gap <* symbol ".." <* gap <* symbol ")")

/-- An entry of an exposing list. -/
def exposedItem : Phrase ExposedItem :=
  exposedOperator locate
  <|> exposedOpenType locate
  <|> .node (fun i j name => ⟨name, .type, locate i j⟩) upperName
  <|> .node (fun i j name => ⟨name, .value, locate i j⟩) lowerName

/-- The entries of an exposing list. -/
def exposedItems : Phrase (List ExposedItem) := commaList (exposedItem locate)

/-- What stands between the parentheses of an exposing list: nothing for everything, or the entries. -/
def exposedBody : Phrase (Option (List ExposedItem)) :=
  .map (fun _ => none) (symbol "..") <|> .map some (exposedItems locate)

/-- An exposing list. -/
def exposing : Phrase Exposing :=
  .node (fun i j items => match items with
    | some items => .only items (locate i j)
    | none => .everything (locate i j))
  (between "(" (exposedBody locate) ")")

/-- The word that announces a port or effect module. -/
def moduleKind : Phrase ModuleKind :=
  (.map (fun _ => .port) (word "port") <|> .map (fun _ => .effect) (word "effect")) <* space

/-- The settings of an effect module, which are skipped. -/
def effectSettings : Phrase (List Char) :=
  space *> word "where" *> gap *> symbol "\x7b" *> .lexeme .untilBrace <* symbol "\x7d"

/-- The header of a module. -/
def header : Phrase ModuleHeader :=
  .node (fun i j (kind, name, exposing) => ⟨name, exposing, kind.getD .plain, locate i j⟩)
    (.seq (.opt moduleKind)
      (.seq (word "module" *> space *> moduleName <* .opt effectSettings)
        (gap *> word "exposing" *> gap *> exposing locate)))

/-- `as Alias`. -/
def importAlias : Phrase String := space *> word "as" *> space *> upperName

/-- `exposing (…)` of an import. -/
def importExposing : Phrase Exposing := gap *> word "exposing" *> gap *> exposing locate

/-- An import. -/
def importDecl : Phrase Import :=
  .node (fun i j (name, aliasName, exposing) => ⟨name, aliasName, exposing, locate i j⟩)
    (.seq (word "import" *> space *> moduleName) (.seq (.opt importAlias) (.opt (importExposing locate))))

/-! ## Types and ports -/

/-- The type variables that a type declaration binds. -/
def typeVariables : Phrase (List String) := .many (space *> lowerName)

/-- A constructor with the types of its arguments. -/
def valueConstructor : Phrase ValueConstructor :=
  .node (fun i j (name, arguments) => ⟨name, arguments, locate i j⟩)
    (.seq upperName (.many (gap *> rule .typeAtom)))

/-- The constructors after the first. -/
def moreConstructors : Phrase (List ValueConstructor) := .many (spaced "|" *> valueConstructor locate)

/-- The declaration of a custom type. -/
def customType : Phrase CustomType :=
  .node (fun i j (name, parameters, first, rest) => ⟨name, parameters, first :: rest, locate i j⟩)
    (.seq (word "type" *> space *> upperName)
      (.seq typeVariables (.seq (spaced "=" *> valueConstructor locate) (moreConstructors locate))))

/-- The declaration of a type alias. -/
def typeAlias : Phrase TypeAlias :=
  .node (fun i j (name, parameters, type) => ⟨name, parameters, type, locate i j⟩)
    (.seq (word "type" *> space *> word "alias" *> space *> upperName)
      (.seq typeVariables (spaced "=" *> rule .typeExpr)))

/-- The declaration of a port. -/
def port : Phrase Port :=
  .node (fun i j (name, type) => ⟨name, type, locate i j⟩)
    (.seq (word "port" *> space *> lowerName) (spaced ":" *> rule .typeExpr))

/-! ## Modules -/

/-- An item of the top level. -/
def topItem : Phrase TopItem :=
  .map .header (header locate)
  <|> .map .imported (importDecl locate)
  <|> .map (fun decl => .declaration (.port decl)) (port locate)
  <|> .map (fun decl => .declaration (.typeAlias decl)) (typeAlias locate)
  <|> .map (fun decl => .declaration (.customType decl)) (customType locate)
  <|> .map (fun decl => .declaration (.signature decl)) (signature locate)
  <|> .map (fun decl => .declaration (.function decl)) (functionDecl locate)

/-- The items of a module. A text always begins with a module, if only an empty one. -/
def topLevel : Phrase (List TopItem) :=
  .map (·.getD [])
    (gap *> .opt (separated (gap *> marker .separating *> gap) (topItem locate)) <* gap)

/-! ## The grammar as a whole -/

/-- The expression of each rule. -/
def rules : (r : Rule) → Phrase r.Sem
  | .typeExpr => typeExpr locate
  | .typeAtom => typeAtom locate
  | .pattern => pattern locate
  | .consPattern => consPattern locate
  | .patternAtom => patternAtom locate
  | .expr => expr
  | .operand => operand locate
  | .postfixAtom => postfixAtom locate
  | .atom => atom locate
  | .setter => setter locate
  | .arm => arm
  | .letItem => letItem locate

/-- How deeply rules can call each other on a text. Between two calls of one rule some text is read, so each rule is
called at most once more than there are characters. -/
def fuelFor (text : List Char) : Nat := 12 * (text.length + 1)

/-- Read a phrase at the start of a text. -/
def readText {α : Type} (phrase : Phrase α) (text : List Char) : Outcome α :=
  phrase.read (Peg.run (rules locate) (fuelFor text)) (.start text)

end ElmLint.Grammar
