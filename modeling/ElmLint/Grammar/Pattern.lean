import ElmLint.Grammar.Basic

/-!
# The grammar of patterns
-/

namespace ElmLint.Grammar

variable (locate : Locate)

/-- The wildcard `_`. -/
def wildcard : Phrase Pattern := .node (fun i j _ => .wildcard (locate i j)) (.lexeme .wildcard)

/-- The patterns between parentheses: a grouped one, or a tuple. -/
def patternGroup : Phrase Pattern :=
  .node (fun i j elements => match elements with
    | [inner] => .parenthesized inner (locate i j)
    | elements => .tuple elements (locate i j))
  (between "(" (commaList (rule .pattern)) ")")

/-- A tuple pattern. -/
def tuplePattern : Phrase Pattern :=
  .node (fun i j elements => .tuple elements (locate i j)) (between "(" (commaPair (rule .pattern)) ")")

/-- A pattern in parentheses. -/
def parenthesizedPattern : Phrase Pattern :=
  .node (fun i j inner => .parenthesized inner (locate i j)) (between "(" (rule .pattern) ")")

/-- The elements of a list pattern. -/
def patternList : Phrase (List Pattern) := commaList (rule .pattern)

/-- A list pattern. -/
def listPattern : Phrase Pattern :=
  .node (fun i j elements => .list (elements.getD []) (locate i j)) (between "[" (.opt patternList) "]")

/-- The fields of a record pattern. -/
def patternFields : Phrase (List String) := commaList lowerName

/-- A record pattern. -/
def recordPattern : Phrase Pattern :=
  .node (fun i j fields => .record (fields.getD []) (locate i j)) (between "\x7b" (.opt patternFields) "\x7d")

/-- A pattern that needs no parentheses as an argument. -/
def patternAtom : Phrase Pattern :=
  wildcard locate
  <|> .node (fun i j value => .literal value (locate i j)) (unit <|> literal)
  <|> patternGroup locate
  <|> listPattern locate
  <|> recordPattern locate
  <|> .node (fun i j (qualifier, name) => .named qualifier name [] (locate i j)) qualifiedUpper
  <|> .node (fun i j name => .var name (locate i j)) lowerName

/-- A constructor with at least one argument. -/
def appliedConstructor : Phrase Pattern :=
  .node (fun i j ((qualifier, name), arguments) => .named qualifier name arguments (locate i j))
    (.seq qualifiedUpper (.atLeastOne (gap *> rule .patternAtom)))

/-- A constructor with its arguments, or a pattern that needs no parentheses. -/
def appliedPattern : Phrase Pattern := appliedConstructor locate <|> rule .patternAtom

/-- A pattern without aliases outside parentheses; `::` associates to the right. -/
def consPattern : Phrase Pattern :=
  .node (fun i j (head, tail) => match tail with
    | some tail => .cons head tail (locate i j)
    | none => head)
  (.seq (appliedPattern locate) (.opt (spaced "::" *> rule .consPattern)))

/-- `as name`, with the place of both. -/
def aliasName : Phrase (String × SourceRange) :=
  .node (fun i j name => (name, locate i j)) (space *> word "as" *> space *> lowerName)

/-- A pattern; each alias spans from the start of what it names to its own end. -/
def pattern : Phrase Pattern :=
  .map (fun (inner, aliases) =>
    aliases.foldl (fun p (name, range) => .aliased p name ⟨p.range.start, range.stop⟩) inner)
  (.seq (rule .consPattern) (.many (aliasName locate)))

end ElmLint.Grammar
