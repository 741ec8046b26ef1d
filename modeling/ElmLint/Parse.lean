import ElmLint.Failure
import ElmLint.Grammar.Module
import ElmLint.Layout
import ElmLint.Syntax.PlacedLiteral

/-!
# Parsing

`Module.parse` lays a source out and reads it as a module. It fails when a block comment is never closed, when the grammar
stops before the end of the text, and when a literal has no value.
-/

namespace ElmLint

/-- Why a text is not read as a phrase: it does not begin with one, or the phrase ends before the text. -/
inductive PhraseError where
  | noMatch
  | trailing (offset : Nat)
deriving Repr, DecidableEq, Inhabited

/-- Read the whole of a laid-out text as one phrase, with places in the source. -/
def LaidOut.readPhrase {α : Type} (l : LaidOut) (phrase : Grammar.Locate → Grammar.Phrase α) : Except PhraseError α :=
  match Grammar.readText l.range (phrase l.range) l.text with
  | .ok value next => if next.rest.isEmpty then .ok value else .error (.trailing next.offset)
  | .fail | .exhausted => .error .noMatch

/-- Why a source is not read as a module. -/
inductive ParseError where
  /-- A block comment that is never closed, with the position of its beginning. -/
  | unclosedComment (position : Position)
  /-- The position after the longest part of the source that could be read. -/
  | unparsed (position : Position)
  /-- A literal without a value. -/
  | literal (error : LiteralError)
deriving Repr, DecidableEq, Inhabited

namespace ParseError

/-- The failure that reports an error in a file. A literal without a value has none, and it is told why instead. -/
def report (file : String) : ParseError → Except LiteralError Failure
  | unclosedComment position => .ok {
      kind := .source
      message := "unterminated block comment"
      span := ⟨file, position.row, position.column⟩
      hint := "Block comments '\x7b-' must be closed with '-\x7d'" }
  | unparsed position => .ok {
      kind := .source
      message := "could not parse the declaration starting here"
      code := .incompleteParse
      span := ⟨file, position.row, position.column⟩ }
  | literal error => .error error

end ParseError

/-- Lay out a source. -/
def LaidOut.parse (source : String) : Except ParseError LaidOut :=
  (LaidOut.ofSource source.toList).mapError fun offset =>
    .unclosedComment (Position.ofOffset (lineStarts source.toList) offset)

/-- Read a laid-out source as a module. -/
def Module.ofLaidOut (l : LaidOut) (file : String) : Except ParseError Module :=
  match l.readPhrase Grammar.topLevel with
  | .ok items =>
    let m := Module.ofItems items l.comments file
    match literalError? m.literals with
    | some error => .error (.literal error)
    | none => .ok m
  | .error (.trailing offset) => .error (.unparsed (l.position offset))
  | .error .noMatch => .error (.unparsed (l.position 0))

/-- Read a source as a module. -/
def Module.parse (source : String) (file : String) : Except ParseError Module :=
  (LaidOut.parse source).bind (Module.ofLaidOut · file)

end ElmLint
