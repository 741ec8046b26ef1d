import ElmLint.Diagnostic
import ElmLint.Syntax.Module
import ElmLint.Text.Glob
import ElmLint.Text.Space
import ElmLint.Text.Word

/-!
# Suppressions

A diagnostic can be suppressed everywhere, in some files, or by a comment on its line or on the line before it. The comment
is `-- elmcheck-suppress id, id reason`: the ids come first, separated by commas, and whatever follows them is a reason. A
comment without ids suppresses everything, as does the id `*` wherever it stands.
-/

namespace ElmLint

namespace Directive

/-- The word that makes a comment a directive. -/
def keyword : List Char := "elmcheck-suppress".toList

/-- The id that stands for all ids. -/
def wildcard : String := "*"

/-- A character of an error id. -/
def isIdChar (c : Char) : Bool := isWordChar c || c == '*'

/-- A character that would make the keyword part of a longer word. -/
def continuesKeyword (c : Char) : Bool := isWordChar c || c == '-'

/-- The text after the comma that separates two ids. -/
def afterComma? (cs : List Char) : Option (List Char) :=
  match cs.dropWhile isSpace with
  | ',' :: rest => some (rest.dropWhile isSpace)
  | _ => none

/-- The ids of a list that begins here, as far as the list goes; `bound` is at least their number. -/
def idList : (bound : Nat) → List Char → List String
  | 0, _ => []
  | bound + 1, cs =>
    let id := cs.takeWhile isIdChar
    if id.isEmpty then []
    else
      String.ofList id ::
        match afterComma? (cs.drop id.length) with
        | some rest => idList bound rest
        | none => []

/-- The ids that a comment lists, when it is a directive. -/
def ids? (comment : List Char) : Option (List String) :=
  match comment with
  | '-' :: '-' :: rest =>
    let body := rest.dropWhile isSpace
    if keyword.isPrefixOf body then
      let tail := body.drop keyword.length
      match tail with
      | [] => some []
      | c :: _ =>
        if continuesKeyword c then none
        else if isSpace c then some (idList tail.length (tail.dropWhile isSpace))
        else some []
    else none
  | _ => none

/-- The ids that a comment suppresses: those it lists, or all of them. -/
def suppressed? (comment : List Char) : Option (List String) :=
  (ids? comment).map fun ids => if ids.isEmpty then [wildcard] else ids

end Directive

/-- What is suppressed: ids everywhere, ids in the files that match a pattern, and ids at a line of a file. -/
structure Suppressions where
  everywhere : List Text := []
  inFiles : List (Text × Text) := []
  atLines : List (String × Nat × String) := []
deriving Repr, DecidableEq, Inhabited

namespace Suppressions

/-- Suppress an id everywhere. -/
def addGlobal (s : Suppressions) (id : Text) : Suppressions := { s with everywhere := s.everywhere ++ [id] }

/-- Suppress an id in the files that match a pattern. -/
def addFile (s : Suppressions) (id pattern : Text) : Suppressions := { s with inFiles := s.inFiles ++ [(pattern, id)] }

/-- What a comment of a file suppresses, and at which line. -/
def ofComment (file : String) (c : Comment) : List (String × Nat × String) :=
  ((Directive.suppressed? c.text.toList).getD []).map fun id => (file, c.range.start.row, id)

/-- Take in the directives among the comments of a module. -/
def loadInline (s : Suppressions) (m : Module) : Suppressions :=
  { s with atLines := s.atLines ++ m.comments.flatMap (ofComment m.file) }

/-- Whether a suppressed id stands for the id of a diagnostic. -/
def coversId (id : Text) (d : Diagnostic) : Bool := id = d.errorId || id = Directive.wildcard

/-- Whether a file pattern selects a file: it is its name, the end of its name, or matches it. -/
def selectsFile (pattern file : Text) : Bool :=
  pattern == file || pattern.codePoints.isSuffixOf file.codePoints || globMatches pattern file

/-- Whether a directive at a line reaches a diagnostic: it stands on the same line, or on the line before. -/
def reachesLine (line : Nat) (d : Diagnostic) : Bool := line == d.range.start.row || line + 1 == d.range.start.row

/-- Whether a diagnostic is suppressed. -/
def covers (s : Suppressions) (d : Diagnostic) : Bool :=
  s.everywhere.any (coversId · d)
  || s.atLines.any (fun (file, line, id) => file == d.file && reachesLine line d && coversId id d)
  || s.inFiles.any (fun (pattern, id) => coversId id d && selectsFile pattern d.file)

/-- The diagnostics that are not suppressed. -/
def filter (s : Suppressions) (ds : List Diagnostic) : List Diagnostic := ds.filter (!s.covers ·)

end Suppressions

end ElmLint
