import ElmLint.Text.Quoted

/-!
# Failures

What goes wrong around the checks (a source that cannot be read or parsed, a configuration or a manifest that cannot be
used) is reported as a failure: a message with a code, a place and perhaps a hint. The parts of the library that fail say
why in types of their own, and each of them knows the failure that reports it.
-/

namespace ElmLint

/-- A number of at least four digits, a minus sign counting as one. -/
def fourDigits (n : Int) : String :=
  let sign := if n < 0 then ['-'] else []
  let digits := Nat.toDigits 10 n.natAbs
  String.ofList (sign ++ List.replicate (4 - sign.length - digits.length) '0' ++ digits)

/-- The code of a failure: a number within a family of codes, and what it stands for. -/
structure ErrorCode where
  number : Int
  title : String
  family : String := "ELMC"
deriving Repr, DecidableEq, Inhabited

namespace ErrorCode

/-- The code as it is written: `ELMC-1001`. -/
def render (c : ErrorCode) : String := c.family ++ "-" ++ fourDigits c.number

/-- Two codes are the same when their families and numbers are; the title does not count. -/
def same (c d : ErrorCode) : Bool := c.family == d.family && c.number == d.number

/-- The code with its title, for debugging. -/
def describe (c : ErrorCode) : String := "ErrorCode(" ++ quoted c.render ++ ", " ++ quoted c.title ++ ")"

def invalidSyntax : ErrorCode := { number := 1001, title := "invalid syntax" }
def incompleteParse : ErrorCode := { number := 1002, title := "unparsed trailing input" }
def unreadableSource : ErrorCode := { number := 1003, title := "source file cannot be read" }
def invalidConfig : ErrorCode := { number := 2001, title := "invalid configuration" }
def unknownOption : ErrorCode := { number := 2002, title := "unknown configuration option" }
def invalidManifest : ErrorCode := { number := 3001, title := "invalid dependency manifest" }
def internalError : ErrorCode := { number := 9001, title := "internal error" }

end ErrorCode

/-- The place a failure is about: a file, or a line of it, or a point of it. Lines and columns that are not positive are
left out. -/
structure Span where
  file : String := ""
  line : Int := 0
  column : Int := 0
deriving Repr, DecidableEq, Inhabited

/-- The place as `file:line:column`, as far as it is known. -/
def Span.render (s : Span) : String :=
  if s.file.isEmpty && s.line == 0 then "<unknown location>"
  else
    let file := if s.file.isEmpty then [] else [s.file]
    let point := if s.line ≤ 0 then [] else if s.column ≤ 0 then [s.line] else [s.line, s.column]
    ":".intercalate (file ++ point.map toString)

/-- What a failure concerns. -/
inductive Failure.Kind where
  /-- A source that cannot be read, or the program itself. -/
  | general
  /-- A source that the grammar does not accept. -/
  | source
  | configuration
  | manifest
deriving Repr, DecidableEq, Inhabited

/-- The code of a failure for which none is given. -/
def Failure.Kind.defaultCode : Failure.Kind → ErrorCode
  | general => .internalError
  | source => .invalidSyntax
  | configuration => .invalidConfig
  | manifest => .invalidManifest

/-- A failure; an empty hint is none. -/
structure Failure where
  kind : Failure.Kind
  message : String
  code : ErrorCode := kind.defaultCode
  span : Span := {}
  hint : String := ""
deriving Repr, DecidableEq, Inhabited

namespace Failure

/-- The failure as it is printed, with its hint on a line of its own. -/
def render (f : Failure) : String :=
  f.span.render ++ ": error: " ++ f.message ++ " [" ++ f.code.render ++ "]" ++
    if f.hint.isEmpty then "" else "\n  hint: " ++ f.hint

/-- The hint that names what was expected: at most three things, and dots for the others. -/
def expectedHint (expected : List String) : String :=
  if expected.isEmpty then ""
  else
    let dots := if 3 < expected.length then ["..."] else []
    "Expected one of: " ++ ", ".intercalate (expected.take 3 ++ dots)

/-- A failure with a hint that names what was expected, unless it has a hint already. -/
def expecting (f : Failure) (expected : List String) : Failure :=
  if f.hint.isEmpty then { f with hint := expectedHint expected } else f

end Failure

end ElmLint
