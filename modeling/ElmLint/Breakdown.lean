import ElmLint.FileTree
import ElmLint.Syntax.Literal

/-!
# Breakdowns

Most of what goes wrong is reported as a failure, and the program goes on or ends in good order. A breakdown ends it in the
middle of its work, with nothing but what it has written so far.
-/

namespace ElmLint

/-- Why the program breaks off in the middle of its work. -/
inductive Breakdown where
  /-- A configuration or a manifest is no UTF-8. -/
  | encoding (error : Utf8.Error)
  /-- A source has a literal without a value. -/
  | literal (error : LiteralError)
  /-- A file is to be read at something that is no path. -/
  | path (error : PathError)
  /-- It cannot be found out what stands at a path. -/
  | access (place : String) (error : AccessError)
  /-- An option that cannot do without a value was given none. -/
  | noValue
deriving Repr, DecidableEq, Inhabited

/-- The breakdown in words. -/
def Breakdown.message : Breakdown → String
  | encoding error => error.message
  | literal error => error.message
  | path error => error.message
  | access place error => error.message place
  | noValue => "an option was given no value"

end ElmLint
