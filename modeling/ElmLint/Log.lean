/-!
# Log records

What the program tells about its work besides its results. A record names the part of the program it comes from.
-/

namespace ElmLint

/-- How important a record is. -/
inductive LogLevel where
  | debug
  | warning
  | error
deriving Repr, DecidableEq, Inhabited

namespace LogLevel

/-- The level in words. -/
def name : LogLevel → String
  | debug => "DEBUG"
  | warning => "WARNING"
  | error => "ERROR"

/-- The place of a level in the order of importance. -/
def rank : LogLevel → Nat
  | debug => 0
  | warning => 1
  | error => 2

end LogLevel

/-- The parts of the program that log. -/
inductive LogOrigin where
  | program
  | configuration
  | layout
  | parser
  | lookup
  | checkers
  | ignoredError
deriving Repr, DecidableEq, Inhabited

/-- The name of a part of the program. -/
def LogOrigin.name : LogOrigin → String
  | program => "elmcheck"
  | configuration => "elmcheck.config"
  | layout => "elmcheck.layout"
  | parser => "elmcheck.parser"
  | lookup => "elmcheck.lookup"
  | checkers => "elmcheck.checkers"
  | ignoredError => "elmcheck.ignored_error"

/-- A record: its level, the part of the program it comes from, and what it says. -/
structure LogRecord where
  level : LogLevel
  origin : LogOrigin
  text : String
deriving Repr, DecidableEq, Inhabited

namespace LogRecord

/-- The record on one line. -/
def render (r : LogRecord) : String := r.level.name ++ " " ++ r.origin.name ++ ": " ++ r.text

/-- Whether a record is at least as important as a level. -/
def reaches (r : LogRecord) (level : LogLevel) : Bool := level.rank ≤ r.level.rank

end LogRecord

end ElmLint
