/-!
# Classes of characters given by a table

A class of characters is written down as the ascending list of the code points at which membership changes: the first
entry is the first member, the second the first non-member after it, and so on. A code point is a member when an odd
number of entries lie at or below it.

The small ASCII classes that names and numbers are made of stand here too.
-/

namespace ElmLint

/-- The code points at which membership in a class of characters changes, in ascending order. -/
abbrev CharClass := List Nat

/-- Membership of a code point: an odd number of changes lie at or below it. -/
def CharClass.has (changes : CharClass) (codePoint : Nat) : Bool :=
  (changes.takeWhile (· ≤ codePoint)).length % 2 == 1

/-- Membership of a character. -/
def CharClass.contains (changes : CharClass) (c : Char) : Bool := changes.has c.toNat

/-! ## ASCII classes -/

/-- `a` to `z`. -/
def isLower (c : Char) : Bool := 'a' ≤ c && c ≤ 'z'

/-- `A` to `Z`. -/
def isUpper (c : Char) : Bool := 'A' ≤ c && c ≤ 'Z'

/-- An ASCII letter. -/
def isLetter (c : Char) : Bool := isLower c || isUpper c

/-- `0` to `9`. -/
def isAsciiDigit (c : Char) : Bool := '0' ≤ c && c ≤ '9'

/-- A character that continues a name: a letter, an ASCII digit or the underscore. -/
def isNameChar (c : Char) : Bool := isLetter c || isAsciiDigit c || c == '_'

/-- A hexadecimal digit in either case. -/
def isHexDigit (c : Char) : Bool :=
  isAsciiDigit c || ('a' ≤ c && c ≤ 'f') || ('A' ≤ c && c ≤ 'F')

/-- The value of a hexadecimal digit; zero for any other character. -/
def hexValue (c : Char) : Nat :=
  if isAsciiDigit c then c.toNat - '0'.toNat
  else if 'a' ≤ c && c ≤ 'f' then c.toNat - 'a'.toNat + 10
  else if 'A' ≤ c && c ≤ 'F' then c.toNat - 'A'.toNat + 10
  else 0

/-- The number that a run of hexadecimal digits denotes. -/
def hexNumber (digits : List Char) : Nat := digits.foldl (fun n c => n * 16 + hexValue c) 0

/-- The blanks of the source language: space, tab, carriage return and line feed. -/
def isBlank (c : Char) : Bool := c == ' ' || c == '\t' || c == '\r' || c == '\n'

end ElmLint
