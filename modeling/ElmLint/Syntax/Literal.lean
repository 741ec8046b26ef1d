import ElmLint.Lexeme
import ElmLint.Number.Binary64

/-!
# Literals

The text of a string or character literal is a list of code points rather than of characters: an escape `\u{…}` may name
any number, a surrogate or a number beyond the last code point included. `Literal.error?` finds such a number, and tells of
a number whose digits have no value: one of them is no digit yet, or a decimal integer has more of them than are converted
(`Literal.maxDigits`).
-/

namespace ElmLint

/-- A literal with its value. -/
inductive Literal where
  | int (value : Nat)
  | float (value : Binary64)
  | string (codePoints : List Nat)
  | char (codePoints : List Nat)
  | unit
  /-- A number with a digit that has no value, or with more digits than are converted. -/
  | valueless (text : String)
deriving Repr, DecidableEq, Inhabited

/-- Why a literal has no value. -/
inductive LiteralError where
  /-- An escape names a number that is no code point. -/
  | noCodePoint (number : Nat)
  /-- The digits that a number is written with have no value: one of them has none, or there are too many of them. -/
  | noDigitValue (text : String)
deriving Repr, DecidableEq, Inhabited

/-- The error in words. -/
def LiteralError.message : LiteralError → String
  | noCodePoint number => "an escape names " ++ toString number ++ ", which is no code point"
  | noDigitValue text =>
    if text.toList.any isLaterDigit then "a digit of " ++ text ++ " has no value"
    else "the " ++ toString text.length ++ " digits of a number are too many"

namespace Literal

/-- The last code point. -/
def maxCodePoint : Nat := 0x10FFFF

/-- The most digits of a decimal integer that are converted, zeros in front included. -/
def maxDigits : Nat := 4300

/-- The character that a one-letter escape stands for: itself, unless it names a control character. -/
def escaped (c : Char) : Nat :=
  match c with
  | 'n' => 10
  | 't' => 9
  | 'r' => 13
  | c => c.toNat

/-- The code that an escape `u{…}` names, and how many characters it has after the `u`. -/
def codeEscape? : List Char → Option (Nat × Nat)
  | '{' :: cs =>
    let digits := cs.takeWhile isHexDigit
    if !digits.isEmpty && (cs.drop digits.length).head? == some '}' then some (hexNumber digits, digits.length + 2)
    else none
  | _ => none

/-- What the characters after a backslash denote, and how many of them belong to the escape. -/
def escape? : List Char → Option (Nat × Nat)
  | [] => none
  | 'u' :: cs => match codeEscape? cs with
    | some (code, n) => some (code, n + 1)
    | none => some ('u'.toNat, 1)
  | c :: _ => some (escaped c, 1)

/-- The code points of a text with escapes; `skip` characters still belong to the last escape. -/
def unescapeFrom : Nat → List Char → List Nat
  | _, [] => []
  | skip + 1, _ :: cs => unescapeFrom skip cs
  | 0, c :: cs =>
    if c == '\\' then
      match escape? cs with
      | some (code, n) => code :: unescapeFrom n cs
      | none => c.toNat :: unescapeFrom 0 cs
    else c.toNat :: unescapeFrom 0 cs

/-- The code points that the body of a string or character literal denotes. -/
def unescape (body : List Char) : List Nat := unescapeFrom 0 body

/-- A text without its first and last `n` characters. -/
def inner (n : Nat) (text : List Char) : List Char := (text.drop n).take (text.length - 2 * n)

/-- The value of a string literal with its quotes. -/
def ofString (text : List Char) : Literal :=
  .string (unescape (inner (if text.take 3 == ['"', '"', '"'] then 3 else 1) text))

/-- The value of a character literal with its quotes. -/
def ofChar (text : List Char) : Literal := .char (unescape (inner 1 text))

/-- A number, when all its digits have values. -/
def ofNumber (value : List Char → Literal) (text : List Char) : Literal :=
  if text.any isLaterDigit then .valueless (String.ofList text) else value text

/-- The value of a decimal or hexadecimal integer. A decimal one with too many digits has none. -/
def ofInt : List Char → Literal :=
  ofNumber fun text =>
    match text with
    | '0' :: 'x' :: digits => .int (hexNumber digits)
    | digits => if maxDigits < digits.length then .valueless (String.ofList digits) else .int (decimalNumber digits)

/-- The value of a number with a fraction or an exponent. -/
def ofFloat : List Char → Literal := ofNumber fun text => .float (.nearest (.ofText text))

/-- Why a literal has no value; in a text the first number that is no code point counts. A number without a value is one
that has a digit without a value, or a decimal integer of more than `maxDigits` digits. -/
def error? : Literal → Option LiteralError
  | .string codePoints | .char codePoints => (codePoints.find? (maxCodePoint < ·)).map .noCodePoint
  | .valueless text => some (.noDigitValue text)
  | _ => none

end Literal

end ElmLint
