import ElmLint.Text.Digit

/-!
# Decimal numbers

A decimal number is an integer times a power of ten. `Decimal.ofText` reads the notation of number literals: digits of any
script, perhaps a decimal point with digits, perhaps an exponent with a sign.
-/

namespace ElmLint

/-- The number `coefficient · 10 ^ exponent`. -/
structure Decimal where
  coefficient : Nat
  exponent : Int
deriving Repr, DecidableEq, Inhabited

namespace Decimal

/-- The value of an exponent without its letter: an optional sign and digits. -/
def exponentOfText : List Char → Int
  | '-' :: digits => -(decimalNumber digits : Int)
  | '+' :: digits => decimalNumber digits
  | digits => decimalNumber digits

/-- The number that a literal such as `12`, `1.5` or `2.5e-3` denotes. -/
def ofText (text : List Char) : Decimal :=
  let whole := text.takeWhile isDigit
  let rest := text.dropWhile isDigit
  let fraction := if rest.head? == some '.' then (rest.drop 1).takeWhile isDigit else []
  let tail := if rest.head? == some '.' then (rest.drop 1).dropWhile isDigit else rest
  ⟨decimalNumber (whole ++ fraction), exponentOfText (tail.drop 1) - fraction.length⟩

/-- The number of decimal digits of the coefficient. -/
def digitCount (d : Decimal) : Nat := (Nat.toDigits 10 d.coefficient).length

end Decimal

end ElmLint
