import ElmLint.Text.CodePoint
import ElmLint.Text.Printable

/-!
# Quoted text

Messages show a name or a path between quotes. The quotes are single ones, unless the text holds a single quote and no
double quote. Backslashes, the quote in use and the line feed, carriage return and tab are escaped by a backslash; what is
not printable is written as a number.
-/

namespace ElmLint

/-- The hexadecimal digits of a number, with zeros before them up to a width. -/
def hexPadded (width n : Nat) : List Char :=
  let digits := Nat.toDigits 16 n
  List.replicate (width - digits.length) '0' ++ digits

namespace Quoted

/-- The quote that a text is put between. -/
def quoteFor (text : List CodePoint) : Char :=
  if text.contains (.char '\'') && !text.contains (.char '"') then '"' else '\''

/-- The number of a code point as an escape. -/
def numbered (n : Nat) : List Char :=
  if n < 0x100 then '\\' :: 'x' :: hexPadded 2 n
  else if n < 0x10000 then '\\' :: 'u' :: hexPadded 4 n
  else '\\' :: 'U' :: hexPadded 8 n

/-- A character as it is written between quotes. -/
def encodeChar (quote c : Char) : List Char :=
  if c == quote || c == '\\' then ['\\', c]
  else if c == '\n' then ['\\', 'n']
  else if c == '\r' then ['\\', 'r']
  else if c == '\t' then ['\\', 't']
  else if isPrintable c then [c]
  else numbered c.toNat

/-- A code point as it is written between quotes; no surrogate is printable. -/
def encodePoint (quote : Char) : CodePoint → List Char
  | .char c => encodeChar quote c
  | p => numbered p.number

/-- A text between quotes. -/
def encode (text : List CodePoint) : List Char :=
  let quote := quoteFor text
  quote :: text.flatMap (encodePoint quote) ++ [quote]

end Quoted

/-- A text between quotes. -/
def quoted (text : Text) : String := String.ofList (Quoted.encode text.codePoints)

end ElmLint
