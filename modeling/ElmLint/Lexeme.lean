import ElmLint.Text.CharClass
import ElmLint.Text.Digit

/-!
# The words of the language

Every class of words is given by a function that tells how many characters of a text's beginning belong to a word of
the class, or that there is none. The scanner cuts the source with these functions, and the grammar uses them, through
`Lexeme`, as its terminals; so both agree on where a name ends.

Literals come in two readings. The scanner lets an escaped line feed stand inside a one-line string or character literal
(`acrossLines`), the grammar does not. The grammar reads numbers with digits of all scripts, the scanner only with those that
have a value.
-/

namespace ElmLint

/-- The number of leading characters that satisfy `p`. -/
def runLength (p : Char → Bool) (cs : List Char) : Nat := (cs.takeWhile p).length

/-- The same number, or nothing when it is zero. -/
def someRun? (p : Char → Bool) (cs : List Char) : Option Nat :=
  if runLength p cs == 0 then none else some (runLength p cs)

/-! ## Literals -/

/-- How many characters there are up to and including the closing `quote`. A backslash takes the next character along;
a bare line feed ends the search without success. -/
def quotedEnd? (quote : Char) (acrossLines : Bool) : List Char → Option Nat
  | [] => none
  | '\\' :: c :: cs => if c == '\n' && !acrossLines then none else (quotedEnd? quote acrossLines cs).map (· + 2)
  | c :: cs =>
    if c == quote then some 1
    else if c == '\n' || c == '\\' then none
    else (quotedEnd? quote acrossLines cs).map (· + 1)

/-- How many characters there are up to and including the three closing quotes of a block string. -/
def blockStringEnd? : List Char → Option Nat
  | [] => none
  | '"' :: '"' :: '"' :: _ => some 3
  | '\\' :: _ :: cs => (blockStringEnd? cs).map (· + 2)
  | c :: cs => if c == '\\' then none else (blockStringEnd? cs).map (· + 1)

/-- The length of a string literal: a block string between three quotes, or a one-line string. Three quotes that no
three quotes answer are an empty one-line string and one quote more. -/
def stringLength? (acrossLines : Bool) : List Char → Option Nat
  | '"' :: '"' :: '"' :: cs =>
    match blockStringEnd? cs with
    | some n => some (n + 3)
    | none => some 2
  | '"' :: cs => (quotedEnd? '"' acrossLines cs).map (· + 1)
  | _ => none

/-- The length of a character literal, which holds at least one character or escape. -/
def charLength? (acrossLines : Bool) : List Char → Option Nat
  | '\'' :: '\'' :: _ => none
  | '\'' :: cs => (quotedEnd? '\'' acrossLines cs).map (· + 1)
  | _ => none

/-- The length of a hexadecimal number `0x…`. -/
def hexLength? : List Char → Option Nat
  | '0' :: 'x' :: cs => (someRun? isHexDigit cs).map (· + 2)
  | _ => none

section Numbers

variable (digit : Char → Bool)

/-- The length of a decimal point with at least one digit. -/
def fractionLength? : List Char → Option Nat
  | '.' :: cs => (someRun? digit cs).map (· + 1)
  | _ => none

/-- The length of an exponent: `e` or `E`, perhaps a sign, and at least one digit. -/
def exponentLength? : List Char → Option Nat
  | e :: sign :: cs =>
    if e == 'e' || e == 'E' then
      if sign == '+' || sign == '-' then (someRun? digit cs).map (· + 2)
      else (someRun? digit (sign :: cs)).map (· + 1)
    else none
  | _ => none

/-- The length of a number with a fraction or an exponent. -/
def floatLength? (cs : List Char) : Option Nat :=
  (someRun? digit cs).bind fun whole =>
    match fractionLength? digit (cs.drop whole) with
    | some fraction => some (whole + fraction + (exponentLength? digit (cs.drop (whole + fraction))).getD 0)
    | none => (exponentLength? digit (cs.drop whole)).map (whole + ·)

/-- The length of a hexadecimal or decimal integer. -/
def intLength? (cs : List Char) : Option Nat := hexLength? cs <|> someRun? digit cs

/-- The length of a number of any form. -/
def numberLength? (cs : List Char) : Option Nat := hexLength? cs <|> floatLength? digit cs <|> someRun? digit cs

end Numbers

/-! ## Names -/

/-- The length of a name whose first character satisfies `first`. -/
def nameLength? (first : Char → Bool) : List Char → Option Nat
  | [] => none
  | c :: cs => if first c then some (runLength isNameChar cs + 1) else none

/-- How far a dotted name goes on. A dot continues it after a capitalised segment, when the character after the dot can
begin a last segment; `capitalised` tells whether the current segment began with a capital. -/
def dottedTail (last : Char → Bool) : Bool → List Char → Nat
  | _, [] => 0
  | capitalised, '.' :: c :: cs => if capitalised && last c then dottedTail last (isUpper c) cs + 2 else 0
  | capitalised, c :: cs => if isNameChar c then dottedTail last capitalised cs + 1 else 0

/-- The length of a dotted name: capitalised segments, and a last one whose first character satisfies `last`. -/
def dottedLength? (last : Char → Bool) : List Char → Option Nat
  | [] => none
  | c :: cs => if last c then some (dottedTail last (isUpper c) cs + 1) else none

/-- The words that no variable, field or declaration may have as its name. -/
def keywords : List String :=
  ["case", "of", "let", "in", "if", "then", "else", "type", "alias", "module", "import", "exposing", "as", "port"]

/-- The length of one given text. -/
def exactLength? (text cs : List Char) : Option Nat := if text.isPrefixOf cs then some text.length else none

/-- The length of one given word, which no name character may follow. -/
def wordLength? (word cs : List Char) : Option Nat :=
  if word.isPrefixOf cs && !(cs.drop word.length).head?.any isNameChar then some word.length else none

/-- The length of a keyword. -/
def keywordLength? (cs : List Char) : Option Nat := keywords.findSome? fun word => wordLength? word.toList cs

/-- The binary operators. The first of them that a text begins with is the one that is read, so an operator stands
before its own beginnings; a minus is none before `>` or another minus. -/
def operators : List String :=
  ["|>", "<|", ">>", "<<", "==", "/=", "<=", ">=", "&&", "||", "++", "::", "<?>", "|.", "|=", "</>", "//", "^", "+", "-",
    "*", "/", "<", ">", "%"]

/-- The length of a binary operator. -/
def operatorLength? (cs : List Char) : Option Nat :=
  operators.findSome? fun operator =>
    if operator == "-" && (cs.drop 1).head?.any (fun c => c == '>' || c == '-') then none
    else exactLength? operator.toList cs

/-! ## Markers -/

/-- The marks by which layout delimits the blocks that the source shows by indentation. -/
inductive Marker where
  | opening
  | separating
  | closing
deriving Repr, DecidableEq, Inhabited

/-- The control character that stands for a marker in a laid-out text. -/
def Marker.char : Marker → Char
  | .opening => '\x0e'
  | .separating => '\x1e'
  | .closing => '\x0f'

/-- The characters that stand for markers. -/
def isMarker (c : Char) : Bool := c == Marker.opening.char || c == Marker.separating.char || c == Marker.closing.char

/-! ## Terminals of the grammar -/

/-- The classes of words that the grammar is built from. -/
inductive Lexeme where
  /-- The given characters. -/
  | exact (text : String)
  /-- The given letters, with no name character after them. -/
  | word (text : String)
  /-- Any of the keywords. -/
  | keyword
  /-- A name that begins with a small letter; it may be a keyword. -/
  | lowerName
  /-- A capitalised name. -/
  | upperName
  /-- Capitalised names joined by dots. -/
  | upperPath
  /-- A name of either case, perhaps after capitalised names and dots. -/
  | path
  /-- A dot and a name that begins with a small letter. -/
  | field
  /-- An underscore that begins no longer name. -/
  | wildcard
  | float
  | int
  | string
  | char
  | operator
  /-- Any number of blanks. -/
  | blanks
  /-- At least one blank. -/
  | someBlanks
  | marker (m : Marker)
  /-- All that stands before the next closing brace. -/
  | untilBrace
deriving Repr, DecidableEq

/-- How many characters of a text's beginning make up a lexeme. -/
def Lexeme.length? : Lexeme → List Char → Option Nat
  | .exact text, cs => exactLength? text.toList cs
  | .word text, cs => wordLength? text.toList cs
  | .keyword, cs => keywordLength? cs
  | .lowerName, cs => nameLength? isLower cs
  | .upperName, cs => nameLength? isUpper cs
  | .upperPath, cs => dottedLength? isUpper cs
  | .path, cs => dottedLength? isLetter cs
  | .field, cs => match cs with
    | '.' :: rest => (nameLength? isLower rest).map (· + 1)
    | _ => none
  | .wildcard, cs => wordLength? ['_'] cs
  | .float, cs => floatLength? isAnyDigit cs
  | .int, cs => intLength? isAnyDigit cs
  | .string, cs => stringLength? false cs
  | .char, cs => charLength? false cs
  | .operator, cs => operatorLength? cs
  | .blanks, cs => some (runLength isBlank cs)
  | .someBlanks, cs => someRun? isBlank cs
  | .marker m, cs => exactLength? [m.char] cs
  | .untilBrace, cs => some (runLength (· != '}') cs)

end ElmLint
