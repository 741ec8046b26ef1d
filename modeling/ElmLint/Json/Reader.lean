import ElmLint.Cursor
import ElmLint.Json.Value
import ElmLint.Position
import ElmLint.Text.CharClass

/-!
# Reading JSON

`JsonValue.read` reads a text as one JSON value. It takes `NaN`, `Infinity` and `-Infinity` for numbers as well. A text that is
no JSON is refused with the problem and the offset where it shows.
-/

namespace ElmLint

/-- What can be wrong with a JSON text. -/
inductive JsonProblem where
  | byteOrderMark
  | value
  | propertyName
  | colon
  | comma
  | extraData
  | unterminatedString
  | controlCharacter
  | escape
  | unicodeEscape
deriving Repr, DecidableEq, Inhabited

/-- The problem in words. -/
def JsonProblem.message : JsonProblem → String
  | byteOrderMark => "Unexpected UTF-8 BOM (decode using utf-8-sig)"
  | value => "Expecting value"
  | propertyName => "Expecting property name enclosed in double quotes"
  | colon => "Expecting ':' delimiter"
  | comma => "Expecting ',' delimiter"
  | extraData => "Extra data"
  | unterminatedString => "Unterminated string starting at"
  | controlCharacter => "Invalid control character at"
  | escape => "Invalid \\escape"
  | unicodeEscape => "Invalid \\uXXXX escape"

/-- A problem and the offset where it shows. -/
structure JsonError where
  problem : JsonProblem
  offset : Nat
deriving Repr, DecidableEq, Inhabited

namespace JsonValue

/-- The place after the blanks. -/
def skipBlanks (c : Cursor) : Cursor := c.skipWhile isBlank

/-! ## Strings -/

/-- The code point that four hexadecimal digits name. At least one character has to follow them. -/
def fourHex? (cs : List Char) : Option Nat :=
  let digits := cs.take 4
  if digits.length == 4 && digits.all isHexDigit && !(cs.drop 4).isEmpty then some (hexNumber digits) else none

/-- The half of a surrogate pair that comes first. -/
def isHighSurrogate (n : Nat) : Bool := 0xD800 ≤ n && n ≤ 0xDBFF

/-- The half of a surrogate pair that comes second. -/
def isLowSurrogate (n : Nat) : Bool := 0xDC00 ≤ n && n ≤ 0xDFFF

/-- The code point that a surrogate pair stands for. -/
def joinSurrogates (high low : Nat) : Nat := 0x10000 + (high - 0xD800) * 0x400 + (low - 0xDC00)

/-- The character that a one-letter escape stands for. -/
def shortEscape? : Char → Option Char
  | '"' => some '"'
  | '\\' => some '\\'
  | '/' => some '/'
  | 'b' => some '\x08'
  | 'f' => some '\x0c'
  | 'n' => some '\n'
  | 'r' => some '\r'
  | 't' => some '\t'
  | _ => none

/-- The code point that an escape stands for, and how many characters the escape has after its backslash, which stands at
`offset`. The escapes of the two halves of a surrogate pair stand for one character. -/
def readEscape (offset : Nat) (cs : List Char) : Except JsonError (CodePoint × Nat) :=
  match cs with
  | 'u' :: digits =>
    match fourHex? digits with
    | none => .error ⟨.unicodeEscape, offset + 1⟩
    | some high =>
      match digits.drop 4 with
      | '\\' :: 'u' :: more =>
        if isHighSurrogate high && 4 < more.length then
          match fourHex? more with
          | none => .error ⟨.unicodeEscape, offset + 7⟩
          | some low =>
            if isLowSurrogate low then .ok (.ofNat (joinSurrogates high low), 11) else .ok (.ofNat high, 5)
        else .ok (.ofNat high, 5)
      | _ => .ok (.ofNat high, 5)
  | c :: _ =>
    match shortEscape? c with
    | some e => .ok (.char e, 1)
    | none => .error ⟨.escape, offset⟩
  | [] => .error ⟨.escape, offset⟩

/-- Read the characters of a string up to its closing quote. The string began at the offset `start`, the first character
has the offset `offset`, and `skip` characters still belong to the last escape. Gives the code points and the place after
the quote. -/
def readChars (start : Nat) : (offset skip : Nat) → List Char → Except JsonError (List CodePoint × Cursor)
  | _, _, [] => .error ⟨.unterminatedString, start⟩
  | offset, skip + 1, _ :: cs => readChars start (offset + 1) skip cs
  | offset, 0, c :: cs =>
    if c == '"' then .ok ([], ⟨offset + 1, cs⟩)
    else if c == '\\' then
      if cs.isEmpty then .error ⟨.unterminatedString, start⟩
      else
        match readEscape offset cs with
        | .error e => .error e
        | .ok (e, n) => (readChars start (offset + 1) n cs).map fun (es, next) => (e :: es, next)
    else if c.toNat ≤ 0x1F then .error ⟨.controlCharacter, offset⟩
    else (readChars start (offset + 1) 0 cs).map fun (es, next) => (.char c :: es, next)

/-- Read a string at its opening quote. -/
def readString (c : Cursor) : Except JsonError (Text × Cursor) :=
  (readChars c.offset (c.offset + 1) 0 (c.rest.drop 1)).map fun (ps, next) => (⟨ps⟩, next)

/-! ## Numbers and constants -/

/-- The number of leading ASCII digits. -/
def digitRun (cs : List Char) : Nat := (cs.takeWhile isAsciiDigit).length

/-- The length of an integer part: a zero, or digits that do not begin with one. -/
def wholeLength? : List Char → Option Nat
  | '0' :: _ => some 1
  | c :: cs => if isAsciiDigit c then some (digitRun cs + 1) else none
  | [] => none

/-- The length of a decimal point with digits; zero when there is none. -/
def pointLength : List Char → Nat
  | '.' :: cs => if digitRun cs == 0 then 0 else digitRun cs + 1
  | _ => 0

/-- The length of an exponent; zero when there is none. -/
def powerLength : List Char → Nat
  | e :: cs =>
    if e == 'e' || e == 'E' then
      let sign := if cs.head? == some '+' || cs.head? == some '-' then 1 else 0
      if digitRun (cs.drop sign) == 0 then 0 else digitRun (cs.drop sign) + sign + 1
    else 0
  | [] => 0

/-- The length of a number without its sign. -/
def magnitudeLength? (cs : List Char) : Option Nat :=
  (wholeLength? cs).map fun whole =>
    let point := pointLength (cs.drop whole)
    whole + point + powerLength (cs.drop (whole + point))

/-- The length of a number. -/
def numberLength? : List Char → Option Nat
  | '-' :: cs => (magnitudeLength? cs).map (· + 1)
  | cs => magnitudeLength? cs

/-- The words that stand for values. -/
def constants : List (String × JsonValue) :=
  [("null", .null), ("true", .bool true), ("false", .bool false), ("NaN", .number "NaN"),
   ("Infinity", .number "Infinity"), ("-Infinity", .number "-Infinity")]

/-- Read a number or a word that stands for a value. -/
def readScalar (c : Cursor) : Except JsonError (JsonValue × Cursor) :=
  match constants.find? fun (word, _) => word.toList.isPrefixOf c.rest with
  | some (word, value) => .ok (value, c.advance word.length)
  | none =>
    match numberLength? c.rest with
    | some n => .ok (.number (String.ofList (c.rest.take n)), c.advance n)
    | none => .error ⟨.value, c.offset⟩

/-! ## Values -/

mutual

/-- Read a value; `fuel` bounds the number of steps, of which every one reads a character. -/
def readValue : Nat → Cursor → Except JsonError (JsonValue × Cursor)
  | 0, c => .error ⟨.value, c.offset⟩
  | fuel + 1, c =>
    match c.rest with
    | '"' :: _ => (readString c).map fun (s, next) => (.string s, next)
    | '{' :: _ =>
      let c' := skipBlanks (c.advance 1)
      if c'.rest.head? == some '}' then .ok (.object [], c'.advance 1)
      else (readMembers fuel c').map fun (members, next) => (.object (membersOf members), next)
    | '[' :: _ =>
      let c' := skipBlanks (c.advance 1)
      if c'.rest.head? == some ']' then .ok (.array [], c'.advance 1)
      else (readItems fuel c').map fun (items, next) => (.array items, next)
    | _ => readScalar c

/-- Read the items of an array up to its closing bracket. -/
def readItems : Nat → Cursor → Except JsonError (List JsonValue × Cursor)
  | 0, c => .error ⟨.value, c.offset⟩
  | fuel + 1, c =>
    match readValue fuel c with
    | .error e => .error e
    | .ok (item, next) =>
      let c' := skipBlanks next
      match c'.rest with
      | ']' :: _ => .ok ([item], c'.advance 1)
      | ',' :: _ => (readItems fuel (skipBlanks (c'.advance 1))).map fun (items, last) => (item :: items, last)
      | _ => .error ⟨.comma, c'.offset⟩

/-- Read the members of an object up to its closing brace. -/
def readMembers : Nat → Cursor → Except JsonError (List (Text × JsonValue) × Cursor)
  | 0, c => .error ⟨.value, c.offset⟩
  | fuel + 1, c =>
    if c.rest.head? == some '"' then
      match readString c with
      | .error e => .error e
      | .ok (name, afterName) =>
        let colon := skipBlanks afterName
        if colon.rest.head? == some ':' then
          match readValue fuel (skipBlanks (colon.advance 1)) with
          | .error e => .error e
          | .ok (value, next) =>
            let c' := skipBlanks next
            match c'.rest with
            | '}' :: _ => .ok ([(name, value)], c'.advance 1)
            | ',' :: _ =>
              (readMembers fuel (skipBlanks (c'.advance 1))).map fun (members, last) => ((name, value) :: members, last)
            | _ => .error ⟨.comma, c'.offset⟩
        else .error ⟨.colon, colon.offset⟩
    else .error ⟨.propertyName, c.offset⟩

end

/-- Read a text as one JSON value with nothing but blanks around it. -/
def read (text : List Char) : Except JsonError JsonValue :=
  if text.head? == some '\uFEFF' then .error ⟨.byteOrderMark, 0⟩
  else
    match readValue (2 * text.length + 1) (skipBlanks (.start text)) with
    | .error e => .error e
    | .ok (value, next) =>
      let last := skipBlanks next
      if last.rest.isEmpty then .ok value else .error ⟨.extraData, last.offset⟩

end JsonValue

/-- The position where a problem shows. -/
def JsonError.position (text : List Char) (e : JsonError) : Position := .ofOffset (lineStarts text) e.offset

end ElmLint
