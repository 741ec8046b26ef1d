import ElmLint.Json.Value
import ElmLint.Text.Quoted

/-!
# Writing JSON

`JsonValue.render` writes a value on one line and in printable ASCII characters only: everything else in a string is written
as an escape, and a character beyond the basic plane as the escapes of a surrogate pair. A space follows each comma and colon.
-/

namespace ElmLint

namespace JsonValue

/-- A number as the escape `\uXXXX`. -/
def unicodeEscape (n : Nat) : List Char := '\\' :: 'u' :: hexPadded 4 n

/-- A character as it stands in a string. -/
def encodeChar (c : Char) : List Char :=
  if c == '"' || c == '\\' then ['\\', c]
  else if c == '\n' then ['\\', 'n']
  else if c == '\r' then ['\\', 'r']
  else if c == '\t' then ['\\', 't']
  else if c == '\x08' then ['\\', 'b']
  else if c == '\x0c' then ['\\', 'f']
  else if ' ' ≤ c && c ≤ '~' then [c]
  else if c.toNat < 0x10000 then unicodeEscape c.toNat
  else
    unicodeEscape (0xD800 + (c.toNat - 0x10000) / 0x400) ++ unicodeEscape (0xDC00 + (c.toNat - 0x10000) % 0x400)

/-- A code point as it stands in a string. -/
def encodePoint : CodePoint → List Char
  | .char c => encodeChar c
  | p => unicodeEscape p.number

/-- A string between its quotes. -/
def encodeString (t : Text) : List Char := '"' :: t.codePoints.flatMap encodePoint ++ ['"']

mutual

/-- The characters of a value. -/
def encode : JsonValue → List Char
  | null => "null".toList
  | bool true => "true".toList
  | bool false => "false".toList
  | number text => text.toList
  | string value => encodeString value
  | array items => '[' :: encodeItems items ++ [']']
  | object members => '{' :: encodeMembers members ++ ['}']

/-- The characters of the items of an array. -/
def encodeItems : List JsonValue → List Char
  | [] => []
  | [item] => encode item
  | item :: items => encode item ++ ", ".toList ++ encodeItems items

/-- The characters of the members of an object. -/
def encodeMembers : List (Text × JsonValue) → List Char
  | [] => []
  | [(name, value)] => encodeString name ++ ": ".toList ++ encode value
  | (name, value) :: members => encodeString name ++ ": ".toList ++ encode value ++ ", ".toList ++ encodeMembers members

end

/-- A value on one line. -/
def render (v : JsonValue) : String := String.ofList (encode v)

end JsonValue

end ElmLint
