/-!
# UTF-8

`Utf8.decode` reads bytes as characters. Bytes that are no UTF-8 are refused with the stretch of bytes at fault: a byte that
begins no character, the beginning of a character up to the byte that does not continue it, or the beginning of a
character that the end of the bytes cuts off.
-/

namespace ElmLint

namespace Utf8

/-- What is wrong with a stretch of bytes. -/
inductive Problem where
  | invalidStart
  | invalidContinuation
  | unexpectedEnd
deriving Repr, DecidableEq, Inhabited

/-- The problem in words. -/
def Problem.message : Problem → String
  | invalidStart => "invalid start byte"
  | invalidContinuation => "invalid continuation byte"
  | unexpectedEnd => "unexpected end of data"

/-- Bytes that are no UTF-8: the first byte at fault with its offset, how many bytes are at fault, and the problem. -/
structure Error where
  offset : Nat
  byte : UInt8
  count : Nat
  problem : Problem
deriving Repr, DecidableEq, Inhabited

/-- The error in words. A single byte is shown, several are counted. -/
def Error.message (e : Error) : String :=
  let hex := Nat.toDigits 16 e.byte.toNat
  let place :=
    if e.count == 1 then
      "byte 0x" ++ String.ofList (List.replicate (2 - hex.length) '0' ++ hex) ++ " in position " ++ toString e.offset
    else "bytes in position " ++ toString e.offset ++ "-" ++ toString (e.offset + e.count - 1)
  "'utf-8' codec can't decode " ++ place ++ ": " ++ e.problem.message

/-- How many bytes follow the first byte of a character; nothing for a byte that begins none. -/
def continuationCount? (first : UInt8) : Option Nat :=
  if first < 0x80 then some 0
  else if first < 0xC2 then none
  else if first < 0xE0 then some 1
  else if first < 0xF0 then some 2
  else if first < 0xF5 then some 3
  else none

/-- Whether a byte continues a character. -/
def isContinuation (b : UInt8) : Bool := 0x80 ≤ b && b < 0xC0

/-- Whether a byte can come second after a first one: characters are written with the fewest bytes, surrogates and numbers
beyond the last code point not at all. -/
def isSecond (first b : UInt8) : Bool :=
  isContinuation b &&
    (if first == 0xE0 then 0xA0 ≤ b
     else if first == 0xED then b < 0xA0
     else if first == 0xF0 then 0x90 ≤ b
     else if first == 0xF4 then b < 0x90
     else true)

/-- How many of the bytes after a first one continue its character, at most `count`. -/
def continued (first : UInt8) (count : Nat) : List UInt8 → Nat
  | [] => 0
  | b :: bs => if count != 0 && isSecond first b then 1 + ((bs.take (count - 1)).takeWhile isContinuation).length else 0

/-- The bits that the first byte of a character contributes. -/
def leadingBits (first : UInt8) (count : Nat) : Nat :=
  match count with
  | 0 => first.toNat
  | 1 => first.toNat % 0x20
  | 2 => first.toNat % 0x10
  | _ => first.toNat % 0x08

/-- The code point of a character from its first byte and the bytes that continue it. -/
def codePoint (first : UInt8) (rest : List UInt8) : Nat :=
  rest.foldl (fun n b => n * 0x40 + b.toNat % 0x40) (leadingBits first rest.length)

/-- Decode bytes, the first of which has the offset `offset`; `skip` bytes still belong to the last character. -/
def decodeFrom : (offset skip : Nat) → List UInt8 → Except Error (List Char)
  | _, _, [] => .ok []
  | offset, skip + 1, _ :: bs => decodeFrom (offset + 1) skip bs
  | offset, 0, b :: bs =>
    match continuationCount? b with
    | none => .error ⟨offset, b, 1, .invalidStart⟩
    | some count =>
      let found := continued b count bs
      if found < count then
        .error ⟨offset, b, found + 1, if bs.length ≤ found then .unexpectedEnd else .invalidContinuation⟩
      else (decodeFrom (offset + 1) count bs).map (Char.ofNat (codePoint b (bs.take count)) :: ·)

/-- The characters that bytes spell. -/
def decode (bytes : List UInt8) : Except Error (List Char) := decodeFrom 0 0 bytes

end Utf8

/-- A text whose lines end with line feeds only: a carriage return, alone or before a line feed, becomes a line feed. -/
def normalizeNewlines : List Char → List Char
  | [] => []
  | '\r' :: '\n' :: cs => '\n' :: normalizeNewlines cs
  | c :: cs => (if c == '\r' then '\n' else c) :: normalizeNewlines cs

end ElmLint
