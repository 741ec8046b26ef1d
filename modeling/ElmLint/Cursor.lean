/-!
# Places in a text

A cursor is a place in a text: how many characters come before it, and the characters that come after. Readers take a
cursor and give back a later one.
-/

namespace ElmLint

/-- A place in a text: how many characters come before it, and those that come after. -/
structure Cursor where
  offset : Nat
  rest : List Char
deriving Repr, DecidableEq, Inhabited

namespace Cursor

/-- The place before a text. -/
def start (text : List Char) : Cursor := ⟨0, text⟩

/-- The place `n` characters further on. -/
def advance (c : Cursor) (n : Nat) : Cursor := ⟨c.offset + n, c.rest.drop n⟩

/-- The place after the characters that satisfy `p`. -/
def skipWhile (c : Cursor) (p : Char → Bool) : Cursor := c.advance (c.rest.takeWhile p).length

end Cursor

end ElmLint
