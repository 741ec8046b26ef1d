import ElmLint.Text.CharClass

/-!
# White space of any script

Suppression comments separate their words by white space in the wide sense: the ASCII blanks and separators, and the
spaces, line and paragraph separators of Unicode.
-/

namespace ElmLint

/-- Where membership among the white space characters changes. -/
def spaceClass : CharClass :=
  [0x9, 0xE, 0x1C, 0x21, 0x85, 0x86, 0xA0, 0xA1, 0x1680, 0x1681, 0x2000, 0x200B, 0x2028, 0x202A, 0x202F, 0x2030,
    0x205F, 0x2060, 0x3000, 0x3001]

/-- White space in the wide sense. -/
def isSpace (c : Char) : Bool := spaceClass.contains c

end ElmLint
