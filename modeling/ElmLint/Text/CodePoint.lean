/-!
# Texts that may hold surrogates

An escape in a JSON string can name a surrogate: a code point that is kept free for the halves of a pair and is no character
by itself. A string cannot hold one, so what comes out of a JSON document is a `Text`, a list of code points. Every string is
a text; `Text.string?` is the way back, for the texts without surrogates.
-/

namespace ElmLint

/-- A code point: a character, or one of the 2048 surrogates, counted from the first one. -/
inductive CodePoint where
  | char (c : Char)
  | surrogate (index : Fin 0x800)
deriving Repr, DecidableEq, Inhabited

namespace CodePoint

/-- The number of the first surrogate. -/
def firstSurrogate : Nat := 0xD800

/-- The number of a code point. -/
def number : CodePoint → Nat
  | char c => c.toNat
  | surrogate index => firstSurrogate + index.val

/-- The code point of a number; that of a number beyond the last code point is the null character. -/
def ofNat (n : Nat) : CodePoint :=
  if h : firstSurrogate ≤ n ∧ n < firstSurrogate + 0x800 then .surrogate ⟨n - firstSurrogate, by omega⟩
  else .char (Char.ofNat n)

/-- The character that a code point is. -/
def char? : CodePoint → Option Char
  | char c => some c
  | surrogate _ => none

/-- The character that shows a code point: for a surrogate it is the replacement character. -/
def shown : CodePoint → Char
  | char c => c
  | surrogate _ => '\uFFFD'

/-- Whether the number of a code point is less than that of another. -/
def less (a b : CodePoint) : Bool := a.number < b.number

end CodePoint

/-- A text: its code points. -/
structure Text where
  codePoints : List CodePoint
deriving Repr, DecidableEq, Inhabited

namespace Text

/-- The text that a string is. -/
def ofString (s : String) : Text := ⟨s.toList.map .char⟩

instance : Coe String Text := ⟨ofString⟩

/-- The string that a text without surrogates is. -/
def string? (t : Text) : Option String := (t.codePoints.mapM CodePoint.char?).map String.ofList

/-- A text as it is shown, with the replacement character for surrogates. -/
def shown (t : Text) : String := String.ofList (t.codePoints.map CodePoint.shown)

/-- Whether a text has no code points. -/
def isEmpty (t : Text) : Bool := t.codePoints.isEmpty

/-- Texts joined by a character. -/
def joined (separator : Char) (texts : List Text) : Text := ⟨[CodePoint.char separator].intercalate (texts.map codePoints)⟩

/-- The parts of a text between the places where a character stands. -/
def splitOn (separator : Char) (t : Text) : List Text := (t.codePoints.splitOn (.char separator)).map Text.mk

theorem mapM_char?_map_char : ∀ cs : List Char, (cs.map CodePoint.char).mapM CodePoint.char? = some cs
  | [] => rfl
  | c :: cs => by simp [mapM_char?_map_char cs, CodePoint.char?]

/-- A string comes back from the text that it is. -/
theorem string?_ofString (s : String) : (ofString s).string? = some s := by
  simp only [ofString, string?, mapM_char?_map_char, Option.map_some, String.ofList_toList]

/-- Different strings are different texts. -/
theorem ofString_injective {s t : String} (h : ofString s = ofString t) : s = t := by
  have := congrArg string? h
  simpa [string?_ofString] using this

end Text

end ElmLint
