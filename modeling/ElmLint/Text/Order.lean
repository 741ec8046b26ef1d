import ElmLint.Text.CodePoint

/-!
# The order of texts

Texts are ordered by the code points of their characters, as words are in a dictionary: the first difference decides, and a text
comes before all that it begins.
-/

namespace ElmLint

/-- Whether a list comes before another or is the same, in the order of a dictionary over an order of the items. -/
def dictionaryBefore {α : Type} (less : α → α → Bool) : List α → List α → Bool
  | [], _ => true
  | _ :: _, [] => false
  | a :: as, b :: bs => less a b || (!less b a && dictionaryBefore less as bs)

/-- Whether the code point of a character is less than that of another. -/
def charLess (c d : Char) : Bool := c.toNat < d.toNat

/-- Whether a text comes before another or is the same. -/
def textBefore (a b : String) : Bool := dictionaryBefore charLess a.toList b.toList

/-- Whether a text comes before another one. -/
def textLess (a b : String) : Bool := !textBefore b a

/-- Whether a text that may hold surrogates comes before another or is the same. -/
def Text.before (a b : Text) : Bool := dictionaryBefore CodePoint.less a.codePoints b.codePoints

end ElmLint
