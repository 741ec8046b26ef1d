/-!
# Decimal digits of any script

Every script's ten decimal digits stand in a row, so the class is given by the code points of the zeros, and the value
of a digit is its distance from its zero. Numbers may be written with the digits of any script, even mixed.

The scripts of Unicode 14 are the ones whose digits have a value here. Digits of the scripts that came later are known to be
digits, and no more: a number that is written with one of them has no value.
-/

namespace ElmLint

/-- The code points of the digit zero in every script of Unicode 14, in ascending order. -/
def digitZeros : List Nat :=
  [0x30, 0x660, 0x6F0, 0x7C0, 0x966, 0x9E6, 0xA66, 0xAE6, 0xB66, 0xBE6, 0xC66, 0xCE6, 0xD66, 0xDE6, 0xE50, 0xED0,
    0xF20, 0x1040, 0x1090, 0x17E0, 0x1810, 0x1946, 0x19D0, 0x1A80, 0x1A90, 0x1B50, 0x1BB0, 0x1C40, 0x1C50, 0xA620,
    0xA8D0, 0xA900, 0xA9D0, 0xA9F0, 0xAA50, 0xABF0, 0xFF10, 0x104A0, 0x10D30, 0x11066, 0x110F0, 0x11136, 0x111D0,
    0x112F0, 0x11450, 0x114D0, 0x11650, 0x116C0, 0x11730, 0x118E0, 0x11950, 0x11C50, 0x11D50, 0x11DA0, 0x16A60,
    0x16AC0, 0x16B50, 0x1D7CE, 0x1D7D8, 0x1D7E2, 0x1D7EC, 0x1D7F6, 0x1E140, 0x1E2F0, 0x1E950, 0x1FBF0]

/-- The code points of the digit zero in the scripts that came with Unicode 15, 16 and 17, in ascending order. -/
def laterDigitZeros : List Nat :=
  [0x10D40, 0x116D0, 0x116DA, 0x11BF0, 0x11DE0, 0x11F50, 0x16130, 0x16D70, 0x1CCF0, 0x1E4F0, 0x1E5F1]

/-- The value of a decimal digit. -/
def digitValue? (c : Char) : Option Nat :=
  (digitZeros.find? fun z => z ≤ c.toNat && c.toNat < z + 10).map (c.toNat - ·)

/-- A decimal digit that has a value. -/
def isDigit (c : Char) : Bool := digitZeros.any fun z => z ≤ c.toNat && c.toNat < z + 10

/-- A decimal digit that has no value. -/
def isLaterDigit (c : Char) : Bool := laterDigitZeros.any fun z => z ≤ c.toNat && c.toNat < z + 10

/-- A decimal digit, with a value or without. -/
def isAnyDigit (c : Char) : Bool := isDigit c || isLaterDigit c

/-- The number that a run of decimal digits denotes. -/
def decimalNumber (digits : List Char) : Nat := digits.foldl (fun n c => n * 10 + (digitValue? c).getD 0) 0

end ElmLint
