import ElmLint.Number.Decimal

/-!
# Double precision numbers

A double precision number that is not negative is held as its 64 bits: eleven bits of exponent above fifty-two bits of
fraction. `Binary64.nearest` rounds a decimal number to the nearest one, and to the one with an even last bit when two are
equally near; what is too large becomes infinity. All arithmetic is exact, on natural numbers.
-/

namespace ElmLint

/-- A double precision number, as the number that its bits spell. -/
structure Binary64 where
  bits : Nat
deriving Repr, DecidableEq, Inhabited

namespace Binary64

/-- Positive infinity: all bits of the exponent, none of the fraction. -/
def infinity : Binary64 := ⟨0x7FF * Nat.pow 2 52⟩

/-- The quotient of two numbers, rounded to the nearest integer and from a tie to the even one. -/
def roundedQuotient (num den : Nat) : Nat :=
  let quotient := num / den
  let twice := 2 * (num % den)
  if twice < den then quotient
  else if den < twice then quotient + 1
  else quotient + quotient % 2

/-- The number `num / den`, divided by `2 ^ scale` and rounded to an integer. -/
def scaled (num den : Nat) (scale : Int) : Nat :=
  if scale < 0 then roundedQuotient (num * Nat.pow 2 scale.natAbs) den else roundedQuotient num (den * Nat.pow 2 scale.natAbs)

/-- The least scale at which a number that is about `2 ^ magnitude` is an integer of at most fifty-three bits; no number
has a scale below -1074. -/
def scaleFor (magnitude : Int) : Int := max (magnitude - 52) (-1074)

/-- The bits of `significand · 2 ^ scale`, where the significand has at most fifty-three bits, or is `2 ^ 53` when rounding
brought it there. -/
def pack (significand : Nat) (scale : Int) : Binary64 :=
  -- the implicit leading bit of a significand adds one to the exponent field
  let bits := (scale + 1074).toNat * Nat.pow 2 52 + significand
  if infinity.bits ≤ bits then infinity else ⟨bits⟩

/-- The double precision number nearest to `num / den`. -/
def ofQuotient (num den : Nat) : Binary64 :=
  if num == 0 then ⟨0⟩
  else
    let estimate : Int := (num.log2 : Int) - den.log2
    -- the estimate is the magnitude or one more
    let magnitude := if num * Nat.pow 2 (-estimate).toNat < den * Nat.pow 2 estimate.toNat then estimate - 1 else estimate
    pack (scaled num den (scaleFor magnitude)) (scaleFor magnitude)

/-- The double precision number nearest to a decimal number. Numbers from `10 ^ 310` on are infinite and those below
`10 ^ (-330)` vanish, so powers of ten stay small. -/
def nearest (d : Decimal) : Binary64 :=
  if d.coefficient == 0 then ⟨0⟩
  else if 310 < d.digitCount + d.exponent then infinity
  else if d.digitCount + d.exponent < -330 then ⟨0⟩
  else if d.exponent < 0 then ofQuotient d.coefficient (Nat.pow 10 d.exponent.natAbs)
  else ofQuotient (d.coefficient * Nat.pow 10 d.exponent.natAbs) 1

/-- The sixteen hexadecimal digits of the bits. -/
def hex (x : Binary64) : String :=
  let digits := Nat.toDigits 16 x.bits
  String.ofList (List.replicate (16 - digits.length) '0' ++ digits)

end Binary64

end ElmLint
