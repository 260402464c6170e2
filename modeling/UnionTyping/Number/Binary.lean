/-!
# `Number.Binary` — non-negative binary floating-point numbers

A finite number is `significand * 2 ^ exponent` with a significand below `2 ^ 53` and an exponent of at
least `-1074`; unless the exponent is the least one, the significand is at least `2 ^ 52`, so every number
has one such form. Numbers too large for an exponent of `971` are infinite.

`ofRatio` gives the number nearest to a quotient, the one with the even significand if two are equally near.
-/

namespace UnionTyping

/-- A non-negative binary floating-point number. -/
inductive Binary where
  | finite (significand : Nat) (exponent : Int)
  | infinite
deriving DecidableEq

namespace Binary

/-- The least exponent. -/
def leastExponent : Int := -1074

/-- The greatest exponent. -/
def greatestExponent : Int := 971

/-- The least significand of full length. -/
def fullSignificand : Nat := Nat.pow 2 52

/-- The least number that is too large for a significand. -/
def significandLimit : Nat := Nat.pow 2 53

/-- Two to a power; to a negative one it is one, which leaves the scaling to the other side of a quotient. -/
def twoTo (exponent : Int) : Nat :=
  Nat.pow 2 exponent.toNat

/-- Ten to a power, and one for a negative power. -/
def tenTo (exponent : Int) : Nat :=
  Nat.pow 10 exponent.toNat

/-- A quotient rounded to the nearest whole number, to the even one if two are equally near. -/
def roundDiv (num den : Nat) : Nat :=
  let q := num / den
  let r := num % den
  if 2 * r < den then q
  else if den < 2 * r then q + 1
  else if q % 2 = 0 then q
  else q + 1

/-- The quotient `num / den / 2 ^ exponent` as numerator and denominator. -/
def scaled (num den : Nat) (exponent : Int) : Nat × Nat :=
  (num * twoTo (-exponent), den * twoTo exponent)

/-- The exponent at which the quotient has a significand of 53 bits, or the least one. -/
def exponentFor (num den : Nat) : Int :=
  let guess : Int := (Nat.log2 num : Int) - (Nat.log2 den : Int) - 53
  let (n, d) := scaled num den guess
  max (if n / d < significandLimit then guess else guess + 1) leastExponent

/-- The number nearest to `num / den`. -/
def ofRatio (num den : Nat) : Binary :=
  let exponent := exponentFor num den
  let (n, d) := scaled num den exponent
  let significand := roundDiv n d
  let (significand, exponent) :=
    if significand = significandLimit then (fullSignificand, exponent + 1)
    else (significand, exponent)
  if significand = 0 then .finite 0 leastExponent
  else if greatestExponent < exponent then .infinite
  else .finite significand exponent

/-- The number nearest to `digits / 10 ^ places`. -/
def ofDecimal (digits places : Nat) : Binary :=
  ofRatio digits (tenTo places)

end Binary
end UnionTyping
