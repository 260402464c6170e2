import UnionTyping.Number.Binary

/-!
# `Number.Shortest` — the fewest decimal digits that read back

The reals that round to a binary number form an interval around it: it reaches half way to each neighbour,
and its ends belong to it if the significand is even. The shortest decimal is found by trying grids of
powers of ten, the coarsest first: of the two grid points next to the number, the first grid with one inside
the interval wins. Of two such points the nearer is taken, and the greater one if they are equally near.

Whole numbers are written with all their digits and a zero behind the point, other numbers with the fewest
digits that read back. There is never an exponent.
-/

namespace UnionTyping
namespace Binary

/-- The decimal `digits * 10 ^ exponent`. -/
structure Decimal where
  digits : Nat
  exponent : Int
deriving DecidableEq

/-- Compares `a * 10 ^ i` with `n * 2 ^ j`. -/
def compareScaled (a : Nat) (i : Int) (n : Nat) (j : Int) : Ordering :=
  compare (a * tenTo i * twoTo (-j)) (n * twoTo j * tenTo (-i))

/-- Whether a decimal rounds to the number `significand * 2 ^ exponent`. Below a power of two the neighbour
    is half as far away as above it. -/
def readsBack (significand : Nat) (exponent : Int) (d : Decimal) : Bool :=
  let narrow := significand = fullSignificand ∧ leastExponent < exponent
  let low := if narrow then 4 * significand - 1 else 4 * significand - 2
  let high := 4 * significand + 2
  let even := significand % 2 == 0
  let atLow := compareScaled d.digits d.exponent low (exponent - 2)
  let atHigh := compareScaled d.digits d.exponent high (exponent - 2)
  (atLow == .gt || (even && atLow == .eq)) && (atHigh == .lt || (even && atHigh == .eq))

/-- The greatest multiple of `10 ^ grid` that is at most the number, as a count of such units. -/
def gridFloor (significand : Nat) (exponent grid : Int) : Nat :=
  (significand * twoTo exponent * tenTo (-grid)) / (twoTo (-exponent) * tenTo grid)

/-- The grid point next to the number that reads back; of two the nearer, and the greater if equally
    near. -/
def onGrid? (significand : Nat) (exponent grid : Int) : Option Decimal :=
  let below := gridFloor significand exponent grid
  let lower : Decimal := ⟨below, grid⟩
  let upper : Decimal := ⟨below + 1, grid⟩
  match readsBack significand exponent lower, readsBack significand exponent upper with
  | true, false => some lower
  | false, true => some upper
  | false, false => none
  | true, true =>
      -- the middle of both is (2 * below + 1) / 2 grid units
      if compareScaled (2 * below + 1) grid significand (exponent + 1) == .gt then some lower
      else some upper

/-- The least power of ten above the number, found from a guess that is not above it. -/
def decimalExponent (significand : Nat) (exponent : Int) : Int :=
  let bits : Int := (Nat.log2 significand : Int) + exponent
  let guess : Int := (bits * 30103) / 100000 - 1
  match [0, 1, 2, 3].find? fun (k : Nat) =>
      compareScaled 1 (guess + k) significand exponent == .gt with
  | some k => guess + k
  | none => guess + 4

/-- The shortest decimal that reads back as a number other than zero. The first grid is that of the power of
    ten above the number, which may read back itself. Seventeen digits are enough; the number's own digits
    would be next. -/
def shortest (significand : Nat) (exponent : Int) : Decimal :=
  let top := decimalExponent significand exponent
  match (List.range 18).findSome? fun (n : Nat) =>
      onGrid? significand exponent (top - (n : Int)) with
  | some d => d
  | none => ⟨gridFloor significand exponent (min exponent 0), min exponent 0⟩

/-! ## Layout -/

/-- Digits with a point in front of the last `places` of them. -/
def withPoint (digits places : Nat) : String :=
  let text := toString digits
  let padded := String.ofList (List.replicate (places + 1 - text.length) '0') ++ text
  let whole := padded.toList.take (padded.length - places)
  let rest := padded.toList.drop (padded.length - places)
  String.ofList whole ++ "." ++ String.ofList rest

/-- A decimal without an exponent. -/
def Decimal.text (d : Decimal) : String :=
  if 0 ≤ d.exponent then toString (d.digits * tenTo d.exponent)
  else withPoint d.digits (-d.exponent).toNat

/-- The whole number that `significand * 2 ^ exponent` is, if it is one. -/
def whole? (significand : Nat) (exponent : Int) : Option Nat :=
  let n := significand * twoTo exponent
  let d := twoTo (-exponent)
  if n % d = 0 then some (n / d) else none

/-- The number as text. -/
def text : Binary → String
  | .infinite => "inf"
  | .finite significand exponent =>
      match whole? significand exponent with
      | some n => toString n ++ ".0"
      | none => (shortest significand exponent).text

end Binary
end UnionTyping
