-- SUMMARY: The fewest decimal digits that read back as the same double.
import RelaxedJson.Number.Rounding

/-!
# Shortest digits

Every finite double has an interval of reals around it that round to it. The shortest digits of the
double are the fewest significant digits of a decimal in that interval; of two such decimals, the one
nearer to the double, and of two equally near the one with an even last digit.
-/

namespace RelaxedJson

/-- Significant digits `d₁d₂…dₙ` with a point behind the first, times `10 ^ exponent`. The first and
    the last digit are not zero, except that zero is the single digit zero. -/
structure Significant where
  digits : List Char
  exponent : Int
  deriving DecidableEq, Repr

namespace Significant

/-- The significant digits of zero. -/
def zero : Significant := ⟨['0'], 0⟩

/-- The significant digits of `coefficient * 10 ^ exponent`, for a positive coefficient. -/
def ofCoefficient (coefficient : Nat) (exponent : Int) : Significant :=
  let digits := Nat.toDigits 10 coefficient
  ⟨(digits.reverse.dropWhile (· = '0')).reverse, exponent + digits.length - 1⟩

end Significant

/-- The reals that round to one double, as fractions over `2 ^ 1076`. -/
structure RoundingInterval where
  low : Nat
  value : Nat
  high : Nat
  /-- Whether the ends belong to the interval. -/
  closed : Bool
  deriving DecidableEq, Repr

namespace RoundingInterval

/-- The denominator of the ends. -/
def unit : Nat := 2 ^ 1076

/-- The interval of a finite double. Its lower half is shorter where the grid below is finer. -/
def ofBinary64 (x : Binary64) : RoundingInterval :=
  let step := 2 ^ x.scale
  let below := if x.significand = 2 ^ 52 ∧ 0 < x.scale then 1 else 2
  { low    := (4 * x.significand - below) * step
    value  := 4 * x.significand * step
    high   := (4 * x.significand + 2) * step
    closed := x.significand % 2 = 0 }

/-- The power of ten of the leading digit of `num / den`. -/
def leadingExponent (num den : Nat) : Int :=
  if den ≤ num then (Nat.toDigits 10 (num / den)).length - 1
  else -(Nat.toDigits 10 ((den - 1) / num)).length

/-- Whether `coefficient * 10 ^ exponent` lies in the interval. -/
def contains (i : RoundingInterval) (coefficient : Nat) (exponent : Int) : Bool :=
  let point := coefficient * 10 ^ exponent.toNat * unit
  let low := i.low * 10 ^ (-exponent).toNat
  let high := i.high * 10 ^ (-exponent).toNat
  if i.closed then low ≤ point && point ≤ high else low < point && point < high

/-- The double as a fraction of `10 ^ exponent`. -/
def onGrid (i : RoundingInterval) (exponent : Int) : Nat × Nat :=
  (i.value * 10 ^ (-exponent).toNat, unit * 10 ^ exponent.toNat)

/-- The multiple of `10 ^ exponent` that is nearest to the double. -/
def nearest (i : RoundingInterval) (exponent : Int) : Nat :=
  roundDiv (i.onGrid exponent).1 (i.onGrid exponent).2

/-- The multiple of `10 ^ exponent` directly below or above the double that lies in the interval,
    the nearer one if both do. -/
def neighbour? (i : RoundingInterval) (exponent : Int) : Option Nat :=
  let below := (i.onGrid exponent).1 / (i.onGrid exponent).2
  match i.contains below exponent, i.contains (below + 1) exponent with
  | false, false => none
  | true,  false => some below
  | false, true  => some (below + 1)
  | true,  true  => some (i.nearest exponent)

/-- The digits on the first grid, from `10 ^ exponent` on, that has a point in the interval; the
    search ends with the grid that is `more` steps finer. -/
def search (i : RoundingInterval) (exponent : Int) : (more : Nat) → Significant
  | 0 => Significant.ofCoefficient (i.nearest exponent) exponent
  | more + 1 =>
    match i.neighbour? exponent with
    | some coefficient => Significant.ofCoefficient coefficient exponent
    | none             => i.search (exponent - 1) more

end RoundingInterval

/-- The shortest digits of the magnitude of a finite double. The seventeenth digit always suffices,
    so the search may end with it. -/
def Binary64.shortest (x : Binary64) : Significant :=
  if x.significand = 0 then .zero
  else
    let i := RoundingInterval.ofBinary64 x
    i.search (RoundingInterval.leadingExponent i.value RoundingInterval.unit) 16

end RelaxedJson
