-- SUMMARY: The double nearest to a fraction.
import RelaxedJson.Number.Binary64

/-!
# Rounding to nearest

An exact fraction becomes the double nearest to it; of two that are equally near, the one with the
even significand.
-/

namespace RelaxedJson

/-- The whole number nearest to `num / den`; of two, the even one. -/
def roundDiv (num den : Nat) : Nat :=
  let whole := num / den
  let twice := 2 * (num % den)
  if twice < den then whole
  else if den < twice then whole + 1
  else whole + whole % 2

namespace Binary64

/-- The 63 low bits of the double nearest to `num / den`, as if there were no largest one. The
    fraction is measured in units of `2 ^ -1074`, and the grid is as fine as 53 significant bits
    need: `2 ^ scale` units. -/
def roundBits (num den : Nat) : Nat :=
  let scale := (num * 2 ^ 1074 / den).log2 - 52
  roundDiv (num * 2 ^ 1074) (den * 2 ^ scale) + scale * 2 ^ 52

/-- The double nearest to `num / den` with the given sign, unless that is beyond the largest. -/
def ofFraction? (negative : Bool) (num den : Nat) : Option Binary64 :=
  if roundBits num den < infinityBits then some (ofMagnitudeBits negative (roundBits num den))
  else none

/-- The double nearest to an integer of 64 bits. -/
def ofInt64 (i : Int64) : Binary64 :=
  ofMagnitudeBits (i < 0) (roundBits i.toInt.natAbs 1)

end Binary64

end RelaxedJson
