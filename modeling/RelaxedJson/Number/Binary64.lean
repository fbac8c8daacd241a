-- SUMMARY: Double-precision numbers by their bits, and the exact values the bits denote.

/-!
# Binary64 numbers

A number is the 64 bits of a double. Its exact value is read off the bits with natural-number
arithmetic: a finite number has the magnitude `significand * 2 ^ scale` in units of `2 ^ -1074`, the
smallest positive one.
-/

namespace RelaxedJson

/-- Powers are those of the core library, also where another library has its own. -/
@[default_instance 20000]
instance (priority := 2000) corePow {α : Type} [NatPow α] : Pow α Nat := instPowNat

/-- A double-precision number, told apart from others by its bits. -/
structure Binary64 where
  bits : UInt64
  deriving DecidableEq, Repr

namespace Binary64

/-! ## Fields -/

/-- The sign bit. -/
def negative (x : Binary64) : Bool :=
  2 ^ 63 ≤ x.bits.toNat

/-- The eleven bits of the biased exponent. -/
def exponentField (x : Binary64) : Nat :=
  x.bits.toNat / 2 ^ 52 % 2 ^ 11

/-- The 52 low bits. -/
def fractionField (x : Binary64) : Nat :=
  x.bits.toNat % 2 ^ 52

/-- Neither infinite nor not a number. -/
def isFinite (x : Binary64) : Bool :=
  x.exponentField ≠ 2047

/-- Not a number. -/
def isNaN (x : Binary64) : Bool :=
  x.exponentField = 2047 && x.fractionField ≠ 0

/-! ## Exact value -/

/-- The integer that the fraction denotes, with the leading one of a normal number. -/
def significand (x : Binary64) : Nat :=
  if x.exponentField = 0 then x.fractionField else x.fractionField + 2 ^ 52

/-- The power of two that the significand is scaled by, over `2 ^ -1074`. -/
def scale (x : Binary64) : Nat :=
  x.exponentField - 1

/-- The magnitude of a finite number in units of `2 ^ -1074`. -/
def magnitude (x : Binary64) : Nat :=
  x.significand * 2 ^ x.scale

/-- Whether the number is finite and whole. -/
def isIntegral (x : Binary64) : Bool :=
  x.isFinite && x.magnitude % 2 ^ 1074 = 0

/-- The value of a finite number with its fraction cut off. -/
def truncate (x : Binary64) : Int :=
  let whole : Int := x.magnitude / 2 ^ 1074
  if x.negative then -whole else whole

/-- Whether the number is whole and of a magnitude below `2 ^ 63`. -/
def isInt (x : Binary64) : Bool :=
  x.isIntegral && x.truncate.natAbs < 2 ^ 63

/-! ## Construction -/

/-- The number with the given sign and the given 63 low bits. -/
def ofMagnitudeBits (negative : Bool) (low : Nat) : Binary64 :=
  ⟨UInt64.ofNat (low + if negative then 2 ^ 63 else 0)⟩

/-- The 63 low bits of positive infinity. All finite numbers have less. -/
def infinityBits : Nat := 2047 * 2 ^ 52

end Binary64

end RelaxedJson
