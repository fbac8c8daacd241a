-- SUMMARY: The texts of doubles in the output formats.
import RelaxedJson.Number.Shortest

/-!
# Number notation

Shortest digits are laid out with a point in its place (positional notation), or with a point behind
the first digit and a power of ten (exponent notation). JSON uses both; TOML always the first.
-/

namespace RelaxedJson

namespace Significant

/-- Positional notation, filled up with zeros. -/
def positional (s : Significant) : List Char :=
  if s.exponent < 0 then
    '0' :: '.' :: List.replicate ((-s.exponent).toNat - 1) '0' ++ s.digits
  else
    let whole := s.exponent.toNat + 1
    if s.digits.length ≤ whole then s.digits ++ List.replicate (whole - s.digits.length) '0'
    else s.digits.take whole ++ '.' :: s.digits.drop whole

/-- The power of ten of exponent notation: always a sign, and at least two digits. -/
def powerText (exponent : Int) : List Char :=
  let digits := Nat.toDigits 10 exponent.natAbs
  let padded := if digits.length < 2 then '0' :: digits else digits
  'e' :: (if exponent < 0 then '-' else '+') :: padded

/-- Exponent notation, without a point if there is only one digit. -/
def scientific (s : Significant) : List Char :=
  match s.digits with
  | []           => powerText s.exponent
  | [d]          => d :: powerText s.exponent
  | d :: d' :: r => d :: '.' :: d' :: r ++ powerText s.exponent

/-- Positional notation for exponents from -4 to 5, exponent notation beyond. -/
def general (s : Significant) : List Char :=
  if s.exponent < -4 ∨ 6 ≤ s.exponent then s.scientific else s.positional

end Significant

namespace Binary64

/-- A text with a minus sign in front of it if the number has one. -/
def signed (x : Binary64) (text : List Char) : List Char :=
  if x.negative then '-' :: text else text

/-- The text of a number in JSON. Whole numbers of a magnitude below `2 ^ 63` never have an
    exponent. The texts of numbers that are not finite are no JSON. -/
def jsonText (x : Binary64) : List Char :=
  if x.isNaN then "NaN".toList
  else if !x.isFinite then if x.negative then "-Inf".toList else "+Inf".toList
  else if x.isInt then x.signed x.shortest.positional
  else x.signed x.shortest.general

/-- The text of a float in TOML. Whole numbers have all their digits and a fraction of zero, so that
    they are no integers. -/
def tomlText (x : Binary64) : List Char :=
  if x.isNaN then "nan".toList
  else if !x.isFinite then if x.negative then "-inf".toList else "inf".toList
  else if x.isIntegral then x.signed (Nat.toDigits 10 x.truncate.natAbs ++ ['.', '0'])
  else x.signed x.shortest.positional

end Binary64

end RelaxedJson
