-- SUMMARY: Decimal numerals and the doubles they denote.
import RelaxedJson.Number.Rounding

/-!
# Decimal numerals

A numeral is an optional sign, digits with an optional point among them, and an optional exponent.
It denotes an exact decimal, and that decimal the double nearest to it.
-/

namespace RelaxedJson

/-- The number `coefficient * 10 ^ exponent`, with a sign that also zero has. -/
structure Decimal where
  negative : Bool
  coefficient : Nat
  exponent : Int
  deriving DecidableEq, Repr

/-- Why a text denotes no double. -/
inductive NumeralError where
  | malformed
  | outOfRange
  deriving DecidableEq, Repr

namespace Decimal

/-! ## Reading -/

/-- Whether a leading sign is a minus, and what follows the sign. -/
def splitSign : List Char → Bool × List Char
  | '-' :: cs => (true, cs)
  | '+' :: cs => (false, cs)
  | cs        => (false, cs)

/-- The leading digits, and what follows them. -/
def splitDigits (cs : List Char) : List Char × List Char :=
  (cs.takeWhile Char.isDigit, cs.dropWhile Char.isDigit)

/-- The digits behind a leading point, and what follows them. -/
def splitFraction : List Char → List Char × List Char
  | '.' :: cs => splitDigits cs
  | cs        => ([], cs)

/-- The value of the digits of an exponent. Digits behind one that brings it to ten thousand or more
    do not count. -/
def exponentValue (digits : List Char) : Nat :=
  digits.foldl (fun e d => if e < 10000 then 10 * e + (d.toNat - '0'.toNat) else e) 0

/-- The exponent that the text consists of, zero if it is empty. -/
def exponent? : List Char → Option Int
  | [] => some 0
  | mark :: cs =>
    let (negative, digits) := splitSign cs
    if (mark = 'e' ∨ mark = 'E') ∧ digits ≠ [] ∧ digits.all Char.isDigit then
      some (if negative then -(exponentValue digits : Int) else exponentValue digits)
    else none

/-- The decimal that a numeral denotes. -/
def read? (text : List Char) : Option Decimal :=
  let (negative, unsigned) := splitSign text
  let (whole, afterWhole) := splitDigits unsigned
  let (fraction, afterFraction) := splitFraction afterWhole
  if whole = [] ∧ fraction = [] then none
  else (exponent? afterFraction).map fun e =>
    { negative
      coefficient := Nat.ofDigitChars 10 (whole ++ fraction) 0
      exponent := e - fraction.length }

/-! ## Value -/

/-- The double nearest to a decimal, unless that is beyond the largest. -/
def toBinary64? (d : Decimal) : Option Binary64 :=
  Binary64.ofFraction? d.negative (d.coefficient * 10 ^ d.exponent.toNat) (10 ^ (-d.exponent).toNat)

end Decimal

/-- The double that a numeral denotes. -/
def Binary64.ofNumeral (text : List Char) : Except NumeralError Binary64 :=
  match Decimal.read? text with
  | none => .error .malformed
  | some d =>
    match d.toBinary64? with
    | none   => .error .outOfRange
    | some x => .ok x

end RelaxedJson
