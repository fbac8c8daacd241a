-- SUMMARY: Integer numerals of 64 bits in several bases.
import RelaxedJson.Number.Decimal

/-!
# Integer numerals

Integers are read from left to right in a fixed base, or in the base that a leading `0b`, `0o`, `0x`
or `0` announces. Reading stops at the first character that is no digit, and at the first digit that
makes the number too large; whichever comes first names the error.
-/

namespace RelaxedJson

namespace Integer

/-- The base of a numeral. -/
inductive Base where
  /-- As the numeral announces; between digits there may be underscores. -/
  | announced
  | fixed (base : Nat)

/-- The value of a digit in a base up to 36. -/
def digitValue? (c : Char) : Option Nat :=
  if c.isDigit then some (c.toNat - '0'.toNat)
  else if c.isAlpha then some (c.toLower.toNat - 'a'.toNat + 10)
  else none

/-- Reads digits behind those of value `n`. -/
def digitsFrom (base : Nat) (underscores : Bool) (n : Nat) : List Char → Except NumeralError Nat
  | [] => .ok n
  | c :: cs =>
    if underscores ∧ c = '_' then digitsFrom base underscores n cs
    else match digitValue? c with
      | none => .error .malformed
      | some d =>
        if base ≤ d then .error .malformed
        else if 2 ^ 64 ≤ base * n + d then .error .outOfRange
        else digitsFrom base underscores (base * n + d) cs

/-- The announced base and the digits behind the announcement. -/
def announcement : List Char → Nat × List Char
  | '0' :: x :: c :: cs =>
    if x.toLower = 'b' then (2, c :: cs)
    else if x.toLower = 'o' then (8, c :: cs)
    else if x.toLower = 'x' then (16, c :: cs)
    else (8, x :: c :: cs)
  | '0' :: cs => (8, cs)
  | cs        => (10, cs)

/-- Whether every underscore stands between two digits, where the announcement of a base is as good
    as a digit on the left. `digit` tells whether a digit comes before. -/
def underscoresSeparate (hex : Bool) (digit : Bool) : List Char → Bool
  | [] => true
  | '_' :: cs =>
    digit && (match cs with
      | c :: _ => c.isDigit || (hex && (digitValue? c).any (· < 16))
      | []     => false) && underscoresSeparate hex false cs
  | c :: cs =>
    underscoresSeparate hex (c.isDigit || (hex && (digitValue? c).any (· < 16))) cs

/-- Whether the underscores of an unsigned numeral are in their places. -/
def underscoresFit : List Char → Bool
  | '0' :: x :: cs =>
    if x.toLower = 'b' ∨ x.toLower = 'o' ∨ x.toLower = 'x' then
      underscoresSeparate (x.toLower = 'x') true cs
    else underscoresSeparate false true (x :: cs)
  | cs => underscoresSeparate false false cs

/-- The value of a numeral without a sign, below `2 ^ 64`. -/
def unsigned (base : Base) (text : List Char) : Except NumeralError Nat :=
  if text = [] then .error .malformed
  else match base with
    | .fixed b   => digitsFrom b false 0 text
    | .announced => do
      let n ← digitsFrom (announcement text).1 true 0 (announcement text).2
      if text.contains '_' ∧ !underscoresFit text then throw .malformed
      return n

/-- The value of a numeral with an optional sign, within 64 bits. -/
def signed (base : Base) (text : List Char) : Except NumeralError Int := do
  let (negative, digits) := Decimal.splitSign text
  let n ← unsigned base digits
  if negative then
    if 2 ^ 63 < n then throw .outOfRange
    return -n
  else
    if 2 ^ 63 ≤ n then throw .outOfRange
    return n

end Integer

end RelaxedJson
