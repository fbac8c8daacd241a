-- SUMMARY: Byte strings, the text that every part of the library reads and writes.

/-!
# Byte strings

All text is a list of bytes: UTF-8 by convention, but nothing here requires it. This module holds
the literals, the hexadecimal digits and the decimal numerals that the output formats share.
-/

/-- The UTF-8 encoding of a string. -/
def String.utf8 (s : String) : List UInt8 :=
  s.toByteArray.data.toList

/-- The single byte of an ASCII character. -/
def Char.ascii (c : Char) : UInt8 :=
  UInt8.ofNat c.toNat

namespace RelaxedJson

/-- A byte string. -/
abbrev Bytes := List UInt8

instance : LawfulBEq Bytes := inferInstanceAs (LawfulBEq (List UInt8))

/-! ## Hexadecimal digits -/

/-- The value of a hexadecimal digit of either case. -/
def hexValue? (b : UInt8) : Option Nat :=
  if '0'.ascii ≤ b ∧ b ≤ '9'.ascii then some (b.toNat - '0'.toNat)
  else if 'a'.ascii ≤ b ∧ b ≤ 'f'.ascii then some (b.toNat - 'a'.toNat + 10)
  else if 'A'.ascii ≤ b ∧ b ≤ 'F'.ascii then some (b.toNat - 'A'.toNat + 10)
  else none

/-- The lower-case hexadecimal digit of a value below sixteen. -/
def hexDigit (n : Nat) : UInt8 :=
  (Nat.digitChar n).ascii

/-- The upper-case hexadecimal digit of a value below sixteen. -/
def upperHexDigit (n : Nat) : UInt8 :=
  (Nat.digitChar n).toUpper.ascii

/-- The last `width` hexadecimal digits of `n`, written with the given digits. -/
def hexDigits (digit : Nat → UInt8) : (width : Nat) → (n : Nat) → Bytes
  | 0, _ => []
  | width + 1, n => hexDigits digit width (n / 16) ++ [digit (n % 16)]

@[simp]
theorem hexDigits_length (digit : Nat → UInt8) (width n : Nat) :
    (hexDigits digit width n).length = width := by
  induction width generalizing n with
  | zero => rfl
  | succ width ih => simp [hexDigits, ih]

/-! ## Numerals -/

/-- The bytes of an ASCII text. -/
def Bytes.ofAscii (cs : List Char) : Bytes :=
  cs.map Char.ascii

/-- The decimal numeral of a natural number. -/
def Bytes.ofNat (n : Nat) : Bytes :=
  Bytes.ofAscii (Nat.toDigits 10 n)

/-- The decimal numeral of an integer, with a minus sign in front of a negative one. -/
def Bytes.ofInt (i : Int) : Bytes :=
  if i < 0 then '-'.ascii :: Bytes.ofNat i.natAbs else Bytes.ofNat i.natAbs

/-! ## Joining -/

/-- The parts in order, with `separator` between neighbours. -/
def Bytes.join (separator : Bytes) : List Bytes → Bytes
  | [] => []
  | [part] => part
  | part :: parts => part ++ separator ++ Bytes.join separator parts

/-- `count` spaces. -/
def Bytes.spaces (count : Nat) : Bytes :=
  List.replicate count ' '.ascii

/-- Byte strings are ordered like words in a dictionary, byte by byte. -/
def Bytes.before (a b : Bytes) : Bool :=
  decide (a < b)

end RelaxedJson
