-- SUMMARY: Quoting of characters and byte strings inside messages.
import RelaxedJson.Text.Printable
import RelaxedJson.Text.Rune

/-!
# Quoted text in messages

Messages show a character in single quotes and a byte string in double quotes. Printable characters
stand as themselves; everything else is spelled as an escape, so a quoted text is always one line of
well-formed UTF-8.
-/

namespace RelaxedJson.Quoted

/-- The letter of the short escape of a control character. -/
def shortEscape? : Char → Option Char
  | '\x07' => some 'a'
  | '\x08' => some 'b'
  | '\x0c' => some 'f'
  | '\n'   => some 'n'
  | '\r'   => some 'r'
  | '\t'   => some 't'
  | '\x0b' => some 'v'
  | _      => none

/-- A byte as `\x` and two digits. -/
def byteEscape (n : Nat) : Bytes :=
  "\\x".utf8 ++ hexDigits hexDigit 2 n

/-- A character between quotes of the kind `mark`. -/
def escapeChar (mark c : Char) : Bytes :=
  if c = mark ∨ c = '\\' then ['\\'.ascii, c.ascii]
  else if isPrintable c then c.utf8
  else match shortEscape? c with
    | some letter => ['\\'.ascii, letter.ascii]
    | none =>
      if c.toNat < 0x20 ∨ c.toNat = 0x7F then byteEscape c.toNat
      else if c.toNat < 0x10000 then "\\u".utf8 ++ hexDigits hexDigit 4 c.toNat
      else "\\U".utf8 ++ hexDigits hexDigit 8 c.toNat

/-- A character in single quotes. -/
def character (c : Char) : Bytes :=
  '\''.ascii :: escapeChar '\'' c ++ ['\''.ascii]

/-- A rune of a byte string between double quotes. -/
def escapeRune : Rune → Bytes
  | .valid c   => escapeChar '"' c
  | .invalid b => byteEscape b.toNat

/-- A byte string in double quotes. -/
def text (bs : Bytes) : Bytes :=
  '"'.ascii :: (Rune.decode bs).flatMap escapeRune ++ ['"'.ascii]

end RelaxedJson.Quoted
