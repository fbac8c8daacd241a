-- SUMMARY: Writing and reading the string literals of JSON.
import RelaxedJson.Text.Rune

/-!
# String literals

`quote` writes any byte string as a literal, and `unquote` reads one back. Writing replaces bytes
that are no UTF-8 by U+FFFD and leaves no control character, no bare backslash and no bare delimiter
inside the literal. Reading is forgiving: an escape that means nothing stands for U+FFFD, and only an
escape that is cut off is an error.
-/

namespace RelaxedJson

/-- The two marks that may enclose a string literal. -/
inductive QuoteMark where
  | double
  | single
  deriving DecidableEq, Repr

/-- The character of a quotation mark. -/
def QuoteMark.char : QuoteMark → Char
  | .double => '"'
  | .single => '\''

/-- Why a literal cannot be read. -/
inductive EscapeError where
  | missingQuotations
  | incompleteEscape
  | incompleteUnicode
  deriving DecidableEq, Repr

/-- The wording of an escape error. -/
def EscapeError.message : EscapeError → Bytes
  | .missingQuotations => "missing quotations".utf8
  | .incompleteEscape  => "incomplete escape sequence".utf8
  | .incompleteUnicode => "incomplete Unicode escape".utf8

namespace Escape

/-! ## Writing -/

/-- The letter that names a control character in an escape. -/
def letter? : Char → Option Char
  | '\x08' => some 'b'
  | '\x0c' => some 'f'
  | '\n'   => some 'n'
  | '\r'   => some 'r'
  | '\t'   => some 't'
  | _      => none

/-- The escape of a character by its code. -/
def unicodeEscape (c : Char) : Bytes :=
  "\\u".utf8 ++ hexDigits hexDigit 4 c.toNat

/-- Characters that are written by their code although they are no control characters: U+FFFD and
    the line and paragraph separators. -/
def isHidden (c : Char) : Bool :=
  c = replacement || c = '\u2028' || c = '\u2029'

/-- A character inside a literal enclosed by `mark`. -/
def quoteChar (mark : QuoteMark) (c : Char) : Bytes :=
  if c.toNat < 0x20 then
    match letter? c with
    | some letter => ['\\'.ascii, letter.ascii]
    | none        => unicodeEscape c
  else if c = '\\' ∨ c = mark.char then ['\\'.ascii, c.ascii]
  else if isHidden c then unicodeEscape c
  else c.utf8

/-- The literal, enclosed by `mark`, that stands for a byte string. -/
def quote (mark : QuoteMark) (bs : Bytes) : Bytes :=
  mark.char.ascii :: bs.chars.flatMap (quoteChar mark) ++ [mark.char.ascii]

/-! ## Reading -/

/-- The UTF-16 code unit spelled by the first four bytes. -/
def codeUnit? : Bytes → Option Nat
  | a :: b :: c :: d :: _ => do
    return (← hexValue? a) * 0x1000 + (← hexValue? b) * 0x100 + (← hexValue? c) * 0x10 + (← hexValue? d)
  | _ => none

/-- Whether a code unit is half of a surrogate pair. -/
def isSurrogate (unit : Nat) : Bool :=
  0xD800 ≤ unit && unit < 0xE000

/-- The character that a high and a low surrogate form together. -/
def pairChar? (high low : Nat) : Option Char :=
  if 0xD800 ≤ high ∧ high < 0xDC00 ∧ 0xDC00 ≤ low ∧ low < 0xE000 then
    some (Char.ofNat ((high - 0xD800) * 0x400 + (low - 0xDC00) + 0x10000))
  else none

/-- The code unit of a Unicode escape that the bytes start with. -/
def nextUnit? : Bytes → Option Nat
  | backslash :: u :: bs =>
    if backslash = '\\'.ascii ∧ u = 'u'.ascii then codeUnit? bs else none
  | _ => none

/-- What `\u` followed by `bs` stands for, and how many bytes of `bs` belong to it. A surrogate
    needs its other half in an escape of its own, directly behind it. -/
def unicode (bs : Bytes) : Except EscapeError (Char × Nat) :=
  if (bs.drop 3).isEmpty then .error .incompleteUnicode
  else match codeUnit? bs with
    | none => .ok (replacement, 4)
    | some unit =>
      if isSurrogate unit then
        match (nextUnit? (bs.drop 4)).bind (pairChar? unit) with
        | some c => .ok (c, 10)
        | none   => .ok (replacement, 4)
      else .ok (Char.ofNat unit, 4)

/-- What a backslash and the rune `r` stand for, and how many of the bytes behind `r` belong to the
    escape. -/
def meaning (r : Rune) (bs : Bytes) : Except EscapeError (Char × Nat) :=
  match r with
  | .valid '"'  => .ok ('"', 0)
  | .valid '\'' => .ok ('\'', 0)
  | .valid '\\' => .ok ('\\', 0)
  | .valid '/'  => .ok ('/', 0)
  | .valid 'b'  => .ok ('\x08', 0)
  | .valid 'f'  => .ok ('\x0c', 0)
  | .valid 'n'  => .ok ('\n', 0)
  | .valid 'r'  => .ok ('\r', 0)
  | .valid 't'  => .ok ('\t', 0)
  | .valid 'u'  => unicode bs
  | _           => .ok (replacement, 0)

/-- What follows the first rune of `e :: rest`. -/
def behind (e : UInt8) (rest : Bytes) : Bytes :=
  rest.drop ((Rune.first e rest).width - 1)

/-- The byte string that the inside of a literal stands for. -/
def unescape : Bytes → Except EscapeError Bytes
  | [] => .ok []
  | b :: bs =>
    if b ≠ '\\'.ascii then (unescape bs).map (b :: ·)
    else match bs with
      | [] => .error .incompleteEscape
      | e :: rest =>
        match meaning (Rune.first e rest) (behind e rest) with
        | .error err     => .error err
        | .ok (c, taken) => (unescape ((behind e rest).drop taken)).map (c.utf8 ++ ·)
termination_by bs => bs.length
decreasing_by all_goals simp only [behind, List.length_drop, List.length_cons]; omega

/-- The byte string that a literal in double or single quotes stands for. -/
def unquote (literal : Bytes) : Except EscapeError Bytes :=
  match literal with
  | mark :: b :: bs =>
    if (mark = '"'.ascii ∨ mark = '\''.ascii) ∧ (b :: bs).getLast? = some mark then
      unescape (b :: bs).dropLast
    else .error .missingQuotations
  | _ => .error .missingQuotations

end Escape

end RelaxedJson
