-- SUMMARY: Lexemes: how a text divides into gaps and lexical units, regardless of positions.
import RelaxedJson.Dialect
import RelaxedJson.Number.Decimal
import RelaxedJson.SyntaxError

/-!
# Lexemes

The text is read as runes. At each place it starts with a gap (a white space character or a
comment), with a lexeme, or with a fault. Which one depends on the runes ahead alone, so positions
play no part here: a fault says how many runes into the piece it lies, and `Token.scan` turns that
into a position.
-/

namespace RelaxedJson

/-- A lexical unit without its place. -/
structure Lexeme where
  kind : Kind
  runes : List Rune
  literal : Option Literal := none
  deriving DecidableEq, Repr

/-- A fault in a piece of text. -/
structure LexicalFault where
  /-- The runes of the piece in front of the offending place. -/
  before : List Rune
  reason : SyntaxReason
  deriving DecidableEq, Repr

/-- What a text starts with. -/
inductive Piece where
  | gap (runes : List Rune)
  | lexeme (l : Lexeme)
  deriving DecidableEq, Repr

/-- The runes of a piece. -/
def Piece.runes : Piece → List Rune
  | .gap rs   => rs
  | .lexeme l => l.runes

namespace Lexeme

/-! ## Character classes -/

def isSpace (c : Char) : Bool :=
  c = ' ' || c = '\r' || c = '\n' || c = '\t'

def isNameStart (c : Char) : Bool :=
  c = '_' || c.isAlpha

def isNameChar (c : Char) : Bool :=
  isNameStart c || c.isDigit

def isHexDigit (c : Char) : Bool :=
  c.isDigit || ('a' ≤ c && c ≤ 'f') || ('A' ≤ c && c ≤ 'F')

/-- The kinds of the characters that are lexemes by themselves. -/
def punctuation? : Char → Option Kind
  | '{' => some .leftBrace
  | '}' => some .rightBrace
  | ':' => some .colon
  | ',' => some .comma
  | '[' => some .leftBracket
  | ']' => some .rightBracket
  | _   => none

/-- The kind of a name that is a constant. -/
def keyword? (name : List Char) : Option Kind :=
  if name = "null".toList then some .null
  else if name = "true".toList then some .true
  else if name = "false".toList then some .false
  else none

/-! ## Strings -/

/-- What is wrong with an escape of the rune `r` with `rs` behind it, if anything. -/
def escapeFault? (d : Dialect) (r : Rune) (rs : List Rune) : Option SyntaxReason :=
  match r with
  | .valid '"'  => none
  | .valid '\\' => none
  | .valid '/'  => none
  | .valid 'b'  => none
  | .valid 'f'  => none
  | .valid 'n'  => none
  | .valid 'r'  => none
  | .valid 't'  => none
  | .valid '\'' => if d.singleQuotes then none else some (.invalidEscape r)
  | .valid 'u'  =>
    if (rs.take 4).length = 4 ∧ (rs.take 4).all (Rune.satisfies isHexDigit) then none
    else some .invalidUnicodeEscape
  | _           => some (.invalidEscape r)

/-- The string lexeme with the given body. -/
def ofBody (mark : QuoteMark) (body : List Rune) : Except LexicalFault Lexeme :=
  match Escape.unescape (Rune.encode body) with
  | .error e => .error ⟨[], .unreadableString e⟩
  | .ok text =>
    .ok { kind := .string, runes := .valid mark.char :: body ++ [.valid mark.char],
          literal := some (.string text) }

/-- Reads a string on behind the opening mark and the runes `body`, which are latest first. The
    digits of a Unicode escape need no care once they have been checked: they are ordinary
    characters. -/
def string (d : Dialect) (mark : QuoteMark) (body : List Rune) :
    List Rune → Except LexicalFault Lexeme
  | [] => .error ⟨[], .unclosedQuote⟩
  | .invalid b :: rs => string d mark (.invalid b :: body) rs
  | .valid c :: rs =>
    if c = mark.char then ofBody mark body.reverse
    else if c = '\\' then
      match rs with
      | [] => .error ⟨[], .unclosedQuote⟩
      | r :: rs =>
        match escapeFault? d r rs with
        | some reason => .error ⟨.valid mark.char :: body.reverse ++ [.valid c], reason⟩
        | none        => string d mark (r :: .valid c :: body) rs
    else if c < ' ' then .error ⟨.valid mark.char :: body.reverse, .unescapedControl c⟩
    else string d mark (.valid c :: body) rs

/-! ## Numbers -/

/-- The leading digits, and what follows them. -/
def digits (rs : List Rune) : List Rune × List Rune :=
  (rs.takeWhile (Rune.satisfies Char.isDigit), rs.dropWhile (Rune.satisfies Char.isDigit))

/-- The leading minus sign, if there is one, and what follows it. -/
def minus : List Rune → List Rune × List Rune
  | .valid '-' :: rs => ([.valid '-'], rs)
  | rs               => ([], rs)

/-- The leading fraction, and what follows it. A point without a digit behind it is none. -/
def fraction : List Rune → List Rune × List Rune
  | .valid '.' :: rs =>
    if (digits rs).1 = [] then ([], .valid '.' :: rs)
    else (.valid '.' :: (digits rs).1, (digits rs).2)
  | rs => ([], rs)

/-- The leading sign of an exponent, if there is one, and what follows it. -/
def exponentSign : List Rune → List Rune × List Rune
  | .valid '+' :: rs => ([.valid '+'], rs)
  | .valid '-' :: rs => ([.valid '-'], rs)
  | rs               => ([], rs)

/-- The leading letter and sign of an exponent, and what follows them. -/
def exponentMark : List Rune → List Rune × List Rune
  | .valid 'e' :: rs => (.valid 'e' :: (exponentSign rs).1, (exponentSign rs).2)
  | .valid 'E' :: rs => (.valid 'E' :: (exponentSign rs).1, (exponentSign rs).2)
  | rs               => ([], rs)

/-- The number lexeme of the given runes. -/
def ofNumeral (rs : List Rune) : Except LexicalFault Lexeme :=
  match Binary64.ofNumeral (rs.map Rune.char) with
  | .ok x              => .ok { kind := .number, runes := rs, literal := some (.number x) }
  | .error .outOfRange => .error ⟨[], .numberOutOfRange (Rune.encode rs)⟩
  | .error .malformed  => .error ⟨[], .unreadableNumber (Rune.encode rs)⟩

/-- Reads a number: an optional minus sign, digits, an optional fraction, and an exponent. Behind
    the letter of an exponent, digits are required. -/
def number (rs : List Rune) : Except LexicalFault Lexeme :=
  let (sign, rs)  := minus rs
  let (whole, rs) := digits rs
  if whole = [] then .error ⟨[], .missingDigitAfterMinus⟩
  else
    let (frac, rs) := fraction rs
    let (mark, rs) := exponentMark rs
    let front := sign ++ whole ++ frac ++ mark
    if mark = [] then ofNumeral front
    else if (digits rs).1 = [] then .error ⟨front, .missingExponentDigits⟩
    else ofNumeral (front ++ (digits rs).1)

/-! ## Names -/

/-- Reads a constant or an identifier. -/
def name (d : Dialect) (rs : List Rune) : Except LexicalFault Lexeme :=
  let taken := rs.takeWhile (Rune.satisfies isNameChar)
  match keyword? (taken.map Rune.char) with
  | some kind => .ok { kind, runes := taken }
  | none =>
    if d.unquotedKeys then .ok { kind := .identifier, runes := taken }
    else .error ⟨[], .unquotedIdentifier (Rune.encode taken)⟩

/-! ## Comments -/

/-- Reads a block comment on behind the runes `taken`, which are latest first, and inside `depth`
    further block comments. An opening or closing mark is read as a unit. -/
def block (depth : Nat) (taken : List Rune) : List Rune → Option (List Rune)
  | [] => none
  | .valid '/' :: .valid '*' :: rs =>
    block (depth + 1) (.valid '*' :: .valid '/' :: taken) rs
  | .valid '*' :: .valid '/' :: rs =>
    match depth with
    | 0         => some (.valid '/' :: .valid '*' :: taken).reverse
    | depth + 1 => block depth (.valid '/' :: .valid '*' :: taken) rs
  | r :: rs => block depth (r :: taken) rs

/-- Reads a comment behind its first slash. A line comment ends in front of the line feed. -/
def comment : List Rune → Except LexicalFault (List Rune)
  | .valid '/' :: rs =>
    .ok (.valid '/' :: .valid '/' :: rs.takeWhile (· ≠ .valid '\n'))
  | .valid '*' :: rs =>
    match block 0 [.valid '*', .valid '/'] rs with
    | some taken => .ok taken
    | none       => .error ⟨[], .unterminatedComment⟩
  | _ => .error ⟨[], .unexpectedRune (.valid '/')⟩

end Lexeme

/-! ## Pieces -/

/-- The piece that the text `r :: rs` starts with. -/
def Piece.read (d : Dialect) (r : Rune) (rs : List Rune) : Except LexicalFault Piece :=
  match r with
  | .invalid _ => .error ⟨[], .unexpectedRune r⟩
  | .valid c =>
    match Lexeme.punctuation? c with
    | some kind => .ok (.lexeme { kind, runes := [r] })
    | none =>
      if Lexeme.isSpace c then .ok (.gap [r])
      else if c = '"' then (Lexeme.string d .double [] rs).map .lexeme
      else if c = '\'' ∧ d.singleQuotes then (Lexeme.string d .single [] rs).map .lexeme
      else if c = '/' ∧ d.comments then (Lexeme.comment rs).map .gap
      else if c = '-' ∨ c.isDigit then (Lexeme.number (r :: rs)).map .lexeme
      else if Lexeme.isNameStart c then (Lexeme.name d (r :: rs)).map .lexeme
      else .error ⟨[], .unexpectedRune r⟩

end RelaxedJson
