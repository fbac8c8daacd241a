-- SUMMARY: What can be wrong with a text, and where.
import RelaxedJson.Text.Escape
import RelaxedJson.Text.Quoted
import RelaxedJson.Token

/-!
# Syntax errors

Every fault of a text, lexical or structural, has a reason and a position. The reasons are data; the
wording is a function of them.
-/

namespace RelaxedJson

/-- What is wrong. -/
inductive SyntaxReason where
  /-- No token starts with this rune. -/
  | unexpectedRune (r : Rune)
  | unterminatedComment
  | unclosedQuote
  | unescapedControl (c : Char)
  | invalidEscape (r : Rune)
  | invalidUnicodeEscape
  | unreadableString (cause : EscapeError)
  | missingDigitAfterMinus
  | missingExponentDigits
  | numberOutOfRange (lexeme : Bytes)
  | unreadableNumber (lexeme : Bytes)
  | unquotedIdentifier (name : Bytes)
  | unexpectedAfterValue (kind : Kind)
  | expectedValue (kind : Kind)
  | malformedToken (kind : Kind) (lexeme : Bytes)
  | expectedKey (kind : Kind)
  | duplicateKey (key : Bytes)
  | expectedColon (kind : Kind)
  | expectedCommaInObject
  | expectedCommaInArray
  | expectedObjectEnd (kind : Kind)
  | expectedArrayEnd (kind : Kind)
  | trailingComma
  | tooDeep (limit : Nat)
  deriving DecidableEq, Repr

/-- The wording of a reason. -/
def SyntaxReason.message : SyntaxReason → Bytes
  | .unexpectedRune r       => "unexpected token ".utf8 ++ Quoted.character r.char
  | .unterminatedComment    => "unterminated comment".utf8
  | .unclosedQuote          => "unclosed quote".utf8
  | .unescapedControl c     => "unescaped control ".utf8 ++ Quoted.character c ++ " in string".utf8
  | .invalidEscape r        => "invalid ".utf8 ++ Quoted.character r.char ++ " after escape".utf8
  | .invalidUnicodeEscape   => "invalid Unicode escape".utf8
  | .unreadableString e     => "invalid string: ".utf8 ++ e.message
  | .missingDigitAfterMinus => "expected digit after '-'".utf8
  | .missingExponentDigits  => "missing exponent digits".utf8
  | .numberOutOfRange s     => "number ".utf8 ++ s ++ " out of range".utf8
  | .unreadableNumber s     => "invalid number ".utf8 ++ Quoted.text s
  | .unquotedIdentifier s   =>
    "unquoted identifiers are not allowed (got ".utf8 ++ Quoted.text s ++ ")".utf8
  | .unexpectedAfterValue k => "unexpected ".utf8 ++ k.text ++ " after value".utf8
  | .expectedValue k        => "expected value, got ".utf8 ++ k.text
  | .malformedToken k s     => "malformed ".utf8 ++ k.text ++ " token ".utf8 ++ Quoted.text s
  | .expectedKey k          => "expected key for key value pair, got ".utf8 ++ k.text
  | .duplicateKey s         => "duplicate key ".utf8 ++ Quoted.text s ++ " found in object".utf8
  | .expectedColon k        => "expected ':' after key, got ".utf8 ++ k.text
  | .expectedCommaInObject  => "expected ',' before next property in object".utf8
  | .expectedCommaInArray   => "expected ',' before next value in array".utf8
  | .expectedObjectEnd k    => "expected '\x7d' at the end of an object, got ".utf8 ++ k.text
  | .expectedArrayEnd k     => "expected ']' at the end of an array, got ".utf8 ++ k.text
  | .trailingComma          => "trailing commas are not allowed".utf8
  | .tooDeep limit          => "nesting depth exceeds ".utf8 ++ Bytes.ofNat limit

/-- The deeper cause of a reason, where there is one. -/
def SyntaxReason.cause? : SyntaxReason → Option Bytes
  | .unreadableString e => some e.message
  | .numberOutOfRange s =>
    some ("strconv.ParseFloat: parsing ".utf8 ++ Quoted.text s ++ ": value out of range".utf8)
  | _                   => none

/-- A fault of a text. -/
structure SyntaxError where
  position : Position
  reason : SyntaxReason
  deriving DecidableEq, Repr

/-- The full wording of a syntax error. -/
def SyntaxError.message (e : SyntaxError) : Bytes :=
  "at ".utf8 ++ e.position.text ++ ": ".utf8 ++ e.reason.message

end RelaxedJson
