-- SUMMARY: How YAML scalars are written: plain, quoted or as a literal block.
import RelaxedJson.Text.Rune
import RelaxedJson.Yaml.Tag

/-!
# Scalar styles

A scalar is written plain where that keeps its text and its meaning. Text of several lines becomes a
literal block; a string that would be taken for something else is put in double quotes; and what
plain style cannot hold is put in single quotes, or in double quotes if it needs escapes.
-/

namespace RelaxedJson.Yaml

/-! ## Character classes -/

/-- Characters that end a line. -/
def isBreak (c : Char) : Bool :=
  c = '\n' || c = '\r' || c = '\u0085' || c = '\u2028' || c = '\u2029'

def isBlank (c : Char) : Bool :=
  c = ' ' || c = '\t'

/-- Characters that may stand as themselves: the line feed, ASCII without controls, and the basic
    plane above it without byte order mark and noncharacters. -/
def isPlainPrintable (c : Char) : Bool :=
  c = '\n' || (0x20 ≤ c.toNat && c.toNat ≤ 0x7E) ||
    (0xA0 ≤ c.toNat && c.toNat ≤ 0xFFFD && c.toNat ≠ 0xFEFF)

/-- Characters that need an escape. -/
def isSpecial (c : Char) : Bool :=
  c ≠ '\t' && !isPlainPrintable c

/-- Characters that no plain scalar starts with. -/
def isIndicator (c : Char) : Bool :=
  c ∈ ['#', ',', '[', ']', '{', '}', '&', '*', '!', '|', '>', '\'', '"', '%', '@', '\u0060']

/-! ## Analysis -/

/-- Whether a blank or the end comes next. -/
def blankNext : List Char → Bool
  | []     => true
  | c :: _ => isBlank c

/-- Whether a character inside the text, behind `previous`, would be read as part of the document's
    structure. -/
def hasInnerIndicator (previous : Char) : List Char → Bool
  | []      => false
  | c :: cs =>
    (c = ':' && blankNext cs) ||
      (c = '#' && (isBlank previous || isBreak previous || previous = '\x00')) ||
      hasInnerIndicator c cs

/-- Whether some part of the text would be read as part of the document's structure. -/
def hasIndicator (text : List Char) : Bool :=
  match text with
  | []      => false
  | c :: cs =>
    "---".toList.isPrefixOf text || "...".toList.isPrefixOf text || isIndicator c ||
      ((c = '?' || c = ':' || c = '-') && blankNext cs) || hasInnerIndicator c cs

/-- Whether two neighbours belong to the classes `p` and `q`. -/
def hasNeighbours (p q : Char → Bool) : List Char → Bool
  | a :: b :: cs => (p a && q b) || hasNeighbours p q (b :: cs)
  | _            => false

/-- Whether a line ends in a space. -/
def hasSpaceBeforeBreak (text : List Char) : Bool :=
  hasNeighbours (· = ' ') isBreak text

/-- Whether a line other than the first starts with a space. -/
def hasSpaceBehindBreak (text : List Char) : Bool :=
  hasNeighbours isBreak (· = ' ') text

/-- Whether single quotes can hold the text. -/
def fitsSingleQuotes (text : List Char) : Bool :=
  !hasSpaceBehindBreak text && !hasSpaceBeforeBreak text && !text.any isSpecial &&
    !text.contains '\t'

/-- Whether plain style can hold the text. -/
def fitsPlain (text : List Char) : Bool :=
  fitsSingleQuotes text && text.head? ≠ some ' ' && text.getLast? ≠ some ' ' &&
    !text.any isBreak && !hasIndicator text

/-- Whether a literal block can hold the text. -/
def fitsLiteral (text : List Char) : Bool :=
  text.getLast? ≠ some ' ' && !hasSpaceBeforeBreak text && !text.any isSpecial

/-! ## Styles -/

/-- The style of a scalar. -/
inductive Style where
  | plain
  | singleQuoted
  | doubleQuoted
  | literal
  deriving DecidableEq, Repr

/-- The style of a scalar with the given tag and text. -/
def Style.of (tag : Tag) (text : List Char) : Style :=
  if text.contains '\n' then
    if fitsLiteral text then .literal else .doubleQuoted
  else if tag = .str ∧ resolve text ≠ .str then .doubleQuoted
  else if fitsPlain text then .plain
  else if fitsSingleQuotes text then .singleQuoted
  else .doubleQuoted

/-! ## Texts -/

/-- The letter of the short escape of a character. -/
def shortEscape? : Char → Option Char
  | '\x00'   => some '0'
  | '\x07'   => some 'a'
  | '\x08'   => some 'b'
  | '\t'     => some 't'
  | '\n'     => some 'n'
  | '\x0b'   => some 'v'
  | '\x0c'   => some 'f'
  | '\r'     => some 'r'
  | '\x1b'   => some 'e'
  | '"'      => some '"'
  | '\\'     => some '\\'
  | '\u0085' => some 'N'
  | '\u00a0' => some '_'
  | '\u2028' => some 'L'
  | '\u2029' => some 'P'
  | _        => none

/-- The escape of a character inside double quotes. -/
def escapedChar (c : Char) : Bytes :=
  '\\'.ascii :: (match shortEscape? c with
    | some letter => [letter.ascii]
    | none =>
      if c.toNat ≤ 0xFF then 'x'.ascii :: hexDigits upperHexDigit 2 c.toNat
      else if c.toNat ≤ 0xFFFF then 'u'.ascii :: hexDigits upperHexDigit 4 c.toNat
      else 'U'.ascii :: hexDigits upperHexDigit 8 c.toNat)

/-- A character inside double quotes. -/
def doubleQuotedChar (c : Char) : Bytes :=
  if isPlainPrintable c ∧ !isBreak c ∧ c ≠ '"' ∧ c ≠ '\\' then c.utf8
  else escapedChar c

/-- The text in double quotes. Text behind a byte order mark at its start is escaped altogether. -/
def doubleQuoted (text : List Char) : Bytes :=
  let write := if text.head? = some '\ufeff' then escapedChar else doubleQuotedChar
  '"'.ascii :: text.flatMap write ++ ['"'.ascii]

/-- Text inside single quotes, where lines behind the first are indented. -/
def singleQuotedBody (indent : Nat) (behindBreak : Bool) : List Char → Bytes
  | [] => []
  | c :: cs =>
    if isBreak c then c.utf8 ++ singleQuotedBody indent true cs
    else if c = ' ' then ' '.ascii :: singleQuotedBody indent behindBreak cs
    else
      (if behindBreak then Bytes.spaces indent else []) ++
        (if c = '\'' then "''".utf8 else c.utf8) ++ singleQuotedBody indent false cs

/-- The text in single quotes. -/
def singleQuoted (indent : Nat) (text : List Char) : Bytes :=
  '\''.ascii :: singleQuotedBody indent false text ++ ['\''.ascii]

/-- The lines of a literal block. The first starts on a line of its own, unless it is empty. -/
def literalBody (indent : Nat) (lead : Bytes) : List Char → Bytes
  | [] => []
  | c :: cs =>
    if isBreak c then c.utf8 ++ literalBody indent (Bytes.spaces indent) cs
    else lead ++ c.utf8 ++ literalBody indent [] cs

/-- The mark that tells what becomes of the line breaks at the end of a literal block: none is
    kept, one is, or all are. -/
def chompingMark (text : List Char) : Bytes :=
  match text.reverse with
  | []      => "-".utf8
  | [c]     => if isBreak c then "+".utf8 else "-".utf8
  | c :: b :: _ => if !isBreak c then "-".utf8 else if isBreak b then "+".utf8 else []

/-- The mark that tells the indentation of a literal block whose first line does not show it. -/
def indentationMark (text : List Char) : Bytes :=
  match text with
  | c :: _ => if c = ' ' ∨ isBreak c then "2".utf8 else []
  | []     => []

/-- The text as a literal block. -/
def literal (indent : Nat) (text : List Char) : Bytes :=
  '|'.ascii :: indentationMark text ++ chompingMark text ++
    literalBody indent ('\n'.ascii :: Bytes.spaces indent) text

/-- A scalar in a style, where further lines are indented by `indent`. -/
def Style.write (indent : Nat) (text : List Char) : Style → Bytes
  | .plain        => Bytes.ofChars text
  | .singleQuoted => Yaml.singleQuoted indent text
  | .doubleQuoted => Yaml.doubleQuoted text
  | .literal      => Yaml.literal indent text

/-- The tag in front of a scalar whose text would be taken for something else. -/
def tagMark (tag : Tag) (text : List Char) : Bytes :=
  if tag ≠ .str ∧ resolve text ≠ tag then tag.text.utf8 ++ " ".utf8 else []

/-- A scalar, where further lines are indented by `indent`. -/
def scalar (indent : Nat) (tag : Tag) (text : List Char) : Bytes :=
  tagMark tag text ++ (Style.of tag text).write indent text

/-- A scalar up to the start of the next line. A literal block may be there already. -/
def scalarLine (indent : Nat) (tag : Tag) (text : List Char) : Bytes :=
  if Style.of tag text = .literal ∧ (text.getLast?).any isBreak then scalar indent tag text
  else scalar indent tag text ++ ['\n'.ascii]

end RelaxedJson.Yaml
