-- SUMMARY: The tags of YAML scalars, and what a plain scalar is taken for.
import RelaxedJson.Number.Integer

/-!
# Tags

A plain scalar is taken for a null, a boolean, a number, a timestamp or a string, depending on its
text alone. A string whose text would be taken for something else has to be quoted, and anything
else whose text would be taken for the wrong thing has to carry its tag.
-/

namespace RelaxedJson.Yaml

/-- What a scalar is. -/
inductive Tag where
  | str
  | int
  | float
  | bool
  | null
  | timestamp
  deriving DecidableEq, Repr

/-- The short form of a tag. -/
def Tag.text : Tag → String
  | .str       => "!!str"
  | .int       => "!!int"
  | .float     => "!!float"
  | .bool      => "!!bool"
  | .null      => "!!null"
  | .timestamp => "!!timestamp"

/-! ## Timestamps -/

namespace Timestamp

/-- A number of one or two digits, and what follows it. -/
def short? : List Char → Option (Nat × List Char)
  | a :: b :: cs =>
    if a.isDigit then
      if b.isDigit then some (Nat.ofDigitChars 10 [a, b] 0, cs)
      else some (Nat.ofDigitChars 10 [a] 0, b :: cs)
    else none
  | [a] => if a.isDigit then some (Nat.ofDigitChars 10 [a] 0, []) else none
  | []  => none

/-- What follows the given character. -/
def expect? (c : Char) : List Char → Option (List Char)
  | d :: cs => if c = d then some cs else none
  | []      => none

/-- The days of a month. -/
def daysIn (year month : Nat) : Nat :=
  if month = 2 then
    if year % 4 = 0 ∧ (year % 100 ≠ 0 ∨ year % 400 = 0) then 29 else 28
  else if month = 4 ∨ month = 6 ∨ month = 9 ∨ month = 11 then 30
  else 31

/-- What follows a date: four digits for the year, and short numbers for month and day. -/
def date? (text : List Char) : Option (List Char) := do
  let digits := text.takeWhile Char.isDigit
  guard (digits.length = 4)
  let year := Nat.ofDigitChars 10 digits 0
  let (month, rest) ← short? (← expect? '-' (text.drop 4))
  let (day, rest) ← short? (← expect? '-' rest)
  guard (1 ≤ month ∧ month ≤ 12 ∧ 1 ≤ day ∧ day ≤ daysIn year month)
  return rest

/-- What follows the fraction of a second, if there is one. -/
def fraction (cs : List Char) : List Char :=
  match cs with
  | mark :: d :: rest =>
    if (mark = '.' ∨ mark = ',') ∧ d.isDigit then rest.dropWhile Char.isDigit else cs
  | _ => cs

/-- What follows a time of day. -/
def time? (text : List Char) : Option (List Char) := do
  let (hour, rest) ← short? text
  let (minute, rest) ← short? (← expect? ':' rest)
  let (second, rest) ← short? (← expect? ':' rest)
  guard (hour < 24 ∧ minute < 60 ∧ second < 60)
  return fraction rest

/-- Whether the text is a time zone: `Z`, or a sign with hours and minutes. -/
def isZone : List Char → Bool
  | ['Z'] => true
  | [sign, a, b, ':', c, d] =>
    (sign = '+' || sign = '-') && [a, b, c, d].all Char.isDigit &&
      Nat.ofDigitChars 10 [a, b] 0 ≤ 24 && Nat.ofDigitChars 10 [c, d] 0 ≤ 60
  | _ => false

/-- Whether the text is a date, a date and a time in a zone, or a date and a time behind spaces. -/
def isTimestamp (text : List Char) : Bool :=
  match date? text with
  | none             => false
  | some []          => true
  | some ('T' :: cs) => (time? cs).any isZone
  | some ('t' :: cs) => (time? cs).any isZone
  | some (' ' :: cs) => (time? (cs.dropWhile (· = ' '))).any List.isEmpty
  | some _           => false

end Timestamp

/-! ## Numbers -/

/-- Whether the text is a number in the range of its type. -/
def isFloat (text : List Char) : Bool :=
  (Binary64.ofNumeral text).isOk

/-- Whether the text is an integer of 64 bits, signed or not. -/
def isIntegerIn (base : Integer.Base) (text : List Char) : Bool :=
  (Integer.signed base text).isOk || (Integer.unsigned base text).isOk

/-- Whether the text is an integer in any notation. The letters `b` and `o` announce a base also in
    front of a sign. -/
def isInteger (text : List Char) : Bool :=
  isIntegerIn .announced text ||
    (match text with
     | '0' :: 'b' :: cs        => isIntegerIn (.fixed 2) cs
     | '-' :: '0' :: 'b' :: cs => (Integer.signed (.fixed 2) ('-' :: cs)).isOk
     | '0' :: 'o' :: cs        => isIntegerIn (.fixed 8) cs
     | '-' :: '0' :: 'o' :: cs => (Integer.signed (.fixed 8) ('-' :: cs)).isOk
     | _                       => false)

/-! ## Resolution -/

/-- The texts that stand for themselves. -/
def constants : List (String × Tag) :=
  [("", .null), ("~", .null), ("null", .null), ("Null", .null), ("NULL", .null),
   ("true", .bool), ("True", .bool), ("TRUE", .bool),
   ("false", .bool), ("False", .bool), ("FALSE", .bool),
   (".nan", .float), (".NaN", .float), (".NAN", .float),
   (".inf", .float), (".Inf", .float), (".INF", .float),
   ("+.inf", .float), ("+.Inf", .float), ("+.INF", .float),
   ("-.inf", .float), ("-.Inf", .float), ("-.INF", .float)]

/-- What a text that starts with a digit or a sign is taken for. Underscores in numbers count for
    nothing. -/
def numericTag (text : List Char) : Tag :=
  let digits := text.filter (· ≠ '_')
  if Timestamp.isTimestamp text then .timestamp
  else if isInteger digits then .int
  else if isFloat digits then .float
  else .str

/-- Whether a text that starts with a point is a number. Underscores have to stand between
    digits. -/
def isPointFloat (text : List Char) : Bool :=
  Integer.underscoresSeparate false false text && isFloat (text.filter (· ≠ '_'))

/-- What a plain scalar is taken for. -/
def resolve (text : List Char) : Tag :=
  match constants.find? (·.1.toList = text) with
  | some (_, tag) => tag
  | none =>
    match text with
    | '.' :: _ => if isPointFloat text then .float else .str
    | c :: _   => if c = '+' ∨ c = '-' ∨ c.isDigit then numericTag text else .str
    | []       => .null

end RelaxedJson.Yaml
