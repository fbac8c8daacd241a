-- SUMMARY: TOML documents with indented tables.
import RelaxedJson.Number.Notation
import RelaxedJson.Toml.Data

/-!
# TOML documents

A table is written as its keys and values, and behind them its sub-tables under headers of their own.
A table is a sub-table, and so is an array of tables only, unless it is empty; everything else is a
value on one line. Keys are in ascending order in both groups, and a table whose header has `n` keys
is indented by `n` levels, its header by one less.
-/

namespace RelaxedJson.Toml

/-! ## Strings and keys -/

/-- Whether a byte cannot stand in a literal string. -/
def needsEscape (b : UInt8) : Bool :=
  b = '\''.ascii || (b < 0x20 && b ≠ '\t'.ascii) || b = 0x7F

/-- A byte inside a basic string. -/
def basicByte (b : UInt8) : Bytes :=
  if b = '\\'.ascii then "\\\\".utf8
  else if b = '"'.ascii then "\\\"".utf8
  else if b = 0x08 then "\\b".utf8
  else if b = 0x0C then "\\f".utf8
  else if b = '\n'.ascii then "\\n".utf8
  else if b = '\r'.ascii then "\\r".utf8
  else if b = '\t'.ascii then "\\t".utf8
  else if b < 0x20 ∨ b = 0x7F then "\\u".utf8 ++ hexDigits upperHexDigit 4 b.toNat
  else [b]

/-- A string in single quotes if they can hold it, and in double quotes otherwise. -/
def string (s : Bytes) : Bytes :=
  if s.any needsEscape then '"'.ascii :: s.flatMap basicByte ++ ['"'.ascii]
  else '\''.ascii :: s ++ ['\''.ascii]

/-- Whether a byte can stand in a key without quotes. -/
def isBareKeyByte (b : UInt8) : Bool :=
  let c := Char.ofNat b.toNat
  b < 0x80 && (c.isAlphanum || c = '-' || c = '_')

/-- A key, in quotes if it needs them. -/
def key (k : Bytes) : Bytes :=
  if k ≠ [] ∧ k.all isBareKeyByte then k else string k

/-- The keys of a header, separated by points. -/
def dotted (path : List Bytes) : Bytes :=
  Bytes.join ['.'.ascii] (path.map key)

/-- The indentation of a level. -/
def margin (level : Nat) : Bytes :=
  Bytes.spaces (2 * level)

/-! ## Values on one line -/

mutual

/-- A value on one line, in a table of the given level. -/
def inline (level : Nat) : Data → Bytes
  | .string s      => string s
  | .integer i     => Bytes.ofInt i
  | .float x       => Bytes.ofAscii x.tomlText
  | .boolean true  => "true".utf8
  | .boolean false => "false".utf8
  | .array items   => '['.ascii :: Bytes.join ", ".utf8 (inlineItems level items) ++ [']'.ascii]
  | .table entries => '{'.ascii :: Bytes.join ", ".utf8 (inlineEntries level entries) ++ ['}'.ascii]

/-- Each item on one line. -/
def inlineItems (level : Nat) : List Data → List Bytes
  | []      => []
  | d :: ds => inline level d :: inlineItems level ds

/-- Each entry on one line. The entries of a table on one line keep the margin of the level. -/
def inlineEntries (level : Nat) : List (Bytes × Data) → List Bytes
  | []           => []
  | (k, d) :: es => (margin level ++ key k ++ " = ".utf8 ++ inline level d) :: inlineEntries level es

end

/-! ## Tables -/

/-- Whether data is a table. -/
def Data.isTable : Data → Bool
  | .table _ => true
  | _        => false

/-- Whether an entry is written under a header of its own. -/
def Data.hasHeader : Data → Bool
  | .table _   => true
  | .array ds  => !ds.isEmpty && ds.all Data.isTable
  | _          => false

mutual

/-- The parts of a document that an entry with a header is: one for a table, and one for each table
    of an array. They are written with a blank line between them. -/
def sections (path : List Bytes) : Data → List Bytes
  | .table es =>
    [margin (path.length - 1) ++ '['.ascii :: dotted path ++ "]\n".utf8 ++ body path es]
  | .array ds => arraySections path ds
  | _         => []

/-- The parts of a document that an array of tables is. -/
def arraySections (path : List Bytes) : List Data → List Bytes
  | []             => []
  | .table es :: ds =>
    (margin (path.length - 1) ++ "[[".utf8 ++ dotted path ++ "]]\n".utf8 ++ body path es) ::
      arraySections path ds
  | _ :: ds => arraySections path ds

/-- What stands under the header of a table: the lines of its keys and values, then a blank line if
    there are any, then its sub-tables. -/
def body (path : List Bytes) (entries : List (Bytes × Data)) : Bytes :=
  let lines := (entries.filter fun (_, d) => !d.hasHeader).flatMap fun (k, d) =>
    margin path.length ++ key k ++ " = ".utf8 ++ inline path.length d ++ ['\n'.ascii]
  let parts := bodySections path entries
  let gap : Bytes := if lines ≠ [] ∧ parts ≠ [] then ['\n'.ascii] else []
  lines ++ gap ++ Bytes.join ['\n'.ascii] parts

/-- The parts of all entries with headers. -/
def bodySections (path : List Bytes) : List (Bytes × Data) → List Bytes
  | []           => []
  | (k, d) :: es =>
    if d.hasHeader then sections (path ++ [k]) d ++ bodySections path es else bodySections path es

end

/-- The text of a document. -/
def document (entries : List (Bytes × Data)) : Bytes :=
  body [] entries

end RelaxedJson.Toml
