-- SUMMARY: Compact JSON text of values.
import RelaxedJson.Number.Notation
import RelaxedJson.Text.Escape
import RelaxedJson.Value

/-!
# JSON text

Values are written without any white space. The writers put their text in front of a given rest, so
writing takes time in proportion to the text, however deeply the value nests.
-/

namespace RelaxedJson

namespace Value

mutual

/-- Writes a value in front of `rest`. -/
def jsonOnto : Value → (rest : Bytes) → Bytes
  | .null,       rest => "null".utf8 ++ rest
  | .bool true,  rest => "true".utf8 ++ rest
  | .bool false, rest => "false".utf8 ++ rest
  | .number x,   rest => Bytes.ofAscii x.jsonText ++ rest
  | .string s,   rest => Escape.quote .double s ++ rest
  | .array vs,   rest => '['.ascii :: elementsOnto [] vs (']'.ascii :: rest)
  | .object ms,  rest => '{'.ascii :: membersOnto [] ms ('}'.ascii :: rest)

/-- Writes the elements of an array in front of `rest`, the first of them behind `lead` and the
    others behind commas. -/
def elementsOnto (lead : Bytes) : List Value → (rest : Bytes) → Bytes
  | [],      rest => rest
  | v :: vs, rest => lead ++ v.jsonOnto (elementsOnto [','.ascii] vs rest)

/-- Writes the members of an object in front of `rest`, the first of them behind `lead` and the
    others behind commas. -/
def membersOnto (lead : Bytes) : List (Bytes × Value) → (rest : Bytes) → Bytes
  | [],           rest => rest
  | (k, v) :: ms, rest =>
    lead ++ Escape.quote .double k ++ ':'.ascii :: v.jsonOnto (membersOnto [','.ascii] ms rest)

end

/-- The compact JSON text of a value. -/
def json (v : Value) : Bytes :=
  v.jsonOnto []

/-- The JSON text of a member of an object. -/
def memberJson (member : Bytes × Value) : Bytes :=
  membersOnto [] [member] []

end Value

end RelaxedJson
