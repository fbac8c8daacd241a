-- SUMMARY: Values as YAML nodes.
import RelaxedJson.Number.Notation
import RelaxedJson.Value
import RelaxedJson.Yaml.Tag

/-!
# YAML nodes

A value becomes a tree of tagged nodes. Members keep their order, keys are strings, and whole numbers
are integers.
-/

namespace RelaxedJson

namespace Yaml

/-- A node of a YAML document. The keys of a mapping are strings. -/
inductive Node where
  | scalar (tag : Tag) (text : Bytes)
  | sequence (items : List Node)
  | mapping (entries : List (Bytes × Node))
  deriving Repr

/-- The node of a number. -/
def Node.ofNumber (x : Binary64) : Node :=
  if x.isInt then .scalar .int (Bytes.ofInt x.truncate)
  else .scalar .float (Bytes.ofAscii x.jsonText)

end Yaml

namespace Value

mutual

/-- The YAML node of a value. -/
def toYaml : Value → Yaml.Node
  | .null       => .scalar .null "null".utf8
  | .bool true  => .scalar .bool "true".utf8
  | .bool false => .scalar .bool "false".utf8
  | .number x   => .ofNumber x
  | .string s   => .scalar .str s
  | .array vs   => .sequence (elementsToYaml vs)
  | .object ms  => .mapping (membersToYaml ms)

/-- The node of each element. -/
def elementsToYaml : List Value → List Yaml.Node
  | []      => []
  | v :: vs => v.toYaml :: elementsToYaml vs

/-- The node of each member. -/
def membersToYaml : List (Bytes × Value) → List (Bytes × Yaml.Node)
  | []           => []
  | (k, v) :: ms => (k, v.toYaml) :: membersToYaml ms

end

end Value

end RelaxedJson
