-- SUMMARY: Value trees of JSON documents.
import RelaxedJson.Number.Binary64
import RelaxedJson.Text.Bytes

/-!
# Values

A value is a scalar, an array or an object. An object is a list of members in the order of the
input; nothing in the type keeps keys from being repeated, though parsing never yields such an
object.
-/

namespace RelaxedJson

/-- A JSON value. -/
inductive Value where
  | null
  | bool (b : Bool)
  | number (x : Binary64)
  | string (s : Bytes)
  | array (elements : List Value)
  | object (members : List (Bytes × Value))
  deriving Repr

namespace Value

/-- How messages name the type of a value. -/
def typeName : Value → String
  | .null     => "ast.null"
  | .bool _   => "ast.Bool"
  | .number _ => "ast.Number"
  | .string _ => "ast.String"
  | .array _  => "ast.Array"
  | .object _ => "ast.Object"

/-- The number of elements or members. -/
def length? : Value → Option Nat
  | .array vs  => some vs.length
  | .object ms => some ms.length
  | _          => none

/-- The keys of an object in order. -/
def keys : Value → List Bytes
  | .object ms => ms.map Prod.fst
  | _          => []

/-- The first member of an object with the given key. -/
def find? (key : Bytes) : Value → Option (Bytes × Value)
  | .object ms => ms.find? (·.1 = key)
  | _          => none

end Value

end RelaxedJson
