-- SUMMARY: Plain data: values whose objects are finite maps.
import RelaxedJson.Number.Rounding
import RelaxedJson.Value

/-!
# Plain data

Plain data is what a value is without the order of its members: objects are finite maps from keys to
data. A map is kept as a list with strictly ascending keys, so equal maps are equal lists.
`Value.toPlain` forgets the order; `Datum.toValue` makes values of plain data, and of anything else
that has a value.
-/

namespace RelaxedJson

/-- A map as a list with ascending keys. -/
abbrev KeyMap (α : Type) := List (Bytes × α)

/-- The map with `key` bound to `a`, instead of what it was bound to before. -/
def KeyMap.insert {α : Type} (key : Bytes) (a : α) : KeyMap α → KeyMap α
  | []          => [(key, a)]
  | (k, b) :: m =>
    if key = k then (key, a) :: m
    else if key.before k then (key, a) :: (k, b) :: m
    else (k, b) :: KeyMap.insert key a m

/-- The map with the given bindings, of which the last counts for each key. -/
def KeyMap.ofList {α : Type} (bindings : List (Bytes × α)) : KeyMap α :=
  bindings.foldl (fun m (k, a) => KeyMap.insert k a m) []

/-- Data without an order of members. -/
inductive Plain where
  | null
  | bool (b : Bool)
  | number (x : Binary64)
  | string (s : Bytes)
  | list (items : List Plain)
  | map (entries : List (Bytes × Plain))
  deriving Repr

namespace Value

mutual

/-- The plain data of a value. Of members with the same key the last counts. -/
def toPlain : Value → Plain
  | .null      => .null
  | .bool b    => .bool b
  | .number x  => .number x
  | .string s  => .string s
  | .array vs  => .list (elementsToPlain vs)
  | .object ms => .map (KeyMap.ofList (membersToPlain ms))

/-- The plain data of each element. -/
def elementsToPlain : List Value → List Plain
  | []      => []
  | v :: vs => v.toPlain :: elementsToPlain vs

/-- The plain data of each member. -/
def membersToPlain : List (Bytes × Value) → List (Bytes × Plain)
  | []           => []
  | (k, v) :: ms => (k, v.toPlain) :: membersToPlain ms

end

end Value

/-! ## From data to values -/

/-- Data of any type, of which some has no value. -/
inductive Datum where
  | null
  | bool (b : Bool)
  | integer (i : Int64)
  | number (x : Binary64)
  | string (s : Bytes)
  | list (items : List Datum)
  /-- A map, its entries in any order. -/
  | map (entries : List (Bytes × Datum))
  /-- Something that is a value already. -/
  | value (v : Value)
  /-- A list of values. -/
  | values (vs : List Value)
  /-- A single member of an object. -/
  | member (key : Bytes) (v : Value)
  /-- Data of a type that has no values. -/
  | unsupported (typeName : String)

/-- Data of a type that has no values. -/
structure UnsupportedType where
  typeName : String
  deriving DecidableEq, Repr

/-- The wording of the error for data without a value. -/
def UnsupportedType.message (e : UnsupportedType) : Bytes :=
  "unsupported value type ".utf8 ++ e.typeName.utf8

/-- The first failure in order, or all results. -/
def collect {ε α : Type} : List (Except ε α) → Except ε (List α)
  | []             => .ok []
  | .error e :: _  => .error e
  | .ok a :: rest  => (collect rest).map (a :: ·)

namespace Datum

/-- The members in the order of their keys, or the first failure in that order. -/
def sortMembers (members : List (Bytes × Except UnsupportedType Value)) :
    Except UnsupportedType (List (Bytes × Value)) :=
  collect ((members.mergeSort fun a b => !b.1.before a.1).map fun (k, r) => r.map (k, ·))

mutual

/-- The value of data. Members made from a map are in the order of their keys. -/
def toValue : Datum → Except UnsupportedType Value
  | .null          => .ok .null
  | .bool b        => .ok (.bool b)
  | .integer i     => .ok (.number (Binary64.ofInt64 i))
  | .number x      => .ok (.number x)
  | .string s      => .ok (.string s)
  | .list ds       => (collect (itemsToValue ds)).map .array
  | .map es        => (sortMembers (entriesToValue es)).map .object
  | .value v       => .ok v
  | .values vs     => .ok (.array vs)
  | .member k v    => .ok (.object [(k, v)])
  | .unsupported T => .error ⟨T⟩

/-- The value of each item. -/
def itemsToValue : List Datum → List (Except UnsupportedType Value)
  | []      => []
  | d :: ds => d.toValue :: itemsToValue ds

/-- The value of each entry. -/
def entriesToValue : List (Bytes × Datum) → List (Bytes × Except UnsupportedType Value)
  | []           => []
  | (k, d) :: es => (k, d.toValue) :: entriesToValue es

end

end Datum

namespace Plain

mutual

/-- Plain data as data of any type. -/
def toDatum : Plain → Datum
  | .null     => .null
  | .bool b   => .bool b
  | .number x => .number x
  | .string s => .string s
  | .list ps  => .list (itemsToDatum ps)
  | .map es   => .map (entriesToDatum es)

/-- Each item as data of any type. -/
def itemsToDatum : List Plain → List Datum
  | []      => []
  | p :: ps => p.toDatum :: itemsToDatum ps

/-- Each entry as data of any type. -/
def entriesToDatum : List (Bytes × Plain) → List (Bytes × Datum)
  | []           => []
  | (k, p) :: es => (k, p.toDatum) :: entriesToDatum es

end

/-- The value of plain data. -/
def toValue (p : Plain) : Except UnsupportedType Value :=
  p.toDatum.toValue

end Plain

end RelaxedJson
