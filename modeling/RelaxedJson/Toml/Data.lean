-- SUMMARY: Values as TOML data.
import RelaxedJson.Text.Quoted
import RelaxedJson.Value.Plain

/-!
# TOML data

TOML has tables instead of objects and integers beside floats, but no null. A member that is null is
left out, and a null element of an array is an error, which says where the element is.
-/

namespace RelaxedJson

namespace Toml

/-- TOML data. The entries of a table have ascending keys. -/
inductive Data where
  | string (s : Bytes)
  | integer (i : Int)
  | float (x : Binary64)
  | boolean (b : Bool)
  | array (items : List Data)
  | table (entries : List (Bytes × Data))
  deriving Repr

/-- Why a value is no TOML data. -/
inductive Error where
  | nullElement (offset : Nat)
  | inMember (key : Bytes) (e : Error)
  | inElement (offset : Nat) (e : Error)
  deriving DecidableEq, Repr

/-- The wording of an error, from the outside in. -/
def Error.message : Error → Bytes
  | .nullElement i =>
    "null array element at offset ".utf8 ++ Bytes.ofNat i ++ " has no TOML representation".utf8
  | .inMember k e  => "member ".utf8 ++ Quoted.text k ++ ": ".utf8 ++ e.message
  | .inElement i e => "element ".utf8 ++ Bytes.ofNat i ++ ": ".utf8 ++ e.message

/-- The outcome of a conversion: the keys of the members left out up to its end, in order, and what
    it gives. -/
structure Conversion (α : Type) where
  omitted : List Bytes := []
  result : Except Error α

namespace Conversion

variable {α β : Type}

/-- A conversion that leaves nothing out. -/
def pure (a : α) : Conversion α :=
  { result := .ok a }

/-- Goes on with `f` if the conversion did not fail. -/
def bind (c : Conversion α) (f : α → Conversion β) : Conversion β :=
  match c.result with
  | .error e => { omitted := c.omitted, result := .error e }
  | .ok a    => { omitted := c.omitted ++ (f a).omitted, result := (f a).result }

/-- Says where an error lies. -/
def within (place : Error → Error) (c : Conversion α) : Conversion α :=
  { omitted := c.omitted, result := c.result.mapError place }

end Conversion

/-- The data of a number. Whole numbers are integers. -/
def Data.ofNumber (x : Binary64) : Data :=
  if x.isInt then .integer x.truncate else .float x

end Toml

namespace Value

open Toml (Conversion Data)

mutual

/-- The TOML data of a value, of which null has none. -/
def toToml : Value → Conversion (Option Data)
  | .null      => .pure none
  | .bool b    => .pure (some (.boolean b))
  | .number x  => .pure (some (.ofNumber x))
  | .string s  => .pure (some (.string s))
  | .array vs  => (elementsToToml 0 vs).bind fun items => .pure (some (.array items))
  | .object ms => (membersToToml ms).bind fun es => .pure (some (.table (KeyMap.ofList es)))

/-- The data of the elements of an array from the given offset on. -/
def elementsToToml (offset : Nat) : List Value → Conversion (List Data)
  | []      => .pure []
  | v :: vs =>
    (v.toToml.within (.inElement offset)).bind fun
      | none   => { result := .error (.nullElement offset) }
      | some d => (elementsToToml (offset + 1) vs).bind fun ds => .pure (d :: ds)

/-- The data of the members of an object, without those that are null. -/
def membersToToml : List (Bytes × Value) → Conversion (List (Bytes × Data))
  | []           => .pure []
  | (k, v) :: ms =>
    (v.toToml.within (.inMember k)).bind fun
      | none   => ({ omitted := [k], result := .ok () } : Conversion Unit).bind fun () =>
          membersToToml ms
      | some d => (membersToToml ms).bind fun es => .pure ((k, d) :: es)

end

end Value

end RelaxedJson
