-- SUMMARY: Looking inside a value along a path.
import RelaxedJson.Text.Quoted
import RelaxedJson.Value

/-!
# Paths

A path is a list of steps: an object key, an array index, or a function of the caller. Negative
indices count from the end of the array. A path that fails leads nowhere: its result is the value it
started from.
-/

namespace RelaxedJson

/-- A step of a path, where functions fail with errors in `ε`. -/
inductive PathStep (ε : Type) where
  | key (k : Bytes)
  | index (i : Int)
  | apply (f : Value → Except ε Value)
  /-- Something that is no step, of the named type. -/
  | invalid (typeName : String)

/-- Why a path fails. -/
inductive PathError (ε : Type) where
  | notObject (typeName : String) (key : Bytes)
  | keyNotFound (key : Bytes)
  | notArray (typeName : String) (index : Int)
  | outOfBounds (index : Int) (length : Nat)
  | invalidStep (typeName : String)
  /-- A function of the path failed. -/
  | failed (e : ε)
  deriving DecidableEq, Repr

/-- The wording of a path error, given that of the functions' errors. -/
def PathError.message {ε : Type} (failure : ε → Bytes) : PathError ε → Bytes
  | .notObject T k   => "cannot traverse ".utf8 ++ T.utf8 ++ " with ".utf8 ++ Quoted.text k
  | .keyNotFound k   => "key ".utf8 ++ Quoted.text k ++ " not found".utf8
  | .notArray T i    => "cannot traverse ".utf8 ++ T.utf8 ++ " with ".utf8 ++ Bytes.ofInt i
  | .outOfBounds i n =>
    "array index ".utf8 ++ Bytes.ofInt i ++ " out of bounds (n=".utf8 ++ Bytes.ofNat n ++ ")".utf8
  | .invalidStep T   => "invalid path element ".utf8 ++ T.utf8
  | .failed e        => failure e

namespace Value

variable {ε : Type}

/-- The offset that an index into an array of length `n` means. -/
def offset? (n : Nat) (i : Int) : Option Nat :=
  let j := if i < 0 then i + n else i
  if 0 ≤ j ∧ j < n then some j.toNat else none

/-- Takes one step. -/
def step (v : Value) : PathStep ε → Except (PathError ε) Value
  | .key k =>
    match v with
    | .object ms =>
      match ms.find? (·.1 = k) with
      | some (_, w) => .ok w
      | none        => .error (.keyNotFound k)
    | _ => .error (.notObject v.typeName k)
  | .index i =>
    match v with
    | .array vs =>
      match (offset? vs.length i).bind (vs[·]?) with
      | some w => .ok w
      | none   => .error (.outOfBounds i vs.length)
    | _ => .error (.notArray v.typeName i)
  | .apply f   => (f v).mapError .failed
  | .invalid T => .error (.invalidStep T)

/-- Where a path leads. -/
def walk (v : Value) : List (PathStep ε) → Except (PathError ε) Value
  | []            => .ok v
  | step :: steps =>
    match v.step step with
    | .error e => .error e
    | .ok w    => w.walk steps

/-- Where a path leads, or the value it started from and the error. -/
def path (v : Value) (steps : List (PathStep ε)) : Value × Option (PathError ε) :=
  match v.walk steps with
  | .ok w    => (w, none)
  | .error e => (v, some e)

end Value

end RelaxedJson
