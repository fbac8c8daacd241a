-- SUMMARY: Building a value from events.
import RelaxedJson.Event
import RelaxedJson.Value.Json

/-!
# Building values from events

A builder is a stack of parts: objects, arrays and members that are still open, and at most one
finished value. The end of a part joins it to the part below. A builder accepts any events, also such
as no parser reports, and says what is wrong with them.
-/

namespace RelaxedJson

/-- A value made by a builder. -/
structure Draft where
  value : Value
  /-- Whether every member inside was given a value. One that was not stands as null in `value`, and
      the draft has no text. -/
  whole : Bool
  deriving Repr

/-- The text of a draft. -/
def Draft.json? (d : Draft) : Option Bytes :=
  if d.whole then some d.value.json else none

/-- An entry of a builder's stack. -/
inductive Part where
  /-- An open object with its members, latest first. -/
  | object (members : List (Bytes × Draft))
  /-- An open array with its elements, latest first. -/
  | array (elements : List Draft)
  /-- An open member of the object below. -/
  | member (key : Bytes) (value : Option Draft)
  | finished (d : Draft)
  deriving Repr

/-- Why a builder rejects an event. -/
inductive BuildError where
  | unbalancedObject
  | unbalancedArray
  | unbalancedMember
  | memberOutsideObject
  /-- A value where none can be, behind a part of the given type. -/
  | unexpectedValue (after : String)
  /-- A token that denotes no value. -/
  | unknownValue (t : Token)
  | incomplete
  /-- There is no part to work on. -/
  | emptyStack
  deriving DecidableEq, Repr

/-- The wording of a build error. -/
def BuildError.message : BuildError → Bytes
  | .unbalancedObject        => "unbalanced object".utf8
  | .unbalancedArray         => "unbalanced array".utf8
  | .unbalancedMember        => "unbalanced member".utf8
  | .memberOutsideObject     => "member outside of object".utf8
  | .unexpectedValue after   => "unexpected value after ".utf8 ++ after.utf8
  | .unknownValue t          => "unknown value ".utf8 ++ t.text
  | .incomplete              => "incomplete value".utf8
  | .emptyStack              => "runtime error: index out of range [-1]".utf8

namespace Part

/-- How messages name the type of a part. -/
def typeName : Part → String
  | .object _   => "*ast.Object"
  | .array _    => "*ast.Array"
  | .member _ _ => "*ast.Member"
  | .finished d => d.value.typeName

/-- An array of the given elements, latest first. -/
def closeArray (elements : List Draft) : Draft :=
  { value := .array (elements.reverse.map Draft.value), whole := elements.all Draft.whole }

/-- An object of the given members, latest first. -/
def closeObject (members : List (Bytes × Draft)) : Draft :=
  { value := .object (members.reverse.map fun (k, d) => (k, d.value))
    whole := members.all fun (_, d) => d.whole }

/-- The text of a part as it is now. -/
def json? : Part → Option Bytes
  | .object ms         => (closeObject ms).json?
  | .array ds          => (closeArray ds).json?
  | .member k (some d) => if d.whole then some (Value.memberJson (k, d.value)) else none
  | .member _ none     => none
  | .finished d        => d.json?

end Part

/-- A stack of parts, top first. -/
abbrev Builder := List Part

namespace Builder

/-- Joins a member that ends to its object. -/
def join (key : Bytes) (value : Option Draft) : Builder → Builder
  | .object ms :: b => .object ((key, value.getD ⟨.null, false⟩) :: ms) :: b
  | b               => b

/-- Takes the top part off the stack. -/
def pop? : Builder → Option (Part × Builder)
  | []                => none
  | .member k v :: b => some (.member k v, join k v b)
  | p :: b           => some (p, b)

/-- Adds a value to the open part on top. -/
def put (d : Draft) : Builder → Builder × Option BuildError
  | []                => ([.finished d], none)
  | .member k _ :: b => (.member k (some d) :: b, none)
  | .array ds :: b   => (.array (d :: ds) :: b, none)
  | p :: b           => (p :: b, some (.unexpectedValue p.typeName))

/-- Ends the part on top, which `close?` has to accept. -/
def close (close? : Part → Option (Option Draft)) (error : BuildError) (b : Builder) :
    Builder × Option BuildError :=
  match b.pop? with
  | none => (b, some .emptyStack)
  | some (p, below) =>
    match close? p with
    | none          => (below, some error)
    | some none     => (below, none)
    | some (some d) => put d below

/-- The value that a token denotes. -/
def scalar? (t : Token) : Option Value :=
  match t.kind, t.literal with
  | .null,  _                => some .null
  | .true,  _                => some (.bool true)
  | .false, _                => some (.bool false)
  | _,      some (.string s) => some (.string s)
  | _,      some (.number x) => some (.number x)
  | _,      none             => none

/-- The builder as a handler of events. -/
def handle : Handler Builder BuildError
  | .beginObject _, b => (.object [] :: b, none)
  | .beginArray _,  b => (.array [] :: b, none)
  | .beginMember k _, b =>
    match b with
    | []             => (b, some .emptyStack)
    | .object _ :: _ => (.member k none :: b, none)
    | _              => (b, some .memberOutsideObject)
  | .endObject _, b =>
    b.close (fun | .object ms => some (some (Part.closeObject ms)) | _ => none) .unbalancedObject
  | .endArray _, b =>
    b.close (fun | .array ds => some (some (Part.closeArray ds)) | _ => none) .unbalancedArray
  | .endMember _, b =>
    b.close (fun | .member _ _ => some none | _ => none) .unbalancedMember
  | .scalar t, b =>
    match scalar? t with
    | some v => b.put ⟨v, true⟩
    | none   => (b, some (.unknownValue t))
  | .endOfInput _, b => (b, none)

/-- The single part that remains. -/
def result : Builder → Except BuildError Part
  | [p] => .ok p
  | _   => .error .incomplete

/-- The finished value that remains. -/
def value : Builder → Except BuildError Value
  | [.finished d] => if d.whole then .ok d.value else .error .incomplete
  | _             => .error .incomplete

end Builder

end RelaxedJson
