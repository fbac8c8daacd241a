-- SUMMARY: Events: the structure of a value, told token by token.
import RelaxedJson.Token

/-!
# Events

Reading a value is reported as a sequence of events. A consumer of events is a handler: it has a
state, changes it with each event, and may refuse an event.
-/

namespace RelaxedJson

/-- A step in the structure of a value, with the token it belongs to. -/
inductive Event where
  | beginObject (t : Token)
  | endObject (t : Token)
  | beginArray (t : Token)
  | endArray (t : Token)
  /-- A member starts. The key is decoded; `t` is the token it was read from. -/
  | beginMember (key : Bytes) (t : Token)
  /-- A member ends. `t` is the first token behind its value. -/
  | endMember (t : Token)
  /-- A value that is neither an object nor an array. -/
  | scalar (t : Token)
  | endOfInput (t : Token)
  deriving DecidableEq, Repr

/-- The token an event belongs to. -/
def Event.token : Event → Token
  | .beginObject t   => t
  | .endObject t     => t
  | .beginArray t    => t
  | .endArray t      => t
  | .beginMember _ t => t
  | .endMember t     => t
  | .scalar t        => t
  | .endOfInput t    => t

/-- A consumer of events with states `σ`, which may refuse an event with a failure in `ε`. Its state
    counts also then. -/
abbrev Handler (σ ε : Type) := Event → σ → σ × Option ε

namespace Handler

/-- Passes on an event, if there is one. -/
def deliver {σ ε : Type} (h : Handler σ ε) : Option Event → σ → σ × Option ε
  | none,   s => (s, none)
  | some e, s => h e s

/-- Ignores all events. -/
def discard : Handler Unit Empty :=
  fun _ s => (s, none)

end Handler

end RelaxedJson
