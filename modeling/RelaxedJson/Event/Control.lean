-- SUMMARY: The value grammar as an automaton over tokens.
import RelaxedJson.Dialect
import RelaxedJson.Event
import RelaxedJson.SyntaxError

/-!
# The value grammar

    value  := object | array | scalar
    object := '{' [ member (',' member)* [','] ] '}'
    array  := '[' [ value (',' value)* [','] ] ']'
    member := key ':' value

The grammar is an automaton with a stack. Its control is what has to come next (`Goal`), where a
finished value belongs (`Context`), and the number of open brackets. One token decides each move.
-/

namespace RelaxedJson

/-- What has to come next. -/
inductive Goal where
  | value
  /-- A key or the end of an object with the given keys; `comma` tells whether a comma came last. -/
  | member (keys : List Bytes) (comma : Bool)
  | colon (keys : List Bytes)
  /-- A comma or the end of an object. -/
  | memberEnd (keys : List Bytes)
  /-- A value or the end of an array; `comma` tells whether a comma came last. -/
  | element (comma : Bool)
  /-- A comma or the end of an array. -/
  | elementEnd
  /-- Nothing: the value is finished. -/
  | complete
  deriving DecidableEq, Repr

/-- Where a finished value belongs. -/
inductive Context where
  | object (keys : List Bytes)
  | array
  deriving DecidableEq, Repr

/-- The control of the automaton. -/
structure Control where
  depth : Nat
  goal : Goal := .value
  contexts : List Context := []
  deriving DecidableEq, Repr

/-- What becomes of a token. -/
inductive Verdict where
  /-- It stays unread. -/
  | refuse (e : SyntaxError)
  /-- It is read, and then is at fault or reported. -/
  | take (next : Control) (report : Except SyntaxError (Option Event))

/-- A move of the automaton. -/
structure Move where
  /-- What is reported while the token is unread. -/
  before : Option Event := none
  verdict : Verdict

/-- The key that a token is. -/
def Token.key? (t : Token) : Option Bytes :=
  match t.kind, t.literal with
  | .identifier, none             => some t.lexeme
  | .string,     some (.string s) => some s
  | _,           _                => none

namespace Control

/-- Refuses a token. -/
def refuse (t : Token) (reason : SyntaxReason) : Verdict :=
  .refuse ⟨t.position, reason⟩

/-- The control when a value is finished. -/
def finish (depth : Nat) : List Context → Control
  | []              => { depth, goal := .complete }
  | .object ks :: cs => { depth, goal := .memberEnd ks, contexts := cs }
  | .array :: cs     => { depth, goal := .elementEnd, contexts := cs }

/-- Reads an opening bracket: one level deeper, if the limit permits. -/
def opening (d : Dialect) (depth : Nat) (cs : List Context) (t : Token) (goal : Goal)
    (event : Event) : Verdict :=
  .take { depth := depth + 1, goal, contexts := cs }
    (if d.depthLimit < depth + 1 then .error ⟨t.position, .tooDeep d.depthLimit⟩
     else .ok (some event))

/-- Reads a closing bracket. -/
def closing (depth : Nat) (cs : List Context) (event : Event) : Verdict :=
  .take (finish (depth - 1) cs) (.ok (some event))

/-- Reads the start of a value, or a value that is a single token. -/
def value (d : Dialect) (depth : Nat) (cs : List Context) (t : Token) : Verdict :=
  match t.kind with
  | .leftBrace   => opening d depth cs t (.member [] false) (.beginObject t)
  | .leftBracket => opening d depth cs t (.element false) (.beginArray t)
  | .null | .true | .false => .take (finish depth cs) (.ok (some (.scalar t)))
  | .string | .number =>
    if t.hasLiteral then .take (finish depth cs) (.ok (some (.scalar t)))
    else refuse t (.malformedToken t.kind t.lexeme)
  | kind => refuse t (.expectedValue kind)

/-- Reads a key, which has to be new to its object. -/
def key (depth : Nat) (cs : List Context) (keys : List Bytes) (t : Token) : Verdict :=
  match t.key? with
  | none => refuse t (.expectedKey t.kind)
  | some k =>
    .take { depth, goal := .colon (k :: keys), contexts := cs }
      (if k ∈ keys then .error ⟨t.position, .duplicateKey k⟩
       else .ok (some (.beginMember k t)))

/-- The move on a token other than the end of input, where `previous` is the position of the token
    read last. -/
def move (d : Dialect) (c : Control) (previous : Position) (t : Token) : Move :=
  match c.goal with
  | .value => { verdict := value d c.depth c.contexts t }
  | .member keys comma =>
    if t.kind ≠ .rightBrace then { verdict := key c.depth c.contexts keys t }
    else if comma ∧ !d.trailingCommas then { verdict := .refuse ⟨previous, .trailingComma⟩ }
    else { verdict := closing c.depth c.contexts (.endObject t) }
  | .colon keys =>
    if t.kind = .colon then
      { verdict := .take { c with goal := .value, contexts := .object keys :: c.contexts }
          (.ok none) }
    else { verdict := refuse t (.expectedColon t.kind) }
  | .memberEnd keys =>
    { before := some (.endMember t)
      verdict :=
        match t.kind with
        | .comma      => .take { c with goal := .member keys true } (.ok none)
        | .rightBrace => closing c.depth c.contexts (.endObject t)
        | _           => refuse t .expectedCommaInObject }
  | .element comma =>
    if t.kind ≠ .rightBracket then { verdict := value d c.depth (.array :: c.contexts) t }
    else if comma ∧ !d.trailingCommas then { verdict := .refuse ⟨previous, .trailingComma⟩ }
    else { verdict := closing c.depth c.contexts (.endArray t) }
  | .elementEnd =>
    { verdict :=
        match t.kind with
        | .comma        => .take { c with goal := .element true } (.ok none)
        | .rightBracket => closing c.depth c.contexts (.endArray t)
        | _             => refuse t .expectedCommaInArray }
  | .complete => { verdict := refuse t (.unexpectedAfterValue t.kind) }

/-- What is reported at the end of input `t`, while a value is unfinished, and why it is a fault. -/
def halt (c : Control) (t : Token) : Option Event × SyntaxReason :=
  match c.goal with
  | .value       => (none, .expectedValue t.kind)
  | .member _ _  => (none, .expectedObjectEnd t.kind)
  | .colon _     => (none, .expectedColon t.kind)
  | .memberEnd _ => (some (.endMember t), .expectedObjectEnd t.kind)
  | .element _   => (none, .expectedArrayEnd t.kind)
  | .elementEnd  => (none, .expectedArrayEnd t.kind)
  | .complete    => (none, .unexpectedAfterValue t.kind)

end Control

end RelaxedJson
