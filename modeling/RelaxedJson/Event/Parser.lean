-- SUMMARY: Parsing: running the value grammar over tokens and reporting to a handler.
import RelaxedJson.Event.Control

/-!
# Parsing

A parser is a place in a token sequence together with the number of brackets that are open there. It
reads one value at a time and reports it to a handler. When it fails, it stays where it failed, and
a later attempt goes on from there. The end of input is never read: a parser cannot move past it.
-/

namespace RelaxedJson

/-- A place in a token sequence. -/
structure Parser where
  /-- The tokens read so far, latest first. -/
  consumed : List Token := []
  rest : List Token
  /-- The number of open brackets. -/
  depth : Nat := 0
  deriving DecidableEq, Repr

/-- Why a value could not be read. -/
inductive ParseFailure (ε : Type) where
  | malformed (e : SyntaxError)
  /-- The handler refused an event. -/
  | refused (e : ε)
  /-- There is no further value. -/
  | exhausted
  deriving DecidableEq, Repr

/-- What an attempt to read a value leaves behind. -/
structure Outcome (σ ε : Type) where
  parser : Parser
  state : σ
  result : Except (ParseFailure ε) Unit

namespace Parser

/-- A parser in front of all tokens. -/
def ofTokens (ts : List Token) : Parser :=
  { rest := ts }

/-- The end of input behind a sequence without one: it lies where the last token does. -/
def endBehind (consumed : List Token) : Token :=
  match consumed with
  | []     => { kind := .endOfInput }
  | t :: _ => { kind := .endOfInput, location := t.location }

/-- The token that comes next. -/
def peek (p : Parser) : Token :=
  match p.rest with
  | []     => endBehind p.consumed
  | t :: _ => t

/-- The position of the token read last. -/
def previous (consumed : List Token) : Position :=
  match consumed with
  | []     => .origin
  | t :: _ => t.position

variable {σ ε : Type}

/-- Gives up an unfinished value in front of the end of input `t`. -/
def halt (h : Handler σ ε) (c : Control) (consumed rest : List Token) (t : Token) (s : σ) :
    Outcome σ ε :=
  let parser : Parser := { consumed, rest, depth := c.depth }
  match h.deliver (c.halt t).1 s with
  | (state, some e) => { parser, state, result := .error (.refused e) }
  | (state, none)   => { parser, state, result := .error (.malformed ⟨t.position, (c.halt t).2⟩) }

/-- Reads a value from the point where the automaton has control `c`. -/
def run (d : Dialect) (h : Handler σ ε) (c : Control) (consumed : List Token) (s : σ) :
    List Token → Outcome σ ε
  | [] => halt h c consumed [] (endBehind consumed) s
  | t :: rest =>
    if t.kind = .endOfInput then halt h c consumed (t :: rest) t s
    else
      let unread : Parser := { consumed, rest := t :: rest, depth := c.depth }
      match h.deliver (c.move d (previous consumed) t).before s with
      | (state, some e) => { parser := unread, state, result := .error (.refused e) }
      | (state, none) =>
        match (c.move d (previous consumed) t).verdict with
        | .refuse e => { parser := unread, state, result := .error (.malformed e) }
        | .take next report =>
          let read : Parser := { consumed := t :: consumed, rest, depth := next.depth }
          match report with
          | .error e => { parser := read, state, result := .error (.malformed e) }
          | .ok event =>
            match h.deliver event state with
            | (state, some e) => { parser := read, state, result := .error (.refused e) }
            | (state, none) =>
              if next.goal = .complete then { parser := read, state, result := .ok () }
              else run d h next (t :: consumed) state rest

/-- Reads one value. -/
def value (d : Dialect) (h : Handler σ ε) (p : Parser) (s : σ) : Outcome σ ε :=
  run d h { depth := p.depth } p.consumed s p.rest

/-- Reads one value that has to be followed by the end of input. -/
def parse (d : Dialect) (h : Handler σ ε) (p : Parser) (s : σ) : Outcome σ ε :=
  let o := p.value d h s
  match o.result with
  | .error _ => o
  | .ok () =>
    let t := o.parser.peek
    if t.kind = .endOfInput then { o with state := (h (.endOfInput t) o.state).1 }
    else { o with result := .error (.malformed ⟨t.position, .unexpectedAfterValue t.kind⟩) }

/-- Reads the next value, unless there is none. -/
def parseOne (d : Dialect) (h : Handler σ ε) (p : Parser) (s : σ) : Outcome σ ε :=
  if p.peek.kind = .endOfInput then
    { parser := p, state := (h (.endOfInput p.peek) s).1, result := .error .exhausted }
  else p.value d h s

end Parser

end RelaxedJson
