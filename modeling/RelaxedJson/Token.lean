-- SUMMARY: Tokens: the lexical units of a JSON text.
import RelaxedJson.Number.Binary64
import RelaxedJson.Position

/-!
# Tokens

A token is a piece of text with its kind, its place and, for strings and numbers, the value it
denotes. Kinds have one-byte codes; tokens may be made by hand, so every code has a kind.
-/

namespace RelaxedJson

/-- The kind of a token. -/
inductive Kind where
  | invalid
  | leftBrace
  | rightBrace
  | colon
  | comma
  | leftBracket
  | rightBracket
  | string
  | number
  | identifier
  | null
  | true
  | false
  | endOfInput
  /-- A code above those of the named kinds. -/
  | unassigned (offset : Fin 242)
  deriving DecidableEq, Repr

namespace Kind

/-- The named kinds in the order of their codes. -/
def named : List Kind :=
  [.invalid, .leftBrace, .rightBrace, .colon, .comma, .leftBracket, .rightBracket, .string, .number,
   .identifier, .null, .true, .false, .endOfInput]

/-- The code of a kind. -/
def code : Kind → Nat
  | .invalid      => 0
  | .leftBrace    => 1
  | .rightBrace   => 2
  | .colon        => 3
  | .comma        => 4
  | .leftBracket  => 5
  | .rightBracket => 6
  | .string       => 7
  | .number       => 8
  | .identifier   => 9
  | .null         => 10
  | .true         => 11
  | .false        => 12
  | .endOfInput   => 13
  | .unassigned i => 14 + i

/-- The kind of a code. -/
def ofCode (b : UInt8) : Kind :=
  if h : 14 ≤ b.toNat then
    .unassigned ⟨b.toNat - 14, by have := b.toNat_lt; omega⟩
  else (named[b.toNat]?).getD .invalid

/-- How messages name a kind. -/
def name : Kind → String
  | .leftBrace    => "\"\x7b\""
  | .rightBrace   => "\"\x7d\""
  | .colon        => "\":\""
  | .comma        => "\",\""
  | .leftBracket  => "\"[\""
  | .rightBracket => "\"]\""
  | .string       => "string"
  | .number       => "number"
  | .identifier   => "identifier"
  | .null         => "null"
  | .true         => "true"
  | .false        => "false"
  | .endOfInput   => "end of input"
  | .invalid      => "invalid token"
  | .unassigned _ => "invalid token"

/-- The name of a kind in bytes. -/
def text (k : Kind) : Bytes :=
  k.name.utf8

end Kind

/-- The value that a string or number token denotes. -/
inductive Literal where
  | string (text : Bytes)
  | number (value : Binary64)
  deriving DecidableEq, Repr

/-- A lexical unit. -/
structure Token where
  kind : Kind
  /-- The exact text of the token, with its quotation marks. -/
  lexeme : Bytes := []
  location : Location := .origin
  literal : Option Literal := none
  deriving DecidableEq, Repr

namespace Token

/-- The position of the token's first byte. -/
def position (t : Token) : Position :=
  t.location.position

/-- A token of nothing at no place. -/
def blank : Token :=
  { kind := .invalid, location := ⟨⟨0, 0⟩, ⟨0, 0⟩⟩ }

/-- How messages show a token: its kind and, where it has one, its text. -/
def text (t : Token) : Bytes :=
  if t.kind = .endOfInput ∨ t.lexeme = [] then t.kind.text
  else t.kind.text ++ ' '.ascii :: t.lexeme

/-- Whether the token carries a literal of its own kind. -/
def hasLiteral (t : Token) : Bool :=
  match t.kind, t.literal with
  | .string, some (.string _) => Bool.true
  | .number, some (.number _) => Bool.true
  | _, _                      => Bool.false

end Token

end RelaxedJson
