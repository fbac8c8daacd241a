-- SUMMARY: Scanning one token at a time.
import RelaxedJson.Token.Scan

/-!
# Step-by-step scanning

A scanner holds a text that is being read token by token. Once it has delivered the end of input or
met an error, it stays where it is.
-/

namespace RelaxedJson

/-- How a scanner stands. -/
inductive ScannerState where
  | reading
  | finished
  | failed (e : SyntaxError)
  deriving DecidableEq, Repr

/-- A text that is being read token by token. -/
structure Scanner where
  dialect : Dialect
  rest : List Rune
  place : Place := .start
  /-- The token read last. -/
  token : Token := .blank
  state : ScannerState := .reading

/-- The next token, the place behind it and the text behind it. -/
def Token.next (d : Dialect) (p : Place) : List Rune → Except SyntaxError (Token × Place × List Rune)
  | [] => .ok (Token.atEnd p, p, [])
  | r :: rs =>
    match Piece.read d r rs with
    | .error fault     => .error (fault.toError d p)
    | .ok (.gap taken) => Token.next d (p.advance d taken) (rs.drop (taken.length - 1))
    | .ok (.lexeme l)  =>
      .ok (l.toToken d p, p.advance d l.runes, rs.drop (l.runes.length - 1))
termination_by rs => rs.length
decreasing_by simp only [List.length_drop, List.length_cons]; omega

namespace Scanner

/-- A scanner at the start of a text. -/
def ofText (d : Dialect) (text : Bytes) : Scanner :=
  { dialect := d, rest := Rune.decode text }

/-- Reads one more token, and says whether there was one. -/
def next (s : Scanner) : Bool × Scanner :=
  match s.state with
  | .finished => (false, s)
  | .failed _ => (false, s)
  | .reading  =>
    match Token.next s.dialect s.place s.rest with
    | .error e => (false, { s with state := .failed e })
    | .ok (token, place, rest) =>
      let state := if token.kind = .endOfInput then .finished else .reading
      (true, { s with token, place, rest, state })

/-- The error that stopped the scanner. -/
def error? (s : Scanner) : Option SyntaxError :=
  match s.state with
  | .failed e => some e
  | _         => none

end Scanner

end RelaxedJson
