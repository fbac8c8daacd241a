-- SUMMARY: Dividing a whole text into located tokens.
import RelaxedJson.Lexeme

/-!
# Scanning

`Token.scan` divides a text into its tokens and gives each its place. The last token of a successful
scan is the end of input. Positions and offsets come from one fold over the runes read so far.
-/

namespace RelaxedJson

/-- How far a text has been read. -/
structure Place where
  offset : Nat
  position : Position
  deriving DecidableEq, Repr

namespace Place

/-- The start of a text. -/
def start : Place := ⟨0, .origin⟩

/-- The place behind further runes. -/
def advance (d : Dialect) (p : Place) (rs : List Rune) : Place :=
  ⟨rs.foldl (fun n r => n + r.width) p.offset, p.position.advanceAll d.columnsPerTab rs⟩

/-- The location of the runes that start here. -/
def locate (d : Dialect) (p : Place) (rs : List Rune) : Location :=
  ⟨⟨p.offset, (p.advance d rs).offset⟩, p.position⟩

end Place

/-- The syntax error that a fault is, in a piece that starts at `p`. -/
def LexicalFault.toError (d : Dialect) (p : Place) (f : LexicalFault) : SyntaxError :=
  ⟨(p.advance d f.before).position, f.reason⟩

/-- The token that a lexeme is, if it starts at `p`. -/
def Lexeme.toToken (d : Dialect) (p : Place) (l : Lexeme) : Token :=
  { kind := l.kind, lexeme := Rune.encode l.runes, location := p.locate d l.runes,
    literal := l.literal }

namespace Token

/-- The end of input at a place. -/
def atEnd (p : Place) : Token :=
  { kind := .endOfInput, location := ⟨⟨p.offset, p.offset⟩, p.position⟩ }

/-- Scans a text on from place `p`, behind the tokens `found`, which are latest first. -/
def scanFrom (d : Dialect) (p : Place) (found : List Token) :
    List Rune → Except SyntaxError (List Token)
  | [] => .ok (atEnd p :: found).reverse
  | r :: rs =>
    match Piece.read d r rs with
    | .error fault => .error (fault.toError d p)
    | .ok (.gap taken) =>
      scanFrom d (p.advance d taken) found (rs.drop (taken.length - 1))
    | .ok (.lexeme l) =>
      scanFrom d (p.advance d l.runes) (l.toToken d p :: found) (rs.drop (l.runes.length - 1))
termination_by rs => rs.length
decreasing_by all_goals simp only [List.length_drop, List.length_cons]; omega

/-- The tokens of a text in order, the end of input included. -/
def scan (d : Dialect) (text : Bytes) : Except SyntaxError (List Token) :=
  scanFrom d .start [] (Rune.decode text)

end Token

end RelaxedJson
