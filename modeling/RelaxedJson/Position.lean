-- SUMMARY: Places in a text: lines and columns, byte spans.
import RelaxedJson.Text.Rune

/-!
# Positions

A position is a line and a column, both counted from one. Columns count runes, except that a tab
takes as many columns as the dialect says. Columns are words of 64 bits and wrap around; lines are
unbounded.
-/

namespace RelaxedJson

/-- A line and a column. -/
structure Position where
  line : Int
  column : Int64
  deriving DecidableEq, Repr

/-- The bytes from offset `start` up to but not including offset `stop`. -/
structure Span where
  start : Int
  stop : Int
  deriving DecidableEq, Repr

/-- A span together with the position of its first byte. -/
structure Location where
  span : Span
  position : Position
  deriving DecidableEq, Repr

namespace Position

/-- The position at the start of every text. -/
def origin : Position := ⟨1, 1⟩

/-- The position behind a rune. -/
def advance (tab : Int64) (p : Position) : Rune → Position
  | .valid '\n' => ⟨p.line + 1, 1⟩
  | .valid '\t' => ⟨p.line, p.column + tab⟩
  | _           => ⟨p.line, p.column + 1⟩

/-- The position behind a list of runes. -/
def advanceAll (tab : Int64) (p : Position) (rs : List Rune) : Position :=
  rs.foldl (advance tab) p

/-- The text of a position, as in `3:14`. -/
def text (p : Position) : Bytes :=
  Bytes.ofInt p.line ++ ':'.ascii :: Bytes.ofInt p.column.toInt

@[simp] theorem advanceAll_nil (tab : Int64) (p : Position) : p.advanceAll tab [] = p := rfl

theorem advanceAll_append (tab : Int64) (p : Position) (rs ss : List Rune) :
    p.advanceAll tab (rs ++ ss) = (p.advanceAll tab rs).advanceAll tab ss := by
  simp [advanceAll]

end Position

/-- The empty span at the start of a text. -/
def Location.origin : Location := ⟨⟨0, 0⟩, .origin⟩

end RelaxedJson
