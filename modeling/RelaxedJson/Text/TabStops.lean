-- SUMMARY: Elastic tab stops: laying out lines that are divided into cells.
import RelaxedJson.Text.Rune

/-!
# Elastic tab stops

A text is divided into lines, and a line into cells. A tab ends a cell, and so does a vertical tab; a
line feed ends the cell and the line, and a form feed also ends all columns. Cells of neighbouring
lines that are followed by another cell form a column: they are filled up with spaces to one width.
The last cell of a line belongs to no column and is left as it is.

The byte 0xFF starts and ends escaped text, in which none of these bytes means anything. It is
written as it stands, and takes no room in a column.
-/

namespace RelaxedJson

/-- How wide columns are. -/
structure TabStops where
  /-- The least width of a column. -/
  least : Nat
  /-- The least number of spaces behind a cell. -/
  padding : Nat
  deriving DecidableEq, Repr

namespace TabStops

/-! ## Cells and lines -/

/-- The byte that starts and ends escaped text. -/
def escapeMark : UInt8 := 0xFF

/-- Whether a byte ends a cell and nothing else. -/
def endsCell (b : UInt8) : Bool :=
  b = '\t'.ascii || b = '\x0b'.ascii

/-- Whether a byte ends a line. -/
def endsLine (b : UInt8) : Bool :=
  b = '\n'.ascii || b = '\x0c'.ascii

/-- A line: its cells, and what is written behind them. -/
structure Line where
  cells : List Bytes
  ending : Bytes
  deriving DecidableEq, Repr

/-- The lines of a text in blocks that a form feed ends. What has been read of the cell, of the line
    and of the block is latest first. The end of the text ends a line, too, but no empty cell. -/
def blocks (escaped : Bool) (cell : Bytes) (cells : List Bytes) (lines : List Line) :
    Bytes → List (List Line)
  | [] =>
    let cells := if cell = [] then cells else cell.reverse :: cells
    [(⟨cells.reverse, []⟩ :: lines).reverse]
  | b :: bs =>
    if b = escapeMark then blocks (!escaped) (b :: cell) cells lines bs
    else if escaped then blocks escaped (b :: cell) cells lines bs
    else if endsCell b then blocks false [] (cell.reverse :: cells) lines bs
    else if endsLine b then
      let lines := ⟨(cell.reverse :: cells).reverse, ['\n'.ascii]⟩ :: lines
      if b = '\n'.ascii then blocks false [] [] lines bs
      else lines.reverse :: blocks false [] [] [] bs
    else blocks false (b :: cell) cells lines bs

/-! ## Columns -/

/-- The room that a cell takes: its runes, without the marks of escaped text. -/
def cellWidth (cell : Bytes) : Nat :=
  (Rune.decode cell).countP (· ≠ .invalid escapeMark)

/-- The width of a column of cells. -/
def columnWidth (stops : TabStops) (cells : List Bytes) : Nat :=
  cells.foldl (fun w cell => max w (cellWidth cell + stops.padding)) stops.least

/-- A cell filled up with spaces. -/
def fill (width : Nat) (cell : Bytes) : Bytes :=
  cell ++ Bytes.spaces (width - cellWidth cell)

/-- A line that is being laid out: what is written of it, and what is still to be written. -/
structure Row where
  written : Bytes
  line : Line
  deriving DecidableEq, Repr

namespace Row

/-- A line of which nothing is written. -/
def ofLine (l : Line) : Row := ⟨[], l⟩

/-- Whether the next cell belongs to a column. -/
def hasColumn (r : Row) : Bool :=
  1 < r.line.cells.length

/-- The next cell. -/
def next (r : Row) : Bytes :=
  r.line.cells.headD []

/-- The row behind its next cell, which is filled up. -/
def fillNext (width : Nat) (r : Row) : Row :=
  ⟨r.written ++ fill width r.next, { r.line with cells := r.line.cells.tail }⟩

/-- The text of a row without columns ahead. -/
def text (r : Row) : Bytes :=
  r.written ++ r.line.cells.flatten ++ r.line.ending

/-- The cells that are still to be written, the rows themselves counted in. -/
def ahead : List Row → Nat
  | []      => 0
  | r :: rs => r.line.cells.length + 1 + ahead rs

theorem ahead_append (rs ss : List Row) : ahead (rs ++ ss) = ahead rs + ahead ss := by
  induction rs with
  | nil => exact (Nat.zero_add _).symm
  | cons r rs ih =>
    rw [List.cons_append, ahead, ahead, ih]
    omega

theorem ahead_fillNext_le (width : Nat) (rs : List Row) :
    ahead (rs.map (fillNext width)) ≤ ahead rs := by
  induction rs with
  | nil => exact Nat.le_refl _
  | cons r rs ih =>
    simp only [List.map_cons, ahead, fillNext, List.length_tail]
    omega

/-- Filling a column leaves fewer cells. -/
theorem ahead_fillNext_lt (width : Nat) {r : Row} (hr : r.hasColumn) (rs : List Row) :
    ahead ((r :: rs).map (fillNext width)) < ahead (r :: rs) := by
  have hle := ahead_fillNext_le width rs
  simp only [hasColumn, decide_eq_true_eq] at hr
  simp only [List.map_cons, ahead, fillNext, List.length_tail]
  omega

end Row

/-- Lays out the lines of a block. The next cells of neighbouring rows that have a column ahead are
    filled up to one width, and then these rows are laid out further. -/
def layOutRows (stops : TabStops) : List Row → Bytes
  | [] => []
  | r :: rs =>
    if r.hasColumn then
      let column := r :: rs.takeWhile Row.hasColumn
      layOutRows stops (column.map (Row.fillNext (stops.columnWidth (column.map Row.next)))) ++
        layOutRows stops (rs.dropWhile Row.hasColumn)
    else r.text ++ layOutRows stops rs
termination_by rs => Row.ahead rs
decreasing_by
  all_goals
    have hsplit := congrArg Row.ahead (List.takeWhile_append_dropWhile (p := Row.hasColumn) (l := rs))
    rw [Row.ahead_append] at hsplit
  · have hlt := Row.ahead_fillNext_lt (stops.columnWidth (column.map Row.next)) ‹_›
      (rs.takeWhile Row.hasColumn)
    rw [Row.ahead] at hlt ⊢
    exact Nat.lt_of_lt_of_le hlt (by omega)
  · rw [Row.ahead]
    omega
  · rw [Row.ahead]
    omega

/-- Lays out a text. -/
def layOut (stops : TabStops) (text : Bytes) : Bytes :=
  (blocks false [] [] [] text).flatMap fun lines => stops.layOutRows (lines.map .ofLine)

end TabStops

end RelaxedJson
