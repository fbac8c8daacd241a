-- SUMMARY: The listing of tokens as an aligned table.
import RelaxedJson.Text.TabStops
import RelaxedJson.Token

/-!
# Token tables

A token is listed as a line of three cells: its position, its kind and its text. The cells are
divided by tabs and laid out with elastic tab stops.
-/

namespace RelaxedJson.Command

/-- A row of a token table. -/
structure TokenRow where
  position : Bytes
  kind : Bytes
  lexeme : Bytes
  deriving DecidableEq, Repr

namespace TokenRow

/-- The row of a token. -/
def ofToken (t : Token) : TokenRow :=
  ⟨t.position.text, t.kind.text, t.lexeme⟩

/-- The row as a line, its cells divided by tabs. -/
def text (r : TokenRow) : Bytes :=
  r.position ++ '\t'.ascii :: (r.kind ++ '\t'.ascii :: (r.lexeme ++ ['\n'.ascii]))

end TokenRow

/-- The columns of a token table: four places or more, with a space between. -/
def tokenStops : TabStops := ⟨4, 1⟩

/-- The table of tokens. -/
def tokenTable (ts : List Token) : Bytes :=
  tokenStops.layOut (ts.flatMap fun t => (TokenRow.ofToken t).text)

end RelaxedJson.Command
