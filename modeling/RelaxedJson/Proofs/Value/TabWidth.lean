-- SUMMARY: The tab width matters to columns, and to nothing else.
import RelaxedJson.Proofs.Lexical.Positions
import RelaxedJson.Proofs.Value.Relocation

/-!
# Tab width

The scanner uses the tab width only to count columns, and never looks at a column. So under two tab
widths it goes through a text in lockstep, and what it finds is the same up to columns
(`Token.scanFrom_tabWidth`). To take the columns away is a relocation, so what is read from the
tokens is the same too, up to the columns of faults (`Value.parse_tabWidth`).
-/

namespace RelaxedJson

/-! ## Without columns -/

/-- A position of which only the line counts. -/
def Position.uncolumned (p : Position) : Position :=
  { p with column := 1 }

/-- Takes the columns away. Spans and lines stay. -/
def Relocation.uncolumned : Relocation where
  location l := { l with position := l.position.uncolumned }
  position := Position.uncolumned
  position_location _ := rfl
  location_origin := rfl

/-- A place of which only the offset and the line count. -/
def Place.uncolumned (p : Place) : Place :=
  { p with position := p.position.uncolumned }

/-! ## Pieces -/

section

variable (d : Dialect) (w : Int)

theorem Lexeme.string_tabWidth (mark : QuoteMark) (body rs : List Rune) :
    string { d with tabWidth := w } mark body rs = string d mark body rs := by
  fun_induction string d mark body rs with
  | case1 body => rfl
  | case2 body b rs ih => rw [string, ih]
  | case3 body rs => exact string_close body rs
  | case4 body _ => exact string_backslash body
  | case5 body r rs reason hfault _ =>
    exact string_badEscape (d := { d with tabWidth := w }) hfault body
  | case6 body r rs hfault _ ih =>
    exact (string_escape (d := { d with tabWidth := w }) hfault body).trans ih
  | case7 body c rs _ _ hcontrol => exact string_control (lt_space_iff.mp hcontrol) body rs
  | case8 body c rs hmark hbackslash hcontrol ih =>
    rw [string.eq_def]
    simp only [if_neg hmark, if_neg hbackslash, if_neg hcontrol, ih]

theorem Piece.read_tabWidth (r : Rune) (rs : List Rune) :
    read { d with tabWidth := w } r rs = read d r rs := by
  have hname : Lexeme.name { d with tabWidth := w } = Lexeme.name d := rfl
  simp only [read, Lexeme.string_tabWidth, hname]

end

/-! ## Places -/

section

variable {d d' : Dialect} {p p' : Place}

theorem Place.uncolumned_eq_iff : p'.uncolumned = p.uncolumned ↔
    p'.offset = p.offset ∧ p'.position.uncolumned = p.position.uncolumned := by
  simp only [uncolumned, Place.mk.injEq]

theorem Place.advance_uncolumned (hp : p'.uncolumned = p.uncolumned) (rs : List Rune) :
    (p'.advance d' rs).uncolumned = (p.advance d rs).uncolumned := by
  obtain ⟨offset, line, column⟩ := p
  obtain ⟨offset', line', column'⟩ := p'
  cases hp
  simp only [advance, uncolumned, Position.uncolumned, Position.advanceAll_line]

theorem LexicalFault.toError_uncolumned (hp : p'.uncolumned = p.uncolumned) (fault : LexicalFault) :
    (fault.toError d' p').relocated .uncolumned = (fault.toError d p).relocated .uncolumned := by
  have hposition : (p'.advance d' fault.before).position.uncolumned =
      (p.advance d fault.before).position.uncolumned :=
    (Place.uncolumned_eq_iff.mp (Place.advance_uncolumned hp fault.before)).2
  exact congrArg (SyntaxError.mk · fault.reason) hposition

theorem Lexeme.toToken_uncolumned (hp : p'.uncolumned = p.uncolumned) (l : Lexeme) :
    (l.toToken d' p').relocated .uncolumned = (l.toToken d p).relocated .uncolumned := by
  have hstop : (p'.advance d' l.runes).offset = (p.advance d l.runes).offset :=
    (Place.uncolumned_eq_iff.mp (Place.advance_uncolumned hp l.runes)).1
  obtain ⟨hstart, hposition⟩ := Place.uncolumned_eq_iff.mp hp
  simp only [toToken, Place.locate, Token.relocated, Relocation.uncolumned, hstop, hstart,
    hposition]

theorem Token.atEnd_uncolumned (hp : p'.uncolumned = p.uncolumned) :
    (atEnd p').relocated .uncolumned = (atEnd p).relocated .uncolumned := by
  obtain ⟨hoffset, hposition⟩ := Place.uncolumned_eq_iff.mp hp
  simp only [atEnd, relocated, Relocation.uncolumned, hoffset, hposition]

end

/-! ## Scanning -/

/-- A scan goes through a text in the same way under any tab width. -/
theorem Token.scanFrom_tabWidth {d : Dialect} (w : Int) {p p' : Place} {found found' : List Token}
    (hp : p'.uncolumned = p.uncolumned)
    (hfound : found'.map (relocated .uncolumned) = found.map (relocated .uncolumned))
    (rs : List Rune) :
    AgreeUpTo .uncolumned (scanFrom d p found rs)
      (scanFrom { d with tabWidth := w } p' found' rs) := by
  fun_induction scanFrom d p found rs generalizing p' found' with
  | case1 p found =>
    rw [scanFrom]
    refine .ok ?_
    rw [List.map_reverse, List.map_reverse, List.map_cons, List.map_cons, hfound,
      atEnd_uncolumned hp]
  | case2 p found r rs fault hread =>
    rw [scanFrom, Piece.read_tabWidth, hread]
    exact .error (fault.toError_uncolumned hp)
  | case3 p found r rs taken hread ih =>
    rw [scanFrom, Piece.read_tabWidth, hread]
    exact ih (Place.advance_uncolumned hp taken) hfound
  | case4 p found r rs l hread ih =>
    rw [scanFrom, Piece.read_tabWidth, hread]
    refine ih (Place.advance_uncolumned hp l.runes) ?_
    rw [List.map_cons, List.map_cons, hfound, l.toToken_uncolumned hp]

theorem Token.scan_tabWidth (d : Dialect) (w : Int) (text : Bytes) :
    AgreeUpTo .uncolumned (scan d text) (scan { d with tabWidth := w } text) :=
  scanFrom_tabWidth w rfl rfl (Rune.decode text)

/-! ## Texts -/

namespace Value

/-- The tab width influences columns only: under any other tab width, a text has the same tokens or
    the same fault, and all that is read from it is the same, up to columns. -/
theorem parse_tabWidth (d : Dialect) (w : Int) (text : Bytes) :
    let d' := { d with tabWidth := w }
    Token.AgreeUpTo .uncolumned (Token.scan d text) (Token.scan d' text) ∧
    (parse d' text).mapError (ReadFailure.relocated .uncolumned) =
      (parse d text).mapError (ReadFailure.relocated .uncolumned) ∧
    (parseAll d' text).1 = (parseAll d text).1 ∧
    (parseAll d' text).2.map (ReadFailure.relocated .uncolumned) =
      (parseAll d text).2.map (ReadFailure.relocated .uncolumned) ∧
    valid d' text = valid d text := by
  intro d'
  have hscan : Token.AgreeUpTo .uncolumned (Token.scan d text) (Token.scan d' text) :=
    Token.scan_tabWidth d w text
  have hmove : Control.move d' = Control.move d := rfl
  have hparse := parse_of_agree hmove hscan
  have hall := parseAll_of_agree hmove hscan
  exact ⟨hscan, hparse, hall.1, hall.2, valid_of_mapError_parse hparse⟩

-- The column of a fault behind a tab does depend on the tab width.
example :
    parse { tabWidth := 2 } "\t,".utf8 = .error (.malformed ⟨⟨1, 3⟩, .expectedValue .comma⟩) ∧
    parse { tabWidth := 8 } "\t,".utf8 = .error (.malformed ⟨⟨1, 9⟩, .expectedValue .comma⟩) := by
  constructor <;> cbv

end Value

end RelaxedJson
