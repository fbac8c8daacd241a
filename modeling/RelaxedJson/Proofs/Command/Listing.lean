-- SUMMARY: A token table has a line for each token; which lines are aligned depends on the bytes 0xFF in the tokens.
import RelaxedJson.Command.TokenTable
import RelaxedJson.Proofs.Lexical.Scanning
import RelaxedJson.Proofs.Text.TabStops

/-!
# Token tables

The tokens of a text hold no byte that ends a cell or a line, but a string may hold the byte 0xFF,
which starts or ends escaped text. A row behind an odd number of these bytes is escaped text in the
last cell of an earlier row: it is written with its tabs, and takes no part in the columns. So the
table has a line for each token (`tokenTable_lines`), and all lines are aligned exactly if each token
holds an even number of bytes 0xFF.
-/

namespace RelaxedJson.Command

namespace TokenRow

/-! ## Lines -/

/-- The width of a column: one more than its longest cell, but at least four. -/
def columnWidth (cells : List Bytes) : Nat :=
  (cells.map fun cell => cell.length + 1).foldl max 4

/-- A cell filled up with spaces. -/
def pad (width : Nat) (cell : Bytes) : Bytes :=
  cell ++ Bytes.spaces (width - cell.length)

/-- The line of a row in columns of the given widths. -/
def aligned (positionWidth kindWidth : Nat) (r : TokenRow) : Bytes :=
  pad positionWidth r.position ++ (pad kindWidth r.kind ++ r.lexeme)

/-- The line of a row that is escaped text. -/
def escaped (r : TokenRow) : Bytes :=
  r.position ++ '\t'.ascii :: (r.kind ++ '\t'.ascii :: r.lexeme)

/-- Whether a row turns escaping on or off. -/
def toggles (r : TokenRow) : Bool :=
  TabStops.toggles r.lexeme

/-- The rows that are no escaped text. -/
def settled (inEscape : Bool) : List TokenRow → List TokenRow
  | [] => []
  | r :: rs =>
    if inEscape then settled (inEscape ^^ r.toggles) rs
    else r :: settled (inEscape ^^ r.toggles) rs

/-- The lines of rows: the settled ones are aligned. -/
def lines (positionWidth kindWidth : Nat) (inEscape : Bool) : List TokenRow → List Bytes
  | [] => []
  | r :: rs =>
    (if inEscape then r.escaped else r.aligned positionWidth kindWidth) ::
      lines positionWidth kindWidth (inEscape ^^ r.toggles) rs

/-- The lines of a table, in which only the settled rows count for the columns. -/
def tableLines (rs : List TokenRow) : List Bytes :=
  lines (columnWidth ((settled false rs).map position)) (columnWidth ((settled false rs).map kind))
    false rs

/-- The lines of a table in which all rows are aligned. -/
def alignedLines (rs : List TokenRow) : List Bytes :=
  rs.map (aligned (columnWidth (rs.map position)) (columnWidth (rs.map kind)))

/-- Cells without control bytes; the first two are ASCII. -/
structure Clean (r : TokenRow) : Prop where
  position : ∀ b ∈ r.position, 0x20 ≤ b.toNat ∧ b.toNat < 128
  kind : ∀ b ∈ r.kind, 0x20 ≤ b.toNat ∧ b.toNat < 128
  lexeme : ∀ b ∈ r.lexeme, 0x20 ≤ b.toNat

/-! ## Reading rows -/

theorem text_eq (r : TokenRow) : r.text = r.escaped ++ ['\n'.ascii] := by
  simp [text, escaped]

/-- The row with another row as escaped text in its last cell. -/
def join (p r : TokenRow) : TokenRow :=
  { p with lexeme := p.lexeme ++ r.escaped }

/-- The row with a line feed as escaped text in its last cell. -/
def fed (p : TokenRow) : TokenRow :=
  { p with lexeme := p.lexeme ++ ['\n'.ascii] }

/-- The row as a line of three cells. -/
def toLine (r : TokenRow) (ending : Bytes) : TabStops.Line :=
  ⟨[r.position, r.kind, r.lexeme], ending⟩

/-- The lines of three cells that rows amount to, behind a row in which escaped text is open: a row
    that is escaped text is part of the line before it. -/
def joined : (opened : Option TokenRow) → List TokenRow → List (TokenRow × Bytes)
  | none, [] => []
  | some p, [] => [(p, [])]
  | opened, r :: rs =>
    let line := opened.elim r (·.join r)
    if opened.isSome ^^ r.toggles then joined (some line.fed) rs
    else (line, ['\n'.ascii]) :: joined none rs

section

variable {cells : List Bytes} {ls : List TabStops.Line}

theorem ends_of_printable {b : UInt8} (hb : 0x20 ≤ b.toNat) :
    TabStops.endsCell b = false ∧ TabStops.endsLine b = false := by
  have hne : ∀ c : Char, c.toNat < 0x20 → b ≠ c.ascii := by
    rintro c hc rfl
    rw [ascii_toNat (by omega)] at hb
    omega
  simp [TabStops.endsCell, TabStops.endsLine, hne]

theorem not_mem_of_ascii {bs : Bytes} (hbs : ∀ b ∈ bs, 0x20 ≤ b.toNat ∧ b.toNat < 128) :
    TabStops.escapeMark ∉ bs := by
  intro hmem
  exact absurd (hbs _ hmem).2 (by decide)

/-- A cell of ASCII text, up to the tab behind it. -/
theorem blocks_cell {bs : Bytes} (hbs : ∀ b ∈ bs, 0x20 ≤ b.toNat ∧ b.toNat < 128) (rest : Bytes) :
    TabStops.blocks false [] cells ls (bs ++ '\t'.ascii :: rest) =
      TabStops.blocks false [] (bs :: cells) ls rest := by
  have htoggles : TabStops.toggles bs = false := by
    simp [TabStops.toggles, List.count_eq_zero.mpr (not_mem_of_ascii hbs)]
  rw [TabStops.blocks_text_append fun b hb => ends_of_printable (hbs b hb).1, htoggles,
    Bool.xor_false, TabStops.blocks_tab]
  simp

/-- What is open of a line: a row in which escaped text is open, or nothing. -/
def blocksFrom (opened : Option TokenRow) (ls : List TabStops.Line) : Bytes → List (List TabStops.Line) :=
  TabStops.blocks opened.isSome (opened.elim [] (·.lexeme.reverse))
    (opened.elim [] fun p => [p.kind, p.position]) ls

theorem blocksFrom_row {r : TokenRow} (hr : r.Clean) (opened : Option TokenRow) (rest : Bytes) :
    blocksFrom opened ls (r.escaped ++ rest) =
      TabStops.blocks (opened.isSome ^^ r.toggles) (opened.elim r (·.join r)).lexeme.reverse
        [(opened.elim r (·.join r)).kind, (opened.elim r (·.join r)).position] ls rest := by
  have hlexeme : ∀ b ∈ r.lexeme, TabStops.endsCell b = false ∧ TabStops.endsLine b = false :=
    fun b hb => ends_of_printable (hr.lexeme b hb)
  cases opened with
  | none =>
    simp only [blocksFrom, escaped, Option.isSome_none, Option.elim_none, List.append_assoc,
      List.cons_append]
    rw [blocks_cell hr.position, blocks_cell hr.kind, TabStops.blocks_text_append hlexeme,
      List.append_nil]
    rfl
  | some p =>
    have hfront : TabStops.escapeMark ∉ r.position ++ '\t'.ascii :: (r.kind ++ ['\t'.ascii]) := by
      simp only [List.mem_append, List.mem_cons, List.not_mem_nil, or_false, not_or]
      exact ⟨not_mem_of_ascii hr.position, by decide, not_mem_of_ascii hr.kind, by decide⟩
    have hsplit : r.escaped ++ rest =
        (r.position ++ '\t'.ascii :: (r.kind ++ ['\t'.ascii])) ++ (r.lexeme ++ rest) := by
      simp [escaped]
    simp only [blocksFrom, Option.isSome_some, Option.elim_some]
    rw [hsplit, TabStops.blocks_escaped_append hfront, TabStops.blocks_text_append hlexeme]
    simp [join, escaped, toggles]

/-- Rows are read as their lines, perhaps with an empty line behind them. -/
theorem blocksFrom_rows (ls : List TabStops.Line) {rs : List TokenRow} (hrs : ∀ r ∈ rs, r.Clean)
    {opened : Option TokenRow} (hopened : ∀ p ∈ opened, p.lexeme ≠ []) :
    ∃ rest, (rest = [] ∨ rest = [⟨[], []⟩]) ∧
      blocksFrom opened ls (rs.flatMap text) =
        [ls.reverse ++ (joined opened rs).map (fun l => l.1.toLine l.2) ++ rest] := by
  induction rs generalizing opened ls with
  | nil =>
    cases opened with
    | none => exact ⟨[⟨[], []⟩], .inr rfl, by simp [blocksFrom, TabStops.blocks, joined]⟩
    | some p =>
      have hlexeme := hopened p rfl
      exact ⟨[], .inl rfl, by simp [blocksFrom, TabStops.blocks, joined, toLine, hlexeme]⟩
  | cons r rs ih =>
    have hrest : ∀ x ∈ rs, x.Clean := fun x hx => hrs x (List.mem_cons_of_mem r hx)
    rw [List.flatMap_cons, text_eq, List.append_assoc, blocksFrom_row (hrs r List.mem_cons_self)]
    cases hescape : opened.isSome ^^ r.toggles with
    | true =>
      have hfeed : TabStops.escapeMark ∉ ['\n'.ascii] := by decide
      have hopen : ∀ p ∈ some (opened.elim r (·.join r)).fed, p.lexeme ≠ [] := by
        rintro p ⟨⟩
        simp [fed]
      obtain ⟨rest, hempty, heq⟩ := ih ls hrest hopen
      refine ⟨rest, hempty, ?_⟩
      rw [TabStops.blocks_escaped_append hfeed]
      simp only [joined, hescape, if_true]
      rw [← heq]
      simp [blocksFrom, fed]
    | false =>
      have hnone : ∀ p ∈ (none : Option TokenRow), p.lexeme ≠ [] := by simp
      obtain ⟨rest, hempty, heq⟩ :=
        ih ((opened.elim r (·.join r)).toLine ['\n'.ascii] :: ls) hrest hnone
      refine ⟨rest, hempty, ?_⟩
      rw [List.singleton_append, TabStops.blocks_feed]
      simp only [joined, hescape, Bool.false_eq_true, if_false]
      rw [List.map_cons]
      simpa [blocksFrom, toLine] using heq

end

/-! ## Laying out rows -/

/-- The columns of the lines hold the cells of the settled rows. -/
theorem joined_columns {β : Type} (f : Bytes → Bytes → β) (opened : Option TokenRow)
    (rs : List TokenRow) :
    (joined opened rs).map (fun l => f l.1.position l.1.kind) =
      (opened.elim (settled false rs) (· :: settled true rs)).map fun r => f r.position r.kind := by
  induction rs generalizing opened with
  | nil => cases opened <;> rfl
  | cons r rs ih =>
    cases opened with
    | none => cases htoggles : r.toggles <;> simp [joined, settled, htoggles, ih, fed]
    | some p => cases htoggles : r.toggles <;> simp [joined, settled, htoggles, ih, fed, join]

theorem aligned_fed (positionWidth kindWidth : Nat) (p : TokenRow) :
    p.fed.aligned positionWidth kindWidth = p.aligned positionWidth kindWidth ++ ['\n'.ascii] := by
  simp [aligned, fed]

theorem aligned_join (positionWidth kindWidth : Nat) (p r : TokenRow) :
    (p.join r).aligned positionWidth kindWidth = p.aligned positionWidth kindWidth ++ r.escaped := by
  simp [aligned, join]

theorem joined_lines (positionWidth kindWidth : Nat) (opened : Option TokenRow) (rs : List TokenRow) :
    (joined opened rs).flatMap (fun l => l.1.aligned positionWidth kindWidth ++ l.2) =
      opened.elim [] (aligned positionWidth kindWidth) ++
        (lines positionWidth kindWidth opened.isSome rs).flatMap (· ++ ['\n'.ascii]) := by
  induction rs generalizing opened with
  | nil => cases opened <;> simp [joined, lines]
  | cons r rs ih =>
    cases opened with
    | none => cases htoggles : r.toggles <;> simp [joined, lines, htoggles, ih, aligned_fed]
    | some p =>
      cases htoggles : r.toggles <;> simp [joined, lines, htoggles, ih, aligned_fed, aligned_join]

theorem mem_of_mem_settled {inEscape : Bool} {rs : List TokenRow} {r : TokenRow}
    (hr : r ∈ settled inEscape rs) : r ∈ rs := by
  induction rs generalizing inEscape with
  | nil => cases hr
  | cons x rs ih =>
    rw [settled] at hr
    split at hr
    · exact List.mem_cons_of_mem x (ih hr)
    · rcases List.mem_cons.mp hr with rfl | hr
      · exact List.mem_cons_self
      · exact List.mem_cons_of_mem x (ih hr)

theorem columnWidth_eq {cells : List Bytes} (hcells : ∀ cell ∈ cells, ∀ b ∈ cell, b.toNat < 128) :
    tokenStops.columnWidth cells = columnWidth cells := by
  have hwidth : ∀ w, ∀ cell ∈ cells,
      max w (TabStops.cellWidth cell + tokenStops.padding) = max w (cell.length + 1) := by
    intro w cell hcell
    rw [TabStops.cellWidth_of_ascii (hcells cell hcell)]
    rfl
  rw [TabStops.columnWidth, columnWidth, List.foldl_map]
  exact List.foldl_ext _ _ _ hwidth

theorem fill_eq {cell : Bytes} (hcell : ∀ b ∈ cell, b.toNat < 128) (width : Nat) :
    TabStops.fill width cell = pad width cell := by
  rw [TabStops.fill, TabStops.cellWidth_of_ascii hcell, pad]

/-- Lines of three cells have two columns. -/
theorem layOutRows_toLine {ls : List (TokenRow × Bytes)} {rest : List TabStops.Line}
    (hls : ∀ l ∈ ls, (∀ b ∈ l.1.position, b.toNat < 128) ∧ ∀ b ∈ l.1.kind, b.toNat < 128)
    (hrest : rest = [] ∨ rest = [⟨[], []⟩]) :
    tokenStops.layOutRows ((ls.map (fun l => l.1.toLine l.2) ++ rest).map .ofLine) =
      ls.flatMap fun l => l.1.aligned (columnWidth (ls.map (·.1.position)))
        (columnWidth (ls.map (·.1.kind))) ++ l.2 := by
  have hpositions : ∀ cell ∈ ls.map (·.1.position), ∀ b ∈ cell, b.toNat < 128 :=
    List.forall_mem_map.mpr fun l hl => (hls l hl).1
  have hkinds : ∀ cell ∈ ls.map (·.1.kind), ∀ b ∈ cell, b.toNat < 128 :=
    List.forall_mem_map.mpr fun l hl => (hls l hl).2
  -- The rows before, between and behind the two columns.
  let start (l : TokenRow × Bytes) : TabStops.Row := .ofLine (l.1.toLine l.2)
  let second (l : TokenRow × Bytes) : TabStops.Row :=
    (start l).fillNext (columnWidth (ls.map (·.1.position)))
  let third (l : TokenRow × Bytes) : TabStops.Row :=
    (second l).fillNext (columnWidth (ls.map (·.1.kind)))
  have hlast : ∀ s ∈ rest.map TabStops.Row.ofLine, s.hasColumn = false := by
    rcases hrest with rfl | rfl <;> simp [TabStops.Row.ofLine, TabStops.Row.hasColumn]
  have hempty : tokenStops.layOutRows (rest.map .ofLine) = [] := by
    rw [TabStops.layOutRows_of_last hlast]
    rcases hrest with rfl | rfl <;> simp [TabStops.Row.ofLine, TabStops.Row.text]
  have hfirst : tokenStops.layOutRows (ls.map start ++ rest.map .ofLine) =
      tokenStops.layOutRows (ls.map second) := by
    rw [TabStops.layOutRows_append (List.forall_mem_map.mpr fun l _ => rfl)
      fun s hs => hlast s (List.mem_of_mem_head? hs), hempty, List.append_nil, List.map_map,
      List.map_map]
    exact congrArg (fun w => tokenStops.layOutRows (ls.map fun l => (start l).fillNext w))
      (columnWidth_eq hpositions)
  have hsecond : tokenStops.layOutRows (ls.map second) = tokenStops.layOutRows (ls.map third) := by
    rw [TabStops.layOutRows_column (List.forall_mem_map.mpr fun l _ => rfl), List.map_map,
      List.map_map]
    exact congrArg (fun w => tokenStops.layOutRows (ls.map fun l => (second l).fillNext w))
      (columnWidth_eq hkinds)
  have hthird : tokenStops.layOutRows (ls.map third) = ls.flatMap fun l => (third l).text := by
    rw [TabStops.layOutRows_of_last (List.forall_mem_map.mpr fun l _ => rfl), List.flatMap_map]
  rw [List.map_append, List.map_map]
  refine (hfirst.trans (hsecond.trans hthird)).trans (List.flatMap_congr fun l hl => ?_)
  simp [third, second, start, TabStops.Row.text, TabStops.Row.fillNext, TabStops.Row.next,
    TabStops.Row.ofLine, toLine, aligned, fill_eq (hls l hl).1, fill_eq (hls l hl).2]

theorem layOut_rows {rs : List TokenRow} (hrs : ∀ r ∈ rs, r.Clean) :
    tokenStops.layOut (rs.flatMap text) = (tableLines rs).flatMap (· ++ ['\n'.ascii]) := by
  have hnone : ∀ p ∈ (none : Option TokenRow), p.lexeme ≠ [] := by simp
  obtain ⟨rest, hrest, hblocks⟩ := blocksFrom_rows [] hrs hnone
  have hposition : (joined none rs).map (·.1.position) = (settled false rs).map position :=
    joined_columns (fun position _ => position) none rs
  have hkind : (joined none rs).map (·.1.kind) = (settled false rs).map kind :=
    joined_columns (fun _ kind => kind) none rs
  have hascii : ∀ l ∈ joined none rs,
      (∀ b ∈ l.1.position, b.toNat < 128) ∧ ∀ b ∈ l.1.kind, b.toNat < 128 := by
    intro l hl
    have hmem := List.mem_map_of_mem (f := fun l => (l.1.position, l.1.kind)) hl
    rw [joined_columns Prod.mk] at hmem
    obtain ⟨r, hr, heq⟩ := List.mem_map.mp hmem
    obtain ⟨hposition, hkind⟩ := Prod.mk.inj heq
    have hclean := hrs r (mem_of_mem_settled hr)
    rw [← hposition, ← hkind]
    exact ⟨fun b hb => (hclean.position b hb).2, fun b hb => (hclean.kind b hb).2⟩
  have hlayOut : tokenStops.layOut (rs.flatMap text) =
      tokenStops.layOutRows (((joined none rs).map (fun l => l.1.toLine l.2) ++ rest).map .ofLine) := by
    rw [TabStops.layOut, show TabStops.blocks false [] [] [] (rs.flatMap text) = _ from hblocks,
      List.flatMap_singleton, List.reverse_nil, List.nil_append]
  rw [hlayOut, layOutRows_toLine hascii hrest, hposition, hkind, joined_lines]
  rfl

/-! ## Lines of clean rows -/

theorem not_mem_of_printable {bs : Bytes} (hbs : ∀ b ∈ bs, 0x20 ≤ b.toNat) : '\n'.ascii ∉ bs := by
  intro hmem
  exact absurd (hbs _ hmem) (by decide)

theorem Clean.not_mem_aligned {r : TokenRow} (hr : r.Clean) (positionWidth kindWidth : Nat) :
    '\n'.ascii ∉ r.aligned positionWidth kindWidth := by
  have hspaces : ∀ n, '\n'.ascii ∉ Bytes.spaces n := fun n hmem =>
    absurd (List.eq_of_mem_replicate hmem) (by decide)
  simp only [aligned, pad, List.mem_append, not_or]
  exact ⟨⟨not_mem_of_printable fun b hb => (hr.position b hb).1, hspaces _⟩,
    ⟨not_mem_of_printable fun b hb => (hr.kind b hb).1, hspaces _⟩, not_mem_of_printable hr.lexeme⟩

theorem Clean.not_mem_escaped {r : TokenRow} (hr : r.Clean) : '\n'.ascii ∉ r.escaped := by
  simp only [escaped, List.mem_append, List.mem_cons, not_or]
  exact ⟨not_mem_of_printable fun b hb => (hr.position b hb).1, by decide,
    not_mem_of_printable fun b hb => (hr.kind b hb).1, by decide, not_mem_of_printable hr.lexeme⟩

theorem not_mem_lines {rs : List TokenRow} (hrs : ∀ r ∈ rs, r.Clean) (positionWidth kindWidth : Nat)
    (inEscape : Bool) : ∀ l ∈ lines positionWidth kindWidth inEscape rs, '\n'.ascii ∉ l := by
  induction rs generalizing inEscape with
  | nil => exact List.forall_mem_nil _
  | cons r rs ih =>
    have hr := hrs r List.mem_cons_self
    rw [lines, List.forall_mem_cons]
    refine ⟨?_, ih (fun x hx => hrs x (List.mem_cons_of_mem r hx)) _⟩
    cases inEscape with
    | true => exact hr.not_mem_escaped
    | false => exact hr.not_mem_aligned positionWidth kindWidth

theorem length_lines (positionWidth kindWidth : Nat) (inEscape : Bool) (rs : List TokenRow) :
    (lines positionWidth kindWidth inEscape rs).length = rs.length := by
  induction rs generalizing inEscape with
  | nil => rfl
  | cons r rs ih => rw [lines, List.length_cons, ih, List.length_cons]

theorem splitOn_lines {ls : List Bytes} (hls : ∀ l ∈ ls, '\n'.ascii ∉ l) :
    (ls.flatMap (· ++ ['\n'.ascii])).splitOn '\n'.ascii = ls ++ [[]] := by
  induction ls with
  | nil => rfl
  | cons l ls ih =>
    have hl : ∀ b ∈ l, (b == '\n'.ascii) = false := by
      intro b hb
      rw [beq_eq_false_iff_ne]
      rintro rfl
      exact hls l List.mem_cons_self hb
    have hrest := ih fun x hx => hls x (List.mem_cons_of_mem l hx)
    rw [List.splitOn] at hrest
    rw [List.splitOn, List.flatMap_cons, List.append_assoc, List.singleton_append,
      List.splitOnP_append_cons_of_forall_mem hl _ (by simp), hrest]
    rfl

/-! ## Aligned tables -/

theorem lt_columnWidth {cells : List Bytes} {cell : Bytes} (hcell : cell ∈ cells) :
    cell.length < columnWidth cells := by
  have hle : ∀ (ns : List Nat) (w : Nat), w ≤ ns.foldl max w ∧ ∀ n ∈ ns, n ≤ ns.foldl max w := by
    intro ns
    induction ns with
    | nil => exact fun w => ⟨Nat.le_refl w, List.forall_mem_nil _⟩
    | cons n ns ih =>
      intro w
      obtain ⟨hmax, hns⟩ := ih (max w n)
      refine ⟨(Nat.le_max_left w n).trans hmax, List.forall_mem_cons.mpr ⟨?_, hns⟩⟩
      exact (Nat.le_max_right w n).trans hmax
  exact (hle _ 4).2 _ (List.mem_map_of_mem (f := fun cell : Bytes => cell.length + 1) hcell)

/-- Behind the first cell stands a tab or a space. -/
theorem escaped_ne_aligned {r : TokenRow} {positionWidth : Nat}
    (hwidth : r.position.length < positionWidth) (kindWidth : Nat) :
    r.escaped ≠ r.aligned positionWidth kindWidth := by
  obtain ⟨n, hn⟩ : ∃ n, positionWidth - r.position.length = n + 1 :=
    ⟨positionWidth - r.position.length - 1, by omega⟩
  intro heq
  rw [escaped, aligned, pad, hn, List.append_assoc, List.append_cancel_left_eq, Bytes.spaces,
    List.replicate_succ, List.cons_append] at heq
  exact absurd (List.cons.inj heq).1 (by decide)

theorem settled_of_even {rs : List TokenRow} (h : ∀ r ∈ rs, r.toggles = false) :
    settled false rs = rs := by
  induction rs with
  | nil => rfl
  | cons r rs ih =>
    rw [settled, h r List.mem_cons_self, if_neg Bool.false_ne_true, Bool.xor_false,
      ih fun x hx => h x (List.mem_cons_of_mem r hx)]

theorem lines_of_even {rs : List TokenRow} (h : ∀ r ∈ rs, r.toggles = false)
    (positionWidth kindWidth : Nat) :
    lines positionWidth kindWidth false rs = rs.map (aligned positionWidth kindWidth) := by
  induction rs with
  | nil => rfl
  | cons r rs ih =>
    rw [lines, h r List.mem_cons_self, if_neg Bool.false_ne_true, Bool.xor_false,
      ih fun x hx => h x (List.mem_cons_of_mem r hx), List.map_cons]

/-- Where all lines are aligned, no escaped text is open in front of any of them. -/
theorem even_of_lines_eq {rs : List TokenRow} {positionWidth kindWidth positionWidth' kindWidth' : Nat}
    (hwidth : ∀ r ∈ rs, r.position.length < positionWidth') {inEscape : Bool} (hne : rs ≠ [])
    (h : lines positionWidth kindWidth inEscape rs = rs.map (aligned positionWidth' kindWidth')) :
    inEscape = false ∧ ∀ r ∈ rs.dropLast, r.toggles = false := by
  induction rs generalizing inEscape with
  | nil => exact absurd rfl hne
  | cons r rs ih =>
    rw [lines, List.map_cons] at h
    obtain ⟨hhead, htail⟩ := List.cons.inj h
    have hsettled : inEscape = false := by
      refine Bool.eq_false_iff.mpr fun hescape => ?_
      rw [if_pos hescape] at hhead
      exact escaped_ne_aligned (hwidth r List.mem_cons_self) _ hhead
    refine ⟨hsettled, ?_⟩
    cases rs with
    | nil => exact List.forall_mem_nil _
    | cons x rs =>
      obtain ⟨htoggles, hrest⟩ :=
        ih (fun y hy => hwidth y (List.mem_cons_of_mem r hy)) (List.cons_ne_nil x rs) htail
      rw [hsettled, Bool.false_xor] at htoggles
      exact List.forall_mem_cons.mpr ⟨htoggles, hrest⟩

/-- All lines are aligned exactly if no row turns escaping on or off. The last row has no part in
    this: no row is behind it. -/
theorem tableLines_eq_iff {rs : List TokenRow} {r : TokenRow} (hr : r.toggles = false) :
    tableLines (rs ++ [r]) = alignedLines (rs ++ [r]) ↔ ∀ x ∈ rs ++ [r], x.toggles = false := by
  constructor
  · intro h
    have hwidth : ∀ x ∈ rs ++ [r],
        x.position.length < columnWidth ((rs ++ [r]).map position) :=
      fun x hx => lt_columnWidth (List.mem_map_of_mem hx)
    obtain ⟨-, hrs⟩ := even_of_lines_eq hwidth (by simp) h
    rw [List.dropLast_concat] at hrs
    exact List.forall_mem_append.mpr ⟨hrs, List.forall_mem_singleton.mpr hr⟩
  · intro h
    rw [tableLines, settled_of_even h, lines_of_even h, alignedLines]

/-! ## Rows of tokens -/

theorem printable_ofInt (i : Int) : ∀ b ∈ Bytes.ofInt i, 0x20 ≤ b.toNat ∧ b.toNat < 128 := by
  have hdigits : ∀ n, ∀ b ∈ Bytes.ofNat n, 0x20 ≤ b.toNat ∧ b.toNat < 128 := by
    intro n b hb
    obtain ⟨c, hc, rfl⟩ := List.mem_map.mp hb
    have hdigit := Nat.isDigit_of_mem_toDigits (by decide) (by decide) hc
    rw [ascii_toNat (lt_of_isDigit hdigit)]
    exact ⟨printable_of_isDigit hdigit, lt_of_isDigit hdigit⟩
  unfold Bytes.ofInt
  split
  · exact List.forall_mem_cons.mpr ⟨by decide, hdigits _⟩
  · exact hdigits _

theorem printable_kind (k : Kind) : ∀ b ∈ k.text, 0x20 ≤ b.toNat ∧ b.toNat < 128 := by
  have hinvalid : ∀ b ∈ Kind.invalid.text, 0x20 ≤ b.toNat ∧ b.toNat < 128 := by decide +kernel
  cases k with
  | unassigned i => exact hinvalid
  | _ => decide +kernel

theorem clean_ofToken {t : Token} (ht : ∀ b ∈ t.lexeme, 0x20 ≤ b.toNat) : (ofToken t).Clean where
  position := by
    refine List.forall_mem_append.mpr ⟨printable_ofInt _, List.forall_mem_cons.mpr ⟨by decide, ?_⟩⟩
    exact printable_ofInt _
  kind := printable_kind t.kind
  lexeme := ht

theorem toggles_ofToken (t : Token) :
    (ofToken t).toggles = false ↔ 2 ∣ t.lexeme.count TabStops.escapeMark := by
  rw [toggles, TabStops.toggles, decide_eq_false_iff_not, Nat.dvd_iff_mod_eq_zero]
  exact Nat.mod_two_ne_one

end TokenRow

/-- The table of the tokens of a text has a line for each token. The lines are those of the settled
    rows, aligned, and of the rows that are escaped text; all of them are aligned exactly if each
    token holds an even number of bytes 0xFF. -/
theorem tokenTable_lines {d : Dialect} {text : Bytes} {ts : List Token}
    (h : Token.scan d text = .ok ts) :
    ((tokenTable ts).splitOn '\n'.ascii = TokenRow.tableLines (ts.map .ofToken) ++ [[]] ∧
      (TokenRow.tableLines (ts.map .ofToken)).length = ts.length) ∧
    ((tokenTable ts).splitOn '\n'.ascii = TokenRow.alignedLines (ts.map .ofToken) ++ [[]] ↔
      ∀ t ∈ ts, 2 ∣ t.lexeme.count 0xFF) := by
  have hclean : ∀ r ∈ ts.map TokenRow.ofToken, r.Clean := List.forall_mem_map.mpr fun t ht =>
    TokenRow.clean_ofToken (Token.printable_of_mem_scan h ht)
  have hlines : (tokenTable ts).splitOn '\n'.ascii =
      TokenRow.tableLines (ts.map .ofToken) ++ [[]] := by
    rw [tokenTable, ← List.flatMap_map, TokenRow.layOut_rows hclean]
    exact TokenRow.splitOn_lines (TokenRow.not_mem_lines hclean _ _ _)
  refine ⟨⟨hlines, ?_⟩, ?_⟩
  · rw [TokenRow.tableLines, TokenRow.length_lines, List.length_map]
  · obtain ⟨front, last, rfl⟩ := Token.exists_concat_of_scan h
    have hlast : last.lexeme = [] :=
      Token.lexeme_of_mem_scan h List.mem_concat_self (Token.kind_of_scan h).2
    have htoggles : (TokenRow.ofToken last).toggles = false :=
      (TokenRow.toggles_ofToken last).mpr (by simp [hlast])
    rw [hlines, List.append_cancel_right_eq, List.map_append, List.map_singleton,
      TokenRow.tableLines_eq_iff htoggles, ← List.map_singleton (f := TokenRow.ofToken),
      ← List.map_append, List.forall_mem_map]
    exact forall₂_congr fun t _ => TokenRow.toggles_ofToken t

/-- Two strings with a byte 0xFF each: what stands between these bytes is escaped text, and the line
    behind it is aligned again. -/
theorem tokenTable_lines_marked :
    ∃ ts, Token.scan .strict ("\"".utf8 ++ 0xFF :: "\":\"".utf8 ++ 0xFF :: "\"".utf8) = .ok ts ∧
      (tokenTable ts).splitOn '\n'.ascii =
        ["1:1 string       \"".utf8 ++ 0xFF :: "\"".utf8, "1:4\t\":\"\t:".utf8,
          "1:5\tstring\t\"".utf8 ++ 0xFF :: "\"".utf8, "1:8 end of input ".utf8, []] ∧
      (tokenTable ts).splitOn '\n'.ascii ≠ TokenRow.alignedLines (ts.map .ofToken) ++ [[]] := by
  have hscan : Token.scan .strict ("\"".utf8 ++ 0xFF :: "\":\"".utf8 ++ 0xFF :: "\"".utf8) =
      .ok [{ kind := .string, lexeme := "\"".utf8 ++ 0xFF :: "\"".utf8,
             location := ⟨⟨0, 3⟩, ⟨1, 1⟩⟩, literal := some (.string [0xFF]) },
        { kind := .colon, lexeme := ":".utf8, location := ⟨⟨3, 4⟩, ⟨1, 4⟩⟩ },
        { kind := .string, lexeme := "\"".utf8 ++ 0xFF :: "\"".utf8,
          location := ⟨⟨4, 7⟩, ⟨1, 5⟩⟩, literal := some (.string [0xFF]) },
        { kind := .endOfInput, location := ⟨⟨7, 7⟩, ⟨1, 8⟩⟩ }] := by cbv
  obtain ⟨⟨hlines, -⟩, haligned⟩ := tokenTable_lines hscan
  refine ⟨_, hscan, hlines.trans (by cbv), fun heq => ?_⟩
  exact absurd (haligned.mp heq _ List.mem_cons_self) (by decide)

/-- The tokens of an array with a string that holds a byte 0xFF. -/
def markedTokens : List Token :=
  [{ kind := .leftBracket, lexeme := "[".utf8, location := ⟨⟨0, 1⟩, ⟨1, 1⟩⟩ },
    { kind := .string, lexeme := "\"".utf8 ++ 0xFF :: "\"".utf8,
      location := ⟨⟨1, 4⟩, ⟨1, 2⟩⟩, literal := some (.string [0xFF]) },
    { kind := .rightBracket, lexeme := "]".utf8, location := ⟨⟨4, 5⟩, ⟨1, 5⟩⟩ },
    { kind := .endOfInput, location := ⟨⟨5, 5⟩, ⟨1, 6⟩⟩ }]

/-- Behind a byte 0xFF without a second one no line is aligned. -/
theorem tokenTable_marked :
    Token.scan .strict ("[\"".utf8 ++ 0xFF :: "\"]".utf8) = .ok markedTokens ∧
      (tokenTable markedTokens).splitOn '\n'.ascii =
        ["1:1 \"[\"    [".utf8, "1:2 string \"".utf8 ++ 0xFF :: "\"".utf8, "1:5\t\"]\"\t]".utf8,
          "1:6\tend of input\t".utf8, []] ∧
      TokenRow.alignedLines (markedTokens.map .ofToken) ++ [[]] =
        ["1:1 \"[\"          [".utf8, "1:2 string       \"".utf8 ++ 0xFF :: "\"".utf8,
          "1:5 \"]\"          ]".utf8, "1:6 end of input ".utf8, []] ∧
      (tokenTable markedTokens).splitOn '\n'.ascii ≠
        TokenRow.alignedLines (markedTokens.map .ofToken) ++ [[]] := by
  have hscan : Token.scan .strict ("[\"".utf8 ++ 0xFF :: "\"]".utf8) = .ok markedTokens := by cbv
  have htable : (tokenTable markedTokens).splitOn '\n'.ascii =
      ["1:1 \"[\"    [".utf8, "1:2 string \"".utf8 ++ 0xFF :: "\"".utf8, "1:5\t\"]\"\t]".utf8,
        "1:6\tend of input\t".utf8, []] := by cbv
  have haligned : TokenRow.alignedLines (markedTokens.map .ofToken) ++ [[]] =
      ["1:1 \"[\"          [".utf8, "1:2 string       \"".utf8 ++ 0xFF :: "\"".utf8,
        "1:5 \"]\"          ]".utf8, "1:6 end of input ".utf8, []] := by cbv
  refine ⟨hscan, htable, haligned, ?_⟩
  rw [htable, haligned]
  decide +kernel

end RelaxedJson.Command
