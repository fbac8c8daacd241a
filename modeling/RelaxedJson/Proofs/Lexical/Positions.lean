-- SUMMARY: Where tokens and errors are reported to lie, counted afresh from the start of the text.
import RelaxedJson.Proofs.Lexical.Faults

/-!
# Positions

The scanner keeps the line and the column as it goes. Here both are counted from the text alone: the
line by the line feeds in front of an offset, the column by the runes between the last of them and
the offset (`Position.atOffset`). The two agree wherever the scanner stops
(`Layout.positionBehind_eq`).
-/

namespace RelaxedJson

/-! ## Counting afresh -/

/-- The columns that a tab takes, where one that is not positive means the default. -/
def Dialect.tabColumns (d : Dialect) : Int :=
  if d.tabWidth ≤ 0 then defaultTabWidth else d.tabWidth

/-- The columns that a rune takes. -/
def Rune.columns (d : Dialect) (r : Rune) : Int :=
  if r = .valid '\t' then d.tabColumns else 1

/-- The part of a text behind its last line feed. -/
def Bytes.lastLine (bs : Bytes) : Bytes :=
  bs.rtakeWhile (· ≠ '\n'.ascii)

namespace Position

/-- The line at the end of a text: one more than its line feeds. -/
def endLine (before : Bytes) : Int :=
  1 + before.count '\n'.ascii

/-- The exact column at the end of a text: one more than the columns of its last line. -/
def endColumn (d : Dialect) (before : Bytes) : Int :=
  1 + ((Rune.decode before.lastLine).map (Rune.columns d)).sum

/-- The position of the byte at offset `o`. Its column is a word of 64 bits. -/
def atOffset (d : Dialect) (text : Bytes) (o : Nat) : Position :=
  ⟨endLine (text.take o), Int64.ofInt (endColumn d (text.take o))⟩

/-! ## Counting on the way -/

variable {d : Dialect}

theorem advance_of_ne (p : Position) {r : Rune} (h : r ≠ .valid '\n') :
    p.advance d.columnsPerTab r = ⟨p.line, p.column + Int64.ofInt (r.columns d)⟩ := by
  unfold advance
  split
  · exact absurd rfl h
  · rfl
  · rename_i htab
    rw [Rune.columns, if_neg htab]
    rfl

theorem advanceAll_cons (tab : Int64) (p : Position) (r : Rune) (rs : List Rune) :
    p.advanceAll tab (r :: rs) = (p.advance tab r).advanceAll tab rs :=
  rfl

/-- Runes without a line feed stay on the line. -/
theorem advanceAll_of_not_mem (p : Position) {rs : List Rune} (h : .valid '\n' ∉ rs) :
    p.advanceAll d.columnsPerTab rs =
      ⟨p.line, p.column + Int64.ofInt (rs.map (Rune.columns d)).sum⟩ := by
  induction rs generalizing p with
  | nil => simp
  | cons r rs ih =>
    rw [List.mem_cons, not_or] at h
    rw [advanceAll_cons, advance_of_ne p (Ne.symm h.1), ih _ h.2]
    simp only [List.map_cons, List.sum_cons, Int64.ofInt_add, Int64.add_assoc]

theorem advanceAll_line (p : Position) (rs : List Rune) :
    (p.advanceAll d.columnsPerTab rs).line = p.line + rs.count (.valid '\n') := by
  induction rs generalizing p with
  | nil => simp
  | cons r rs ih =>
    rw [advanceAll_cons, ih]
    by_cases hr : r = .valid '\n'
    · subst hr
      simp only [advance, List.count_cons_self]
      omega
    · rw [advance_of_ne p hr, List.count_cons_of_ne hr]

end Position

theorem Rune.count_encode {rs : List Rune} (hrs : ∀ r ∈ rs, r.IsRead) {c : Char}
    (hc : c.toNat < 128) : (encode rs).count c.ascii = rs.count (.valid c) := by
  induction rs with
  | nil => rfl
  | cons r rs ih =>
    have hrest := ih fun x hx => hrs x (List.mem_cons_of_mem r hx)
    rw [encode_cons, List.count_append, hrest]
    by_cases hr : r = .valid c
    · subst hr
      rw [bytes, utf8_of_ascii hc, List.count_cons_self, List.count_cons_self, List.count_nil,
        Nat.add_comm]
    · have hnone : r.bytes.count c.ascii = 0 := by
        apply List.count_eq_zero.mpr
        intro hmem
        exact (hrs r List.mem_cons_self).ne_ascii_of_mem hc hr hmem rfl
      rw [hnone, Nat.zero_add, List.count_cons_of_ne hr]

namespace Bytes

theorem lastLine_concat_feed (bs : Bytes) : lastLine (bs ++ ['\n'.ascii]) = [] :=
  List.rtakeWhile_concat_neg _ _ _ (by simp)

theorem lastLine_concat {b : UInt8} (hb : b ≠ '\n'.ascii) (bs : Bytes) :
    lastLine (bs ++ [b]) = lastLine bs ++ [b] :=
  List.rtakeWhile_concat_pos _ _ _ (by simpa using hb)

theorem ne_of_mem_lastLine {bs : Bytes} {b : UInt8} (hb : b ∈ bs.lastLine) : b ≠ '\n'.ascii := by
  simpa using List.mem_rtakeWhile_imp hb

/-- In front of its last line, a text is empty or ends with a line feed. -/
theorem eq_lastLine_or (bs : Bytes) :
    bs = bs.lastLine ∨ ∃ front : Bytes, bs = front ++ ['\n'.ascii] ++ bs.lastLine := by
  induction bs using List.reverseRecOn with
  | nil => exact .inl rfl
  | append_singleton bs b ih =>
    by_cases hb : b = '\n'.ascii
    · subst hb
      exact .inr ⟨bs, by rw [lastLine_concat_feed, List.append_nil]⟩
    · rw [lastLine_concat hb]
      rcases ih with h | ⟨front, h⟩
      · exact .inl (by rw [← h])
      · exact .inr ⟨front, by rw [← List.append_assoc, ← h]⟩

end Bytes

namespace Layout

variable {d : Dialect}

theorem positionBehind_line (before : Bytes) :
    (positionBehind d before).line = Position.endLine before := by
  have hread : ∀ r ∈ Rune.decode before, r.IsRead := fun r => Rune.isRead_of_mem_decode
  have hcount := Rune.count_encode hread (c := '\n') (by decide)
  rw [Rune.encode_decode] at hcount
  rw [positionBehind, Position.advanceAll_line, Position.endLine, hcount]
  rfl

theorem positionBehind_column (before : Bytes) :
    (positionBehind d before).column = Int64.ofInt (Position.endColumn d before) := by
  -- Up to the last line feed nothing counts for the column, behind it every rune does.
  obtain ⟨p, hp, hbehind⟩ : ∃ p : Position, p.column = 1 ∧
      positionBehind d before = p.advanceAll d.columnsPerTab (Rune.decode before.lastLine) := by
    rcases Bytes.eq_lastLine_or before with hline | ⟨front, hline⟩
    · exact ⟨.origin, rfl, by rw [positionBehind, ← hline]⟩
    · refine ⟨Position.origin.advanceAll d.columnsPerTab (Rune.decode (front ++ ['\n'.ascii])),
        ?_, ?_⟩
      · rw [Rune.decode_append front (Bytes.startsAscii_cons (by decide) []),
          Rune.decode_ascii_cons (by decide), Rune.decode_nil, Position.advanceAll_append]
        rfl
      · rw [positionBehind, ← Position.advanceAll_append, ← Rune.decode_concat_append _ (by decide),
          ← hline]
  have hruns : Rune.valid '\n' ∉ Rune.decode before.lastLine := by
    intro hmem
    exact Lexeme.ne_valid_of_mem_decode (by decide) (fun b => Bytes.ne_of_mem_lastLine) hmem rfl
  rw [hbehind, Position.advanceAll_of_not_mem p hruns, hp, Position.endColumn, Int64.ofInt_add]
  rfl

/-- What the scanner keeps is what counting afresh gives. -/
theorem positionBehind_eq (before : Bytes) :
    positionBehind d before =
      ⟨Position.endLine before, Int64.ofInt (Position.endColumn d before)⟩ := by
  rw [← positionBehind_line (d := d), ← positionBehind_column]

end Layout

namespace Position

variable {d : Dialect}

theorem atOffset_append (before rest : Bytes) :
    atOffset d (before ++ rest) before.length = Layout.positionBehind d before := by
  rw [atOffset, List.take_left, Layout.positionBehind_eq]

theorem columns_pos (r : Rune) : 0 < r.columns d := by
  unfold Rune.columns Dialect.tabColumns Dialect.defaultTabWidth
  split
  · split <;> omega
  · omega

theorem endColumn_pos (before : Bytes) : 0 < endColumn d before := by
  have hsum : 0 ≤ ((Rune.decode before.lastLine).map (Rune.columns d)).sum := by
    apply List.sum_nonneg
    intro n hn
    obtain ⟨r, -, rfl⟩ := List.mem_map.mp hn
    exact Int.le_of_lt (columns_pos r)
  rw [endColumn]
  omega

/-- The column is the exact count whenever that fits into a word. -/
theorem toInt_atOffset_column {text : Bytes} {o : Nat} (h : endColumn d (text.take o) < 2 ^ 63) :
    (atOffset d text o).column.toInt = endColumn d (text.take o) := by
  have hpos := endColumn_pos (d := d) (text.take o)
  exact Int64.toInt_ofInt_of_le (by omega) h

end Position

namespace Token

/-- Tokens and errors are reported where they lie. The position of a token is that of its first
    byte. Scanning fails exactly if gaps and words lead to a fault, and the position of the error is
    that of the offending place. Columns are exact as long as they fit into a word. -/
theorem scan_positions (d : Dialect) (text : Bytes) :
    (∀ ts, scan d text = .ok ts → ∀ t ∈ ts, ∃ o : Nat, o ≤ text.length ∧ t.location.span.start = o ∧
      t.position = .atOffset d text o) ∧
    (∀ e, scan d text = .error e ↔
      ∃ before front rest, text = before ++ (front ++ rest) ∧ Scanned d before (front ++ rest) ∧
        Fault d front rest e.reason ∧
        e.position = .atOffset d text (before.length + front.length)) ∧
    ∀ o, Position.endColumn d (text.take o) < 2 ^ 63 →
      (Position.atOffset d text o).column.toInt = Position.endColumn d (text.take o) := by
  refine ⟨fun ts hts t ht => ?_, fun e => ?_, fun o => Position.toInt_atOffset_column⟩
  · obtain ⟨before, w, rest, rfl, rfl, -⟩ := exists_of_mem_scan hts ht
    refine ⟨before.length, by simp, rfl, ?_⟩
    rw [Position.atOffset_append]
    rfl
  · have hplace : ∀ before front rest : Bytes,
        Position.atOffset d (before ++ (front ++ rest)) (before.length + front.length) =
          Layout.positionBehind d (before ++ front) := by
      intro before front rest
      rw [← List.append_assoc, ← List.length_append, Position.atOffset_append]
    rw [scan_eq_error_iff_fault]
    constructor
    · rintro ⟨before, front, rest, rfl, hbefore, hfault, hposition⟩
      exact ⟨before, front, rest, rfl, hbefore, hfault, by rw [hplace, hposition]⟩
    · rintro ⟨before, front, rest, rfl, hbefore, hfault, hposition⟩
      exact ⟨before, front, rest, rfl, hbefore, hfault, by rw [← hplace, hposition]⟩

end Token

end RelaxedJson
