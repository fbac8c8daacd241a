-- SUMMARY: What elastic tab stops read from ordinary and from escaped text, and how they fill one column.
import RelaxedJson.Proofs.Text.Decoding
import RelaxedJson.Text.TabStops

/-!
# Elastic tab stops

Reading goes over a run of bytes at once: ordinary text joins the cell (`blocks_text_append`), and
inside escaped text everything does (`blocks_escaped_append`). Laying out takes neighbouring rows
with a column ahead together and fills that column (`layOutRows_append`), until no row has one
(`layOutRows_of_last`).
-/

namespace RelaxedJson.TabStops

/-! ## Reading -/

/-- Whether text turns escaping on or off: it has an odd number of marks. -/
def toggles (bs : Bytes) : Bool :=
  bs.count escapeMark % 2 = 1

theorem toggles_nil : toggles [] = false := rfl

theorem toggles_cons (b : UInt8) (bs : Bytes) :
    toggles (b :: bs) = (decide (b = escapeMark) ^^ toggles bs) := by
  unfold toggles
  by_cases hb : b = escapeMark
  · subst hb
    rw [List.count_cons_self]
    rcases Nat.mod_two_eq_zero_or_one (bs.count escapeMark) with h | h
    · simp [Nat.add_mod, h]
    · simp [Nat.add_mod, h]
  · simp [List.count_cons_of_ne hb, hb]

section

variable {cells : List Bytes} {lines : List Line}

/-- Text that ends no cell and no line joins the cell. -/
theorem blocks_text_append {xs : Bytes} (hxs : ∀ x ∈ xs, endsCell x = false ∧ endsLine x = false)
    (escaped : Bool) (cell bs : Bytes) :
    blocks escaped cell cells lines (xs ++ bs) =
      blocks (escaped ^^ toggles xs) (xs.reverse ++ cell) cells lines bs := by
  induction xs generalizing escaped cell with
  | nil => simp [toggles_nil]
  | cons x xs ih =>
    obtain ⟨hcell, hline⟩ := hxs x List.mem_cons_self
    have hrest := ih fun y hy => hxs y (List.mem_cons_of_mem x hy)
    have hstep : blocks escaped cell cells lines (x :: (xs ++ bs)) =
        blocks (escaped ^^ decide (x = escapeMark)) (x :: cell) cells lines (xs ++ bs) := by
      rw [blocks]
      by_cases hmark : x = escapeMark <;> cases escaped <;> simp [hmark, hcell, hline]
    rw [List.cons_append, hstep, hrest, toggles_cons, Bool.xor_assoc]
    simp

/-- Inside escaped text, everything up to the next mark joins the cell. -/
theorem blocks_escaped_append {xs : Bytes} (hxs : escapeMark ∉ xs) (cell bs : Bytes) :
    blocks true cell cells lines (xs ++ bs) = blocks true (xs.reverse ++ cell) cells lines bs := by
  induction xs generalizing cell with
  | nil => rfl
  | cons x xs ih =>
    rw [List.mem_cons, not_or] at hxs
    rw [List.cons_append, blocks, if_neg (Ne.symm hxs.1), if_pos rfl, ih hxs.2]
    simp

theorem blocks_tab (cell bs : Bytes) :
    blocks false cell cells lines ('\t'.ascii :: bs) =
      blocks false [] (cell.reverse :: cells) lines bs := by
  rw [blocks]
  rfl

theorem blocks_feed (cell bs : Bytes) :
    blocks false cell cells lines ('\n'.ascii :: bs) =
      blocks false [] [] (⟨(cell.reverse :: cells).reverse, ['\n'.ascii]⟩ :: lines) bs := by
  rw [blocks]
  rfl

end

/-! ## Widths -/

/-- An ASCII text takes a place for each byte. -/
theorem cellWidth_of_ascii {bs : Bytes} (hbs : ∀ b ∈ bs, b.toNat < 128) :
    cellWidth bs = bs.length := by
  induction bs with
  | nil => rw [cellWidth, Rune.decode_nil, List.countP_nil, List.length_nil]
  | cons b bs ih =>
    have hb := hbs b List.mem_cons_self
    have hrest := ih fun x hx => hbs x (List.mem_cons_of_mem b hx)
    have hdecode : Rune.decode (b :: bs) = .valid (Char.ofNat b.toNat) :: Rune.decode bs := by
      rw [← Rune.decode_ascii_cons (by rwa [toNat_ofNat_of_lt (by omega)]), ascii_ofNat hb]
    rw [cellWidth] at hrest
    rw [cellWidth, hdecode, List.countP_cons_of_pos (by simp), hrest, List.length_cons]

/-! ## Columns -/

variable {stops : TabStops}

/-- Neighbouring rows with a column ahead are laid out by filling it. -/
theorem layOutRows_append {rs ss : List Row} (hrs : ∀ r ∈ rs, r.hasColumn)
    (hss : ∀ s ∈ ss.head?, s.hasColumn = false) :
    stops.layOutRows (rs ++ ss) =
      stops.layOutRows (rs.map (Row.fillNext (stops.columnWidth (rs.map Row.next)))) ++
        stops.layOutRows ss := by
  cases rs with
  | nil => rw [List.nil_append, List.map_nil, layOutRows, List.nil_append]
  | cons r rs =>
    have hrest : ∀ x ∈ rs, x.hasColumn := fun x hx => hrs x (List.mem_cons_of_mem r hx)
    rw [List.cons_append, layOutRows, if_pos (hrs r List.mem_cons_self),
      takeWhile_append_exact hrest hss, dropWhile_append_exact hrest hss]

theorem layOutRows_column {rs : List Row} (hrs : ∀ r ∈ rs, r.hasColumn) :
    stops.layOutRows rs =
      stops.layOutRows (rs.map (Row.fillNext (stops.columnWidth (rs.map Row.next)))) := by
  have hcolumn : stops.layOutRows (rs ++ []) = _ := layOutRows_append hrs nofun
  rwa [List.append_nil, layOutRows, List.append_nil] at hcolumn

/-- Rows without a column ahead are written as they are. -/
theorem layOutRows_of_last {rs : List Row} (hrs : ∀ r ∈ rs, r.hasColumn = false) :
    stops.layOutRows rs = rs.flatMap Row.text := by
  induction rs with
  | nil => rw [layOutRows, List.flatMap_nil]
  | cons r rs ih =>
    have hr : ¬ r.hasColumn := by simp [hrs r List.mem_cons_self]
    rw [layOutRows, if_neg hr, ih fun x hx => hrs x (List.mem_cons_of_mem r hx), List.flatMap_cons]

end RelaxedJson.TabStops
