-- SUMMARY: The shortest digits of a double lie in its rounding interval.
import RelaxedJson.Proofs.Number.Rounding

/-!
# Shortest digits

The search for the shortest digits only takes decimals of the rounding interval. It cannot fail: on
the last grid, with seventeen digits, the nearest decimal is always in the interval
(`contains_nearest`), since `2 ^ 53 < 10 ^ 16`.
-/

namespace RelaxedJson

theorem pow_ten_pos (n : Nat) : 0 < 10 ^ n :=
  Nat.pow_pos (by decide)

/-! ## Rounding to the grid -/

theorem roundDiv_cases (num den : Nat) :
    roundDiv num den = num / den ∨ roundDiv num den = num / den + 1 := by
  unfold roundDiv
  simp only
  split
  · exact .inl rfl
  · split
    · exact .inr rfl
    · omega

theorem roundDiv_bounds (num : Nat) {den : Nat} (hden : 0 < den) :
    2 * (roundDiv num den * den) ≤ 2 * num + den ∧ 2 * num ≤ 2 * (roundDiv num den * den) + den := by
  have hdiv : den * (num / den) + num % den = num := Nat.div_add_mod num den
  have hmod : num % den < den := Nat.mod_lt num hden
  unfold roundDiv
  rw [Nat.mul_comm] at hdiv
  simp only
  split
  · omega
  · split
    · rw [Nat.add_mul]
      omega
    · rcases Nat.mod_two_eq_zero_or_one (num / den) with h | h
      · rw [h, Nat.add_zero]
        omega
      · rw [h, Nat.add_mul]
        omega

/-! ## The leading digit -/

theorem lt_pow_length_toDigits (n : Nat) : n < 10 ^ (Nat.toDigits 10 n).length :=
  (Nat.length_toDigits_le_iff (by decide) Nat.length_toDigits_pos).mp (Nat.le_refl _)

theorem pow_length_toDigits_le {n : Nat} (hn : 0 < n) :
    10 ^ ((Nat.toDigits 10 n).length - 1) ≤ n := by
  refine Nat.le_of_not_lt fun hlt => ?_
  have hpos : 0 < (Nat.toDigits 10 n).length := Nat.length_toDigits_pos
  by_cases hone : (Nat.toDigits 10 n).length = 1
  · rw [hone] at hlt
    exact absurd hlt (by omega)
  · have hle := (Nat.length_toDigits_le_iff (by decide) (by omega)).mpr hlt
    omega

namespace RoundingInterval

/-- The power of ten of the leading digit is not above the fraction. -/
theorem pow_leadingExponent_le {num den : Nat} (hnum : 0 < num) (hden : 0 < den) :
    den * 10 ^ (leadingExponent num den).toNat ≤ num * 10 ^ (-leadingExponent num den).toNat := by
  unfold leadingExponent
  split
  · rename_i hle
    have hpos : 0 < (Nat.toDigits 10 (num / den)).length := Nat.length_toDigits_pos
    have hdigits := pow_length_toDigits_le (Nat.div_pos hle hden)
    generalize (Nat.toDigits 10 (num / den)).length = k at hpos hdigits ⊢
    have hexp : ((k : Int) - 1).toNat = k - 1 := by omega
    have hneg : (-((k : Int) - 1)).toNat = 0 := by omega
    rw [hexp, hneg, Nat.pow_zero, Nat.mul_one, Nat.mul_comm]
    exact (Nat.le_div_iff_mul_le hden).mp hdigits
  · have hdigits := lt_pow_length_toDigits ((den - 1) / num)
    generalize (Nat.toDigits 10 ((den - 1) / num)).length = k at hdigits ⊢
    have hexp : (-(k : Int)).toNat = 0 := by omega
    have hneg : (- -(k : Int)).toNat = k := by omega
    rw [Nat.div_lt_iff_lt_mul hnum] at hdigits
    rw [hexp, hneg, Nat.pow_zero, Nat.mul_one, Nat.mul_comm]
    omega

/-- The grid of the seventeenth digit, from the power of ten of the first. -/
theorem grid_le {num den : Nat} {e : Int} (h : den * 10 ^ e.toNat ≤ num * 10 ^ (-e).toNat) :
    den * 10 ^ (e - 16).toNat * 10 ^ 16 ≤ num * 10 ^ (-(e - 16)).toNat := by
  have hshift := pow_ten_shift (e - 16) 16
  rw [show e - 16 + (16 : Nat) = e by omega] at hshift
  refine Nat.le_of_mul_le_mul_right ?_ (pow_ten_pos (-e).toNat)
  calc den * 10 ^ (e - 16).toNat * 10 ^ 16 * 10 ^ (-e).toNat
      = den * (10 ^ 16 * 10 ^ (e - 16).toNat * 10 ^ (-e).toNat) := by
        rw [Nat.mul_assoc den, Nat.mul_assoc den, Nat.mul_comm (10 ^ (e - 16).toNat)]
    _ = den * 10 ^ e.toNat * 10 ^ (-(e - 16)).toNat := by rw [hshift, Nat.mul_assoc]
    _ ≤ num * 10 ^ (-e).toNat * 10 ^ (-(e - 16)).toNat := Nat.mul_le_mul_right _ h
    _ = num * 10 ^ (-(e - 16)).toNat * 10 ^ (-e).toNat := Nat.mul_right_comm _ _ _

/-! ## The search -/

/-- On a grid of at least sixteen more digits than the double, the nearest point is in the
    interval. -/
theorem contains_nearest {x : Binary64} {e : Int}
    (h : unit * 10 ^ e.toNat * 10 ^ 16 ≤ (ofBinary64 x).value * 10 ^ (-e).toNat) :
    (ofBinary64 x).contains ((ofBinary64 x).nearest e) e := by
  have hgrid : 0 < unit * 10 ^ e.toNat := Nat.mul_pos unit_pos (pow_ten_pos _)
  obtain ⟨hlow, hhigh⟩ := roundDiv_bounds ((ofBinary64 x).value * 10 ^ (-e).toNat) hgrid
  have hpoint : (ofBinary64 x).nearest e * 10 ^ e.toNat * unit =
      roundDiv ((ofBinary64 x).value * 10 ^ (-e).toNat) (unit * 10 ^ e.toNat) *
        (unit * 10 ^ e.toNat) := by
    rw [nearest, onGrid, Nat.mul_assoc, Nat.mul_comm (10 ^ e.toNat)]
  rw [value_mul] at h hlow hhigh hpoint
  -- A step of the grid is less than a step between doubles, and less than half of one where the
  -- interval reaches down only a quarter.
  have hm := x.significand_lt
  have hstep : unit * 10 ^ e.toNat < 2 * quartersBelow x * (2 ^ x.scale * 10 ^ (-e).toNat) ∧
      unit * 10 ^ e.toNat < 4 * (2 ^ x.scale * 10 ^ (-e).toNat) := by
    have hmul : x.significand * (2 ^ x.scale * 10 ^ (-e).toNat) ≤
        (2 ^ 53 - 1) * (2 ^ x.scale * 10 ^ (-e).toNat) := Nat.mul_le_mul_right _ (by omega)
    unfold quartersBelow
    split
    · rename_i hpower
      rw [hpower.1] at h
      generalize 2 ^ x.scale * 10 ^ (-e).toNat = w at h hmul ⊢
      omega
    · generalize 2 ^ x.scale * 10 ^ (-e).toNat = w at h hmul ⊢
      omega
  have hstrict : (ofBinary64 x).low * 10 ^ (-e).toNat <
        (ofBinary64 x).nearest e * 10 ^ e.toNat * unit ∧
      (ofBinary64 x).nearest e * 10 ^ e.toNat * unit <
        (ofBinary64 x).high * 10 ^ (-e).toNat := by
    rw [hpoint, low_mul, high_mul]
    rw [Nat.mul_assoc] at hstep
    generalize 2 ^ x.scale * 10 ^ (-e).toNat = w at *
    generalize unit * 10 ^ e.toNat = b at *
    omega
  rw [contains_iff]
  exact ⟨Nat.le_of_lt hstrict.1, Nat.le_of_lt hstrict.2, fun _ => hstrict⟩

theorem contains_of_neighbour? {i : RoundingInterval} {e : Int} {coefficient : Nat}
    (h : i.neighbour? e = some coefficient) : i.contains coefficient e := by
  have hnearest := roundDiv_cases (i.onGrid e).1 (i.onGrid e).2
  unfold neighbour? nearest at h
  generalize roundDiv (i.onGrid e).1 (i.onGrid e).2 = near at h hnearest
  generalize (i.onGrid e).1 / (i.onGrid e).2 = below at h hnearest
  cases hbelow : i.contains below e <;> cases habove : i.contains (below + 1) e <;>
    simp only [hbelow, habove] at h <;> cases h
  · exact habove
  · exact hbelow
  · rcases hnearest with rfl | rfl
    · exact hbelow
    · exact habove

/-- The search ends with a decimal of the interval. -/
theorem search_spec {i : RoundingInterval} {e : Int} {more : Nat}
    (h : i.contains (i.nearest (e - more)) (e - more)) :
    ∃ coefficient e', i.search e more = Significant.ofCoefficient coefficient e' ∧
      i.contains coefficient e' := by
  induction more generalizing e with
  | zero =>
    rw [show e - (0 : Nat) = e by omega] at h
    exact ⟨i.nearest e, e, rfl, h⟩
  | succ more ih =>
    rw [search]
    cases hneighbour : i.neighbour? e with
    | some coefficient => exact ⟨coefficient, e, rfl, contains_of_neighbour? hneighbour⟩
    | none =>
      rw [show e - (more + 1 : Nat) = e - 1 - more by omega] at h
      exact ih h

end RoundingInterval

/-! ## Significant digits -/

namespace Significant

/-- The digits as a whole number. -/
def coefficient (s : Significant) : Nat :=
  Nat.ofDigitChars 10 s.digits 0

/-- The power of ten of the last digit. -/
def lastExponent (s : Significant) : Int :=
  s.exponent + 1 - s.digits.length

/-- There are digits, and the power of ten is small enough to be read back. -/
structure IsProper (s : Significant) : Prop where
  ne_nil : s.digits ≠ []
  isDigit : ∀ c ∈ s.digits, c.isDigit
  exponent_lt : s.exponent.natAbs < 10000

theorem exists_trailingZeros (cs : List Char) :
    ∃ k, cs = (cs.reverse.dropWhile (· = '0')).reverse ++ List.replicate k '0' := by
  refine ⟨(cs.reverse.takeWhile (· = '0')).length, ?_⟩
  have hzeros : cs.reverse.takeWhile (· = '0') =
      List.replicate (cs.reverse.takeWhile (· = '0')).length '0' := by
    rw [List.eq_replicate_iff]
    refine ⟨rfl, fun c hc => ?_⟩
    simpa using List.all_eq_true.mp List.all_takeWhile c hc
  calc cs
      = (cs.reverse.takeWhile (· = '0') ++ cs.reverse.dropWhile (· = '0')).reverse := by
        rw [List.takeWhile_append_dropWhile, List.reverse_reverse]
    _ = (cs.reverse.dropWhile (· = '0')).reverse ++
          List.replicate (cs.reverse.takeWhile (· = '0')).length '0' := by
        rw [List.reverse_append, hzeros, List.reverse_replicate, List.length_replicate]

/-- Dropping zeros at the end does not change what the digits denote. -/
theorem ofCoefficient_spec (c : Nat) (e : Int) :
    ∃ k : Nat, c = (ofCoefficient c e).coefficient * 10 ^ k ∧
      (ofCoefficient c e).lastExponent = e + k := by
  obtain ⟨k, hk⟩ := exists_trailingZeros (Nat.toDigits 10 c)
  have hlen := congrArg List.length hk
  rw [List.length_append, List.length_replicate] at hlen
  refine ⟨k, ?_, ?_⟩
  · calc c
        = Nat.ofDigitChars 10 (Nat.toDigits 10 c) 0 := Nat.ofDigitChars_ten_toDigits.symm
      _ = (ofCoefficient c e).coefficient * 10 ^ k := by
          rw [hk, Nat.ofDigitChars_append, Nat.ofDigitChars_replicate_zero, Nat.mul_comm]
          rfl
  · simp only [lastExponent, ofCoefficient]
    omega

theorem ofCoefficient_isDigit {c : Nat} {e : Int} {d : Char}
    (hd : d ∈ (ofCoefficient c e).digits) : d.isDigit := by
  have hmem : d ∈ (Nat.toDigits 10 c).reverse :=
    (List.dropWhile_sublist _).mem (List.mem_reverse.mp hd)
  exact Nat.isDigit_of_mem_toDigits (by decide) (by decide) (List.mem_reverse.mp hmem)

theorem ofCoefficient_ne_nil {c : Nat} (hc : 0 < c) (e : Int) : (ofCoefficient c e).digits ≠ [] := by
  intro hnil
  obtain ⟨k, hk, -⟩ := ofCoefficient_spec c e
  rw [coefficient, hnil, Nat.ofDigitChars_nil, Nat.zero_mul] at hk
  omega

end Significant

namespace RoundingInterval

variable {x : Binary64} {c : Nat} {e : Int}

theorem low_pos (hx : 0 < x.significand) : 0 < (ofBinary64 x).low := by
  change 0 < (4 * x.significand - quartersBelow x) * 2 ^ x.scale
  refine Nat.mul_pos ?_ (Nat.two_pow_pos _)
  unfold quartersBelow
  split <;> omega

theorem high_le (x : Binary64) : ∃ n ≤ 700, (ofBinary64 x).high ≤ 10 ^ n := by
  have hm := x.significand_lt
  refine ⟨700, Nat.le_refl _, ?_⟩
  calc (ofBinary64 x).high
      ≤ 2 ^ 56 * 2 ^ 2046 :=
        Nat.mul_le_mul (by omega) (Nat.pow_le_pow_right (by decide) x.scale_le)
    _ ≤ 10 ^ 700 := by decide +kernel

theorem unit_le : unit ≤ 10 ^ 400 := by
  decide +kernel

theorem pos_of_contains (hx : 0 < x.significand) (h : (ofBinary64 x).contains c e) : 0 < c := by
  refine Nat.pos_of_ne_zero fun hc => ?_
  have hlow := (contains_iff.mp h).low
  rw [hc, Nat.zero_mul, Nat.zero_mul] at hlow
  have hpos := Nat.mul_pos (low_pos hx) (pow_ten_pos (-e).toNat)
  omega

/-- The powers of ten of leading digits are far from those that cannot be read back. -/
theorem exponent_bounds (hx : 0 < x.significand) (h : (ofBinary64 x).contains c e) :
    -400 ≤ e + (Nat.toDigits 10 c).length ∧ e + (Nat.toDigits 10 c).length ≤ 701 := by
  have hholds := contains_iff.mp h
  have hc := pos_of_contains hx h
  have hupper := lt_pow_length_toDigits c
  have hlower := pow_length_toDigits_le hc
  have hlen : 0 < (Nat.toDigits 10 c).length := Nat.length_toDigits_pos
  generalize (Nat.toDigits 10 c).length = k at *
  constructor
  · have hlt : 10 ^ (-e).toNat < 10 ^ (k + e.toNat + 400) := by
      calc 10 ^ (-e).toNat
          ≤ (ofBinary64 x).low * 10 ^ (-e).toNat := Nat.le_mul_of_pos_left _ (low_pos hx)
        _ ≤ c * 10 ^ e.toNat * unit := hholds.low
        _ ≤ c * 10 ^ e.toNat * 10 ^ 400 := Nat.mul_le_mul_left _ unit_le
        _ < 10 ^ k * 10 ^ e.toNat * 10 ^ 400 :=
            Nat.mul_lt_mul_of_pos_right
              (Nat.mul_lt_mul_of_pos_right hupper (pow_ten_pos _)) (pow_ten_pos 400)
        _ = 10 ^ (k + e.toNat + 400) := by rw [Nat.pow_add, Nat.pow_add]
    have hexp := (Nat.pow_lt_pow_iff_right (by decide)).mp hlt
    omega
  · obtain ⟨n, hn, hhigh⟩ := high_le x
    have hle : 10 ^ (k - 1 + e.toNat) ≤ 10 ^ (n + (-e).toNat) := by
      calc 10 ^ (k - 1 + e.toNat)
          = 10 ^ (k - 1) * 10 ^ e.toNat := Nat.pow_add _ _ _
        _ ≤ c * 10 ^ e.toNat := Nat.mul_le_mul_right _ hlower
        _ ≤ c * 10 ^ e.toNat * unit := Nat.le_mul_of_pos_right _ unit_pos
        _ ≤ (ofBinary64 x).high * 10 ^ (-e).toNat := hholds.high
        _ ≤ 10 ^ n * 10 ^ (-e).toNat := Nat.mul_le_mul_right _ hhigh
        _ = 10 ^ (n + (-e).toNat) := (Nat.pow_add _ _ _).symm
    have hexp := (Nat.pow_le_pow_iff_right (by decide)).mp hle
    omega

end RoundingInterval

/-! ## The shortest digits -/

namespace Binary64

theorem contains_zero {x : Binary64} (hx : x.significand = 0) :
    (RoundingInterval.ofBinary64 x).contains 0 0 := by
  have hlow := RoundingInterval.low_mul x 1
  rw [RoundingInterval.contains_iff, Nat.zero_mul]
  refine ⟨?_, by rw [Nat.zero_mul]; exact Nat.zero_le _, fun hopen => ?_⟩
  · rw [Nat.zero_mul]
    change (RoundingInterval.ofBinary64 x).low * 1 ≤ 0
    rw [hlow, hx]
    omega
  · have hclosed : decide (x.significand % 2 = 0) = false := hopen
    rw [hx] at hclosed
    cases hclosed

/-- The shortest digits of a double can be laid out as a text and lie in its interval. -/
theorem shortest_spec (x : Binary64) : x.shortest.IsProper ∧
    (RoundingInterval.ofBinary64 x).contains x.shortest.coefficient x.shortest.lastExponent := by
  unfold shortest
  split
  · rename_i hzero
    refine ⟨⟨by decide, List.all_eq_true.mp (by decide), by decide⟩, ?_⟩
    exact contains_zero hzero
  · rename_i hne
    have hx := Nat.pos_of_ne_zero hne
    have hvalue : 0 < (RoundingInterval.ofBinary64 x).value :=
      Nat.mul_pos (by omega) (Nat.two_pow_pos _)
    have hgrid := RoundingInterval.grid_le
      (RoundingInterval.pow_leadingExponent_le hvalue RoundingInterval.unit_pos)
    obtain ⟨c, e, hsearch, hcontains⟩ :=
      @RoundingInterval.search_spec _ _ 16 (RoundingInterval.contains_nearest hgrid)
    simp only
    rw [hsearch]
    obtain ⟨k, hk, hlast⟩ := Significant.ofCoefficient_spec c e
    have hc := RoundingInterval.pos_of_contains hx hcontains
    have hbounds := RoundingInterval.exponent_bounds hx hcontains
    refine ⟨⟨Significant.ofCoefficient_ne_nil hc e, fun d => Significant.ofCoefficient_isDigit, ?_⟩, ?_⟩
    · simp only [Significant.ofCoefficient]
      omega
    · rw [hlast, ← RoundingInterval.contains_mul_pow, ← hk]
      exact hcontains

end Binary64

end RelaxedJson
