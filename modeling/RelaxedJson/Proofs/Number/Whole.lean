-- SUMMARY: Which doubles are whole numbers of 64 bits, and that they are written and converted exactly.
import RelaxedJson.Proofs.Number.Notation
import RelaxedJson.Toml.Data
import RelaxedJson.Yaml.Node

/-!
# Whole numbers

The bits of a finite double denote a dyadic rational (`Binary64.toRat`). A double counts as whole if
that is an integer of a magnitude below `2 ^ 63`; this is the range of 64-bit integers without its
lower end (`Binary64.isInt_iff`). The shortest digits of a whole number do not reach behind the point
(`Binary64.shortest_lastExponent_nonneg`), so its text is a sign and digits.
-/

namespace RelaxedJson

/-! ## Exact values -/

namespace Binary64

/-- The exact value of a finite double: `± 1.fraction * 2 ^ (field - 1023)`, or where the exponent
    field is zero `± 0.fraction * 2 ^ -1022`. -/
def toRat (x : Binary64) : ℚ :=
  (if x.negative then -1 else 1) *
    if x.exponentField = 0 then (x.fractionField : ℚ) / 2 ^ 52 * 2 ^ (-1022 : ℤ)
    else (1 + (x.fractionField : ℚ) / 2 ^ 52) * 2 ^ (x.exponentField - 1023 : ℤ)

theorem toRat_eq_scaled (x : Binary64) :
    x.toRat = (if x.negative then -1 else 1) * (x.significand * 2 ^ (x.scale - 1074 : ℤ)) := by
  have htwo : (2 : ℚ) ≠ 0 := two_ne_zero
  have hpoint : (2 : ℚ) ^ (-52 : ℤ) = 1 / 2 ^ 52 := by norm_num
  unfold toRat significand scale
  congr 1
  split
  · rename_i h
    rw [h, show ((0 - 1 : ℕ) : ℤ) - 1074 = -52 + -1022 by decide, zpow_add₀ htwo, hpoint,
      ← mul_assoc, mul_one_div]
  · rename_i h
    have hexponent : ((x.exponentField - 1 : ℕ) : ℤ) - 1074 = -52 + (x.exponentField - 1023) := by
      omega
    rw [hexponent, zpow_add₀ htwo, hpoint, ← mul_assoc, mul_one_div, Nat.cast_add]
    norm_num [add_div, add_comm]

theorem toRat_eq_magnitude (x : Binary64) :
    x.toRat = (if x.negative then -1 else 1) * ((x.magnitude : ℚ) / (2 ^ 1074 : ℕ)) := by
  rw [toRat_eq_scaled, magnitude, zpow_sub₀ two_ne_zero, zpow_natCast, Nat.cast_mul, Nat.cast_pow,
    Nat.cast_pow, mul_div_assoc, Nat.cast_ofNat]
  rfl

/-- A fraction of natural numbers is an integer if it can be divided. -/
theorem div_eq_intCast_iff {m d : ℕ} (hd : 0 < d) {i : ℤ} :
    (m : ℚ) / d = i ↔ m % d = 0 ∧ (m : ℤ) / d = i := by
  have hcast : (m : ℚ) / d = i ↔ (m : ℤ) = i * d := by
    rw [div_eq_iff (by positivity)]
    exact_mod_cast Iff.rfl
  have hdvd : m % d = 0 ↔ (d : ℤ) ∣ m := by
    rw [Int.natCast_dvd_natCast, Nat.dvd_iff_mod_eq_zero]
  rw [hcast, hdvd]
  constructor
  · intro h
    rw [h]
    exact ⟨Int.dvd_mul_left _ _, Int.mul_ediv_cancel _ (by omega)⟩
  · rintro ⟨h, rfl⟩
    exact (Int.ediv_mul_cancel h).symm

/-- The exact value is an integer if nothing is cut off, and then it is what is left. -/
theorem toRat_eq_intCast_iff {x : Binary64} {i : ℤ} :
    x.toRat = i ↔ x.magnitude % 2 ^ 1074 = 0 ∧ x.truncate = i := by
  have hunit : 0 < 2 ^ 1074 := by positivity
  have hpower : ((2 ^ 1074 : ℕ) : ℤ) = 2 ^ 1074 := by rw [Nat.cast_pow, Nat.cast_ofNat]
  rw [toRat_eq_magnitude, truncate, ← hpower]
  generalize 2 ^ 1074 = unit at hunit ⊢
  have hdiv (j : ℤ) := div_eq_intCast_iff (m := x.magnitude) hunit (i := j)
  cases x.negative with
  | false => simpa using hdiv i
  | true =>
    have hneg := hdiv (-i)
    rw [Int.cast_neg] at hneg
    rw [if_pos rfl, neg_one_mul, neg_eq_iff_eq_neg, hneg, if_pos rfl, neg_eq_iff_eq_neg]

theorem isInt_iff_natAbs {x : Binary64} :
    x.isInt ↔ x.isFinite ∧ ∃ i : ℤ, x.toRat = i ∧ i.natAbs < 2 ^ 63 := by
  simp only [isInt, isIntegral, toRat_eq_intCast_iff, Bool.and_eq_true, decide_eq_true_eq]
  constructor
  · rintro ⟨⟨hfinite, hmod⟩, hlt⟩
    exact ⟨hfinite, _, ⟨hmod, rfl⟩, hlt⟩
  · rintro ⟨hfinite, i, ⟨hmod, rfl⟩, hlt⟩
    exact ⟨⟨hfinite, hmod⟩, hlt⟩

/-- The range of 64-bit integers without its lower end is symmetric. -/
theorem natAbs_toInt_lt_iff {i : Int64} : i.toInt.natAbs < 2 ^ 63 ↔ i ≠ Int64.minValue := by
  have hlow := i.le_toInt
  have hhigh := i.toInt_lt
  rw [ne_eq, ← Int64.toInt_inj, Int64.toInt_minValue]
  omega

/-- A double counts as whole exactly if its value is a 64-bit integer, but not the least one. -/
theorem isInt_iff {x : Binary64} :
    x.isInt ↔ x.isFinite ∧ ∃ i : Int64, x.toRat = i.toInt ∧ i ≠ Int64.minValue := by
  rw [isInt_iff_natAbs]
  refine and_congr_right fun _ => ⟨?_, ?_⟩
  · rintro ⟨i, hi, hlt⟩
    have hcast : (Int64.ofInt i).toInt = i := Int64.toInt_ofInt_of_le (by omega) (by omega)
    exact ⟨Int64.ofInt i, by rw [hcast, hi], natAbs_toInt_lt_iff.mp (by rw [hcast]; exact hlt)⟩
  · rintro ⟨i, hi, hne⟩
    exact ⟨i.toInt, hi, natAbs_toInt_lt_iff.mpr hne⟩

end Binary64

/-! ## Texts -/

namespace RoundingInterval

variable {x : Binary64} {q : ℕ}

theorem value_of_whole (h : x.magnitude % 2 ^ 1074 = 0) :
    (ofBinary64 x).value = x.magnitude / 2 ^ 1074 * unit := by
  rw [unit_eq, Nat.mul_left_comm, Nat.div_mul_cancel (Nat.dvd_of_mod_eq_zero h)]
  exact Nat.mul_assoc _ _ _

/-- A double that is a point of the grid of whole numbers is itself the point that is found there. -/
theorem contains_whole (h : (ofBinary64 x).value = q * unit) : (ofBinary64 x).contains q 0 := by
  have hlow := low_mul x 1
  have hvalue := value_mul x 1
  have hhigh := high_mul x 1
  have hpoint : q * 10 ^ (0 : ℤ).toNat * unit = (ofBinary64 x).value * 1 := by
    rw [h, Int.toNat_zero, Nat.pow_zero, Nat.mul_one, Nat.mul_one]
  have hstep : 0 < 2 ^ x.scale * 1 := Nat.mul_pos (Nat.two_pow_pos _) Nat.one_pos
  have hbelow : 0 < quartersBelow x * (2 ^ x.scale * 1) := by
    refine Nat.mul_pos ?_ hstep
    unfold quartersBelow
    split <;> decide
  have hden : 10 ^ (-(0 : ℤ)).toNat = 1 := rfl
  rw [contains_iff, hden]
  refine ⟨by omega, by omega, fun hopen => ?_⟩
  have hclosed : decide (x.significand % 2 = 0) = false := hopen
  have hodd := of_decide_eq_false hclosed
  have hpos : 0 < x.significand * (2 ^ x.scale * 1) := Nat.mul_pos (by omega) hstep
  omega

theorem exists_neighbour? (h : (ofBinary64 x).value = q * unit) :
    ∃ c, (ofBinary64 x).neighbour? 0 = some c := by
  have hbelow : ((ofBinary64 x).onGrid 0).1 / ((ofBinary64 x).onGrid 0).2 = q := by
    rw [onGrid, h, neg_zero, Int.toNat_zero, Nat.pow_zero, Nat.mul_one, Nat.mul_one,
      Nat.mul_div_cancel _ unit_pos]
  unfold neighbour?
  simp only [hbelow, contains_whole h]
  cases (ofBinary64 x).contains (q + 1) 0 <;> exact ⟨_, rfl⟩

/-- The search does not go on behind a grid on which it finds something. -/
theorem search_whole {i : RoundingInterval} {c : ℕ} (hzero : i.neighbour? 0 = some c) {e : ℤ}
    (he : 0 ≤ e) (more : ℕ) :
    ∃ coefficient e', i.search e more = Significant.ofCoefficient coefficient e' ∧ 0 ≤ e' := by
  induction more generalizing e with
  | zero => exact ⟨_, e, rfl, he⟩
  | succ more ih =>
    rw [search]
    cases hneighbour : i.neighbour? e with
    | some coefficient => exact ⟨coefficient, e, rfl, he⟩
    | none =>
      have hne : e ≠ 0 := by
        rintro rfl
        rw [hzero] at hneighbour
        cases hneighbour
      exact ih (by omega)

end RoundingInterval

namespace Binary64

/-- The shortest digits of a whole number end in front of the point. -/
theorem shortest_lastExponent_nonneg {x : Binary64} (h : x.magnitude % 2 ^ 1074 = 0) :
    0 ≤ x.shortest.lastExponent := by
  unfold shortest
  split
  · decide
  · rename_i hne
    have hvalue := RoundingInterval.value_of_whole h
    have hpos : 0 < (RoundingInterval.ofBinary64 x).value :=
      Nat.mul_pos (by omega) (Nat.two_pow_pos _)
    have hle : RoundingInterval.unit ≤ (RoundingInterval.ofBinary64 x).value := by
      rw [hvalue] at hpos ⊢
      exact Nat.le_mul_of_pos_left _ (Nat.pos_of_mul_pos_right hpos)
    have hleading : 0 ≤ RoundingInterval.leadingExponent (RoundingInterval.ofBinary64 x).value
        RoundingInterval.unit := by
      have hlength : 0 < (Nat.toDigits 10
          ((RoundingInterval.ofBinary64 x).value / RoundingInterval.unit)).length :=
        Nat.length_toDigits_pos
      rw [RoundingInterval.leadingExponent, if_pos hle]
      omega
    obtain ⟨c, hc⟩ := RoundingInterval.exists_neighbour? hvalue
    obtain ⟨coefficient, e, hsearch, he⟩ := RoundingInterval.search_whole hc hleading 16
    obtain ⟨k, -, hlast⟩ := Significant.ofCoefficient_spec coefficient e
    simp only
    rw [hsearch, hlast]
    omega

end Binary64

/-- Digits that end in front of the point are written without one. -/
theorem Significant.isDigit_positional {s : Significant} (hproper : s.IsProper)
    (h : 0 ≤ s.lastExponent) : ∀ c ∈ s.positional, c.isDigit := by
  have hlength : 0 < s.digits.length := List.length_pos_iff.mpr hproper.ne_nil
  unfold lastExponent at h
  unfold positional
  rw [if_neg (by omega)]
  simp only
  rw [if_pos (by omega)]
  exact List.forall_mem_append.mpr ⟨hproper.isDigit, fun _ => isDigit_zeros⟩

namespace Binary64

/-- The text of a whole number is a sign and digits. -/
theorem jsonText_of_isInt {x : Binary64} (h : x.isInt) :
    ∃ digits : List Char, (∀ c ∈ digits, c.isDigit) ∧ x.jsonText = x.signed digits := by
  have hfinite := (isInt_iff.mp h).1
  have hnan : ¬ x.isNaN := by
    have hfield : x.exponentField ≠ 2047 := by simpa [isFinite] using hfinite
    simp [isNaN, hfield]
  have hmod : x.magnitude % 2 ^ 1074 = 0 := by
    simp only [isInt, isIntegral, Bool.and_eq_true, decide_eq_true_eq] at h
    exact h.1.2
  refine ⟨x.shortest.positional, ?_, ?_⟩
  · exact Significant.isDigit_positional x.shortest_spec.1 (shortest_lastExponent_nonneg hmod)
  · rw [jsonText, if_neg hnan, if_neg (by simp [hfinite]), if_pos h]

/-- A double counts as whole exactly if its exact value is an integer of 64 bits other than the least.
    To cut off the fraction gives every such integer exactly, the least one included. The text of a
    whole number is a sign and digits without an exponent, and in YAML and TOML it is that integer. -/
theorem isInt_exact (x : Binary64) :
    (x.isInt ↔ x.isFinite ∧ ∃ i : Int64, x.toRat = i.toInt ∧ i ≠ Int64.minValue) ∧
    (∀ i : Int64, x.isFinite → x.toRat = i.toInt → x.truncate = i.toInt ∧
      (i ≠ Int64.minValue →
        (∃ digits : List Char, (∀ c ∈ digits, c.isDigit) ∧ x.jsonText = x.signed digits) ∧
        Yaml.Node.ofNumber x = .scalar .int (Bytes.ofInt i.toInt) ∧
        Toml.Data.ofNumber x = .integer i.toInt)) := by
  refine ⟨isInt_iff, fun i hfinite hi => ?_⟩
  have htruncate : x.truncate = i.toInt := (toRat_eq_intCast_iff.mp hi).2
  refine ⟨htruncate, fun hne => ?_⟩
  have hint : x.isInt := isInt_iff.mpr ⟨hfinite, i, hi, hne⟩
  refine ⟨jsonText_of_isInt hint, ?_, ?_⟩
  · rw [Yaml.Node.ofNumber, if_pos hint, htruncate]
  · rw [Toml.Data.ofNumber, if_pos hint, htruncate]

/-- The greatest double below `2 ^ 63`. -/
def greatestInt : Binary64 := ⟨0x43DFFFFFFFFFFFFF⟩

theorem isInt_exact_greatest :
    greatestInt.isFinite ∧ greatestInt.toRat = (9223372036854774784 : Int64).toInt ∧
    greatestInt.isInt ∧
    (∃ digits : List Char, (∀ c ∈ digits, c.isDigit) ∧
      greatestInt.jsonText = greatestInt.signed digits) ∧
    Toml.Data.ofNumber greatestInt = .integer 9223372036854774784 := by
  have hvalue : greatestInt.toRat = (9223372036854774784 : Int64).toInt :=
    toRat_eq_intCast_iff.mpr ⟨by decide +kernel, by decide +kernel⟩
  obtain ⟨hiff, hexact⟩ := isInt_exact greatestInt
  obtain ⟨-, htext⟩ := hexact 9223372036854774784 rfl hvalue
  obtain ⟨hdigits, -, htoml⟩ := htext (by decide)
  exact ⟨rfl, hvalue, hiff.mpr ⟨rfl, _, hvalue, by decide⟩, hdigits, htoml⟩

/-- The double of the value `-2 ^ 63`. -/
def leastInt : Binary64 := ⟨0xC3E0000000000000⟩

/-- The least integer of 64 bits does not count as whole, and is written with an exponent. -/
theorem not_isInt_leastInt :
    leastInt.isFinite ∧ leastInt.toRat = Int64.minValue.toInt ∧ ¬ leastInt.isInt ∧
    leastInt.jsonText = "-9.223372036854776e+18".toList := by
  refine ⟨rfl, toRat_eq_intCast_iff.mpr ⟨by decide +kernel, by decide +kernel⟩, ?_, ?_⟩
  · decide +kernel
  · decide +kernel

end Binary64

end RelaxedJson
