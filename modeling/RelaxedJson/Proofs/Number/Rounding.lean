-- SUMMARY: Rounding a fraction gives the double in whose interval the fraction lies.
import Mathlib
import RelaxedJson.Number.Decimal
import RelaxedJson.Number.Shortest

/-!
# Rounding

Every finite double has its rounding interval, and `Binary64.roundBits` takes each fraction of the
interval to the double (`roundBits_of_holds`). All inequalities are between natural numbers: fractions
are compared by their cross products.
-/

namespace RelaxedJson

/-! ## Whole numbers -/

/-- What is at most half away is nearest, if a tie goes to an even number. -/
theorem roundDiv_eq {num den r : Nat} (hlow : 2 * (r * den) ≤ 2 * num + den)
    (hhigh : 2 * num ≤ 2 * (r * den) + den)
    (hodd : r % 2 = 1 → 2 * (r * den) < 2 * num + den ∧ 2 * num < 2 * (r * den) + den)
    (hden : 0 < den) : roundDiv num den = r := by
  have hdiv : den * (num / den) + num % den = num := Nat.div_add_mod num den
  have hmod : num % den < den := Nat.mod_lt num hden
  unfold roundDiv
  generalize num / den = w at hdiv ⊢
  generalize num % den = t at hdiv hmod ⊢
  rw [Nat.mul_comm] at hdiv
  -- The nearest number is the quotient or the next one.
  have hcases : r = w ∨ r = w + 1 := by
    have hle : r * den < (w + 2) * den := by rw [Nat.add_mul]; omega
    have hge : w * den < (r + 1) * den := by rw [Nat.add_mul]; omega
    have hr := Nat.lt_of_mul_lt_mul_right hle
    have hw := Nat.lt_of_mul_lt_mul_right hge
    omega
  rcases hcases with rfl | rfl
  · simp only
    split
    · rfl
    · split
      · omega
      · omega
  · rw [Nat.add_mul] at hlow hhigh hodd
    simp only
    split
    · omega
    · split
      · rfl
      · omega

/-! ## Intervals -/

/-- The fraction `num / den` lies in the interval. -/
structure RoundingInterval.Holds (i : RoundingInterval) (num den : Nat) : Prop where
  low : i.low * den ≤ num * unit
  high : num * unit ≤ i.high * den
  inner : i.closed = false → i.low * den < num * unit ∧ num * unit < i.high * den

theorem RoundingInterval.contains_iff {i : RoundingInterval} {coefficient : Nat} {exponent : Int} :
    i.contains coefficient exponent ↔
      i.Holds (coefficient * 10 ^ exponent.toNat) (10 ^ (-exponent).toNat) := by
  unfold contains
  cases hclosed : i.closed with
  | true =>
    simp only [↓reduceIte, Bool.and_eq_true, decide_eq_true_eq]
    exact ⟨fun h => ⟨h.1, h.2, by simp [hclosed]⟩, fun h => ⟨h.low, h.high⟩⟩
  | false =>
    simp only [Bool.false_eq_true, ↓reduceIte, Bool.and_eq_true, decide_eq_true_eq]
    exact ⟨fun h => ⟨Nat.le_of_lt h.1, Nat.le_of_lt h.2, fun _ => h⟩, fun h => h.inner hclosed⟩

/-! ## Fields -/

namespace Binary64

variable {x : Binary64}

/-- The 63 low bits of a number. -/
def lowBits (x : Binary64) : Nat :=
  x.significand + x.scale * 2 ^ 52

theorem significand_lt (x : Binary64) : x.significand < 2 ^ 53 := by
  have hfraction : x.fractionField < 2 ^ 52 := Nat.mod_lt _ (by decide)
  unfold significand
  split <;> omega

theorem le_significand (h : 0 < x.scale) : 2 ^ 52 ≤ x.significand := by
  have hfield : x.exponentField ≠ 0 := fun hzero => by simp [scale, hzero] at h
  rw [significand, if_neg hfield]
  omega

theorem scale_le (x : Binary64) : x.scale ≤ 2046 := by
  have hfield : x.exponentField < 2 ^ 11 := Nat.mod_lt _ (by decide)
  unfold scale
  omega

theorem lowBits_eq (x : Binary64) :
    x.lowBits = x.exponentField * 2 ^ 52 + x.fractionField := by
  unfold lowBits significand scale
  split <;> omega

theorem bits_eq (x : Binary64) :
    x.bits.toNat = x.lowBits + if x.negative then 2 ^ 63 else 0 := by
  have hbits : x.bits.toNat < 2 ^ 64 := x.bits.toNat_lt
  rw [lowBits_eq, exponentField, fractionField]
  by_cases hsign : 2 ^ 63 ≤ x.bits.toNat
  · rw [if_pos (by simpa [negative] using hsign)]
    omega
  · rw [if_neg (by simpa [negative] using hsign)]
    omega

theorem ofMagnitudeBits_lowBits (x : Binary64) : ofMagnitudeBits x.negative x.lowBits = x := by
  rw [ofMagnitudeBits, ← bits_eq, UInt64.ofNat_toNat]

theorem lowBits_lt_of_isFinite (h : x.isFinite) : x.lowBits < infinityBits := by
  have hfield : x.exponentField < 2 ^ 11 := Nat.mod_lt _ (by decide)
  have hfraction : x.fractionField < 2 ^ 52 := Nat.mod_lt _ (by decide)
  have hfinite : x.exponentField ≠ 2047 := by simpa [isFinite] using h
  rw [lowBits_eq, infinityBits]
  omega

theorem isFinite_ofMagnitudeBits {negative : Bool} {low : Nat} (h : low < infinityBits) :
    (ofMagnitudeBits negative low).isFinite := by
  unfold infinityBits at h
  have hbits : (ofMagnitudeBits negative low).bits.toNat =
      low + if negative then 2 ^ 63 else 0 := by
    simp only [ofMagnitudeBits, UInt64.toNat_ofNat']
    split <;> omega
  simp only [isFinite, exponentField, hbits, ne_eq, decide_not, Bool.not_eq_eq_eq_not, Bool.not_true,
    decide_eq_false_iff_not]
  split <;> omega

end Binary64

/-! ## Rounding into the interval -/

namespace RoundingInterval

variable {x : Binary64} {num den : Nat}

theorem unit_eq : unit = 4 * 2 ^ 1074 := by
  decide +kernel

theorem unit_pos : 0 < unit := by
  decide +kernel

/-- The part of a grid step, in quarters, that the interval reaches below the double. -/
def quartersBelow (x : Binary64) : Nat :=
  if x.significand = 2 ^ 52 ∧ 0 < x.scale then 1 else 2

theorem low_mul (x : Binary64) (den : Nat) : (ofBinary64 x).low * den =
    4 * (x.significand * (2 ^ x.scale * den)) - quartersBelow x * (2 ^ x.scale * den) := by
  change (4 * x.significand - quartersBelow x) * 2 ^ x.scale * den = _
  rw [Nat.mul_assoc, Nat.sub_mul, Nat.mul_assoc]

theorem value_mul (x : Binary64) (den : Nat) :
    (ofBinary64 x).value * den = 4 * (x.significand * (2 ^ x.scale * den)) := by
  change 4 * x.significand * 2 ^ x.scale * den = _
  rw [Nat.mul_assoc, Nat.mul_assoc]

theorem high_mul (x : Binary64) (den : Nat) : (ofBinary64 x).high * den =
    4 * (x.significand * (2 ^ x.scale * den)) + 2 * (2 ^ x.scale * den) := by
  change (4 * x.significand + 2) * 2 ^ x.scale * den = _
  rw [Nat.mul_assoc, Nat.add_mul, Nat.mul_assoc]

/-- How far `num / den` is from the double: at most half a step. -/
theorem Holds.bounds (h : (ofBinary64 x).Holds num den) :
    4 * (x.significand * (2 ^ x.scale * den)) ≤
        4 * (num * 2 ^ 1074) + quartersBelow x * (2 ^ x.scale * den) ∧
      4 * (num * 2 ^ 1074) ≤ 4 * (x.significand * (2 ^ x.scale * den)) + 2 * (2 ^ x.scale * den) ∧
      (x.significand % 2 = 1 →
        4 * (x.significand * (2 ^ x.scale * den)) <
            4 * (num * 2 ^ 1074) + quartersBelow x * (2 ^ x.scale * den) ∧
          4 * (num * 2 ^ 1074) <
            4 * (x.significand * (2 ^ x.scale * den)) + 2 * (2 ^ x.scale * den)) := by
  have hunit : num * unit = 4 * (num * 2 ^ 1074) := by
    rewrite [unit_eq]
    generalize 2 ^ 1074 = k
    exact Nat.mul_left_comm num 4 k
  have hclosed : (ofBinary64 x).closed = false ↔ x.significand % 2 = 1 := by
    change decide (x.significand % 2 = 0) = false ↔ _
    rw [decide_eq_false_iff_not]
    omega
  have hlow := h.low
  have hhigh := h.high
  have hinner := h.inner
  rw [low_mul, hunit] at hlow
  rw [high_mul, hunit] at hhigh
  rw [low_mul, high_mul, hunit, hclosed] at hinner
  generalize num * 2 ^ 1074 = n at hlow hhigh hinner ⊢
  generalize 2 ^ x.scale * den = w at hlow hhigh hinner ⊢
  refine ⟨by omega, hhigh, fun hodd => ?_⟩
  have hstrict := hinner hodd
  omega

end RoundingInterval

namespace Binary64

variable {x : Binary64} {num den : Nat}

theorem log2_sub_eq {k s : Nat} (hlow : s = 0 ∨ 2 ^ (52 + s) ≤ k) (hhigh : k < 2 ^ (53 + s)) :
    k.log2 - 52 = s := by
  by_cases hk : k = 0
  · subst hk
    rcases hlow with rfl | hlow
    · rfl
    · exact absurd hlow (Nat.not_le.mpr (Nat.two_pow_pos _))
  · have hlt : k.log2 < 53 + s := (Nat.log2_lt hk).mpr hhigh
    rcases hlow with rfl | hlow
    · omega
    · have hle : 52 + s ≤ k.log2 := (Nat.le_log2 hk).mpr hlow
      omega

/-- Where the grid is the double's own, the double is nearest. -/
theorem roundDiv_of_holds {n w m below : Nat} (hw : 0 < w) (hbelow : below ≤ 2)
    (hlow : 4 * (m * w) ≤ 4 * n + below * w) (hhigh : 4 * n ≤ 4 * (m * w) + 2 * w)
    (hodd : m % 2 = 1 → 4 * (m * w) < 4 * n + below * w ∧ 4 * n < 4 * (m * w) + 2 * w) :
    roundDiv n w = m := by
  have hle : below * w ≤ 2 * w := Nat.mul_le_mul_right w hbelow
  refine roundDiv_eq (by omega) (by omega) (fun hm => ?_) hw
  have hstrict := hodd hm
  omega

/-- Just below a power of two the grid is finer by half, and a fraction within half a step of it is
    rounded up to the power. -/
theorem roundBits_below_power {t : Nat} (hden : 0 < den)
    (hlow : 4 * (2 ^ 52 * (2 * (2 ^ t * den))) ≤ 4 * (num * 2 ^ 1074) + 1 * (2 * (2 ^ t * den)))
    (hbelow : num * 2 ^ 1074 < 2 ^ 52 * (2 * (2 ^ t * den))) :
    roundBits num den = 2 ^ 53 + t * 2 ^ 52 := by
  have hv : 0 < 2 ^ t * den := Nat.mul_pos (Nat.two_pow_pos _) hden
  have hlower : 2 ^ (52 + t) ≤ num * 2 ^ 1074 / den := by
    rw [Nat.le_div_iff_mul_le hden, Nat.pow_add, Nat.mul_assoc]
    omega
  have hupper : num * 2 ^ 1074 / den < 2 ^ (53 + t) := by
    rw [Nat.div_lt_iff_lt_mul hden, Nat.pow_add, Nat.mul_assoc]
    omega
  have hround : roundDiv (num * 2 ^ 1074) (2 ^ t * den) = 2 ^ 53 := by
    refine roundDiv_eq ?_ ?_ (fun hodd => absurd hodd (by decide)) hv
    all_goals
      generalize 2 ^ t * den = v at hlow hbelow ⊢
      omega
  simp only [roundBits, log2_sub_eq (.inr hlower) hupper, Nat.mul_comm den, hround]

/-- Every fraction in the interval of a double is rounded to the double. -/
theorem roundBits_of_holds (hden : 0 < den) (h : (RoundingInterval.ofBinary64 x).Holds num den) :
    roundBits num den = x.lowBits := by
  obtain ⟨hlow, hhigh, hodd⟩ := h.bounds
  have hm := x.significand_lt
  have hbelow : RoundingInterval.quartersBelow x ≤ 2 := by
    unfold RoundingInterval.quartersBelow
    split <;> omega
  have hw : 0 < 2 ^ x.scale * den := Nat.mul_pos (Nat.two_pow_pos _) hden
  have hgrid : ∀ k, 2 ^ (k + x.scale) * den = 2 ^ k * (2 ^ x.scale * den) :=
    fun k => by rw [Nat.pow_add, Nat.mul_assoc]
  have hfloor : num * 2 ^ 1074 / den < 2 ^ (53 + x.scale) := by
    have hmul : x.significand * (2 ^ x.scale * den) ≤ (2 ^ 53 - 1) * (2 ^ x.scale * den) :=
      Nat.mul_le_mul_right _ (by omega)
    rw [Nat.div_lt_iff_lt_mul hden, hgrid]
    generalize 2 ^ x.scale * den = w at hlow hhigh hmul hw ⊢
    omega
  by_cases hown : x.scale = 0 ∨ 2 ^ (52 + x.scale) ≤ num * 2 ^ 1074 / den
  · simp only [roundBits, lowBits, log2_sub_eq hown hfloor, Nat.mul_comm den]
    rw [roundDiv_of_holds hw hbelow hlow hhigh hodd]
  · -- The fraction is below a power of two, where the grid is finer by half.
    obtain ⟨hscale, hbig⟩ := not_or.mp hown
    obtain ⟨t, ht⟩ : ∃ t, x.scale = t + 1 := ⟨x.scale - 1, by omega⟩
    have hm' := le_significand (x := x) (by omega)
    have hstep : 2 ^ x.scale * den = 2 * (2 ^ t * den) := by
      rw [ht, Nat.pow_succ, Nat.mul_comm (2 ^ t), Nat.mul_assoc]
    have hv : 0 < 2 ^ t * den := Nat.mul_pos (Nat.two_pow_pos _) hden
    rw [Nat.not_le, Nat.div_lt_iff_lt_mul hden, hgrid, hstep] at hbig
    rw [hstep] at hlow
    have hpower : x.significand = 2 ^ 52 := by
      have hle : RoundingInterval.quartersBelow x * (2 * (2 ^ t * den)) ≤ 2 * (2 * (2 ^ t * den)) :=
        Nat.mul_le_mul_right _ hbelow
      have hlt : x.significand * (2 * (2 ^ t * den)) < (2 ^ 52 + 1) * (2 * (2 ^ t * den)) := by
        generalize 2 ^ t * den = v at hlow hbig hle hv ⊢
        omega
      have hlt' := Nat.lt_of_mul_lt_mul_right hlt
      omega
    have hquarter : RoundingInterval.quartersBelow x = 1 := if_pos ⟨hpower, by omega⟩
    rw [hpower, hquarter] at hlow
    rw [roundBits_below_power hden hlow hbig, lowBits, hpower, ht]
    omega

end Binary64

/-! ## Decimals -/

/-- Both sides are `10 ^ (exponent + k)` over the same power of ten. -/
theorem pow_ten_shift (exponent : Int) (k : Nat) :
    10 ^ k * 10 ^ exponent.toNat * 10 ^ (-(exponent + k)).toNat =
      10 ^ (exponent + k).toNat * 10 ^ (-exponent).toNat := by
  rw [← Nat.pow_add, ← Nat.pow_add, ← Nat.pow_add]
  congr 1
  omega

namespace RoundingInterval

theorem Holds.scale {i : RoundingInterval} {num den k : Nat} (hk : 0 < k) :
    i.Holds (num * k) (den * k) ↔ i.Holds num den := by
  have hlow : i.low * (den * k) = i.low * den * k := (Nat.mul_assoc _ _ _).symm
  have hhigh : i.high * (den * k) = i.high * den * k := (Nat.mul_assoc _ _ _).symm
  have hnum : num * k * unit = num * unit * k := Nat.mul_right_comm _ _ _
  constructor
  · rintro ⟨h₁, h₂, h₃⟩
    rw [hlow, hnum] at h₁ h₃
    rw [hhigh, hnum] at h₂
    rw [hhigh] at h₃
    exact ⟨Nat.le_of_mul_le_mul_right h₁ hk, Nat.le_of_mul_le_mul_right h₂ hk, fun hclosed =>
      ⟨Nat.lt_of_mul_lt_mul_right (h₃ hclosed).1, Nat.lt_of_mul_lt_mul_right (h₃ hclosed).2⟩⟩
  · rintro ⟨h₁, h₂, h₃⟩
    refine ⟨?_, ?_, fun hclosed => ?_⟩
    · rw [hlow, hnum]
      exact Nat.mul_le_mul_right k h₁
    · rw [hhigh, hnum]
      exact Nat.mul_le_mul_right k h₂
    · rw [hlow, hhigh, hnum]
      exact ⟨Nat.mul_lt_mul_of_pos_right (h₃ hclosed).1 hk,
        Nat.mul_lt_mul_of_pos_right (h₃ hclosed).2 hk⟩

/-- A decimal may be written on a finer grid. -/
theorem contains_mul_pow {i : RoundingInterval} {coefficient k : Nat} {exponent : Int} :
    i.contains (coefficient * 10 ^ k) exponent ↔ i.contains coefficient (exponent + k) := by
  have hten : ∀ n, 0 < 10 ^ n := fun n => Nat.pow_pos (by decide)
  have hnum : coefficient * 10 ^ k * 10 ^ exponent.toNat * 10 ^ (-(exponent + k)).toNat =
      coefficient * 10 ^ (exponent + k).toNat * 10 ^ (-exponent).toNat := by
    rw [Nat.mul_assoc coefficient, Nat.mul_assoc coefficient, pow_ten_shift, Nat.mul_assoc]
  have hden : 10 ^ (-exponent).toNat * 10 ^ (-(exponent + k)).toNat =
      10 ^ (-(exponent + k)).toNat * 10 ^ (-exponent).toNat := Nat.mul_comm _ _
  rw [contains_iff, contains_iff, ← Holds.scale (hten (-(exponent + k)).toNat), hnum, hden,
    Holds.scale (hten (-exponent).toNat)]

end RoundingInterval

namespace Decimal

/-- A decimal in the interval of a finite double denotes the double. -/
theorem toBinary64?_of_contains {x : Binary64} (hx : x.isFinite) {coefficient : Nat}
    {exponent : Int} (h : (RoundingInterval.ofBinary64 x).contains coefficient exponent) :
    toBinary64? ⟨x.negative, coefficient, exponent⟩ = some x := by
  have hround := Binary64.roundBits_of_holds (Nat.pow_pos (by decide))
    (RoundingInterval.contains_iff.mp h)
  rw [toBinary64?, Binary64.ofFraction?, hround, if_pos (Binary64.lowBits_lt_of_isFinite hx),
    Binary64.ofMagnitudeBits_lowBits]

theorem isFinite_of_toBinary64? {d : Decimal} {x : Binary64} (h : d.toBinary64? = some x) :
    x.isFinite := by
  rw [toBinary64?, Binary64.ofFraction?] at h
  split at h
  · rename_i hlt
    cases h
    exact Binary64.isFinite_ofMagnitudeBits hlt
  · cases h

end Decimal

end RelaxedJson
