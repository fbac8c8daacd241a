-- SUMMARY: The texts of doubles are numbers of the grammar and read back as the same doubles.
import RelaxedJson.Number.Notation
import RelaxedJson.Proofs.Lexical.Numerals
import RelaxedJson.Proofs.Number.Shortest

/-!
# Number notation

Positional and exponent notation spell the same digits with the same power of ten. A text in either
is a `Numeral`, and the decimal it denotes lies in every interval that the digits lie in. So the JSON
text of a finite double reads back as the double (`jsonText_spec`).
-/

namespace RelaxedJson

/-! ## Digits -/

theorem le_ofDigitChars (cs : List Char) (init : Nat) : init ≤ Nat.ofDigitChars 10 cs init := by
  induction cs generalizing init with
  | nil => exact Nat.le_of_eq Nat.ofDigitChars_nil.symm
  | cons c cs ih =>
    rw [Nat.ofDigitChars_cons]
    have hle := ih (10 * init + (c.toNat - '0'.toNat))
    omega

theorem ofDigitChars_zeros_append (k : Nat) (cs : List Char) :
    Nat.ofDigitChars 10 (List.replicate k '0' ++ cs) 0 = Nat.ofDigitChars 10 cs 0 := by
  rw [Nat.ofDigitChars_append, Nat.ofDigitChars_replicate_zero, Nat.mul_zero]

/-- Small exponents are read exactly. -/
theorem exponentValue_eq {cs : List Char} (h : Nat.ofDigitChars 10 cs 0 < 10000) :
    Decimal.exponentValue cs = Nat.ofDigitChars 10 cs 0 := by
  have hfold : ∀ (cs : List Char) (init : Nat), Nat.ofDigitChars 10 cs init < 10000 →
      cs.foldl (fun e d => if e < 10000 then 10 * e + (d.toNat - '0'.toNat) else e) init =
        Nat.ofDigitChars 10 cs init := by
    intro cs
    induction cs with
    | nil => intro init _; rw [Nat.ofDigitChars_nil]; rfl
    | cons c cs ih =>
      intro init hlt
      rw [Nat.ofDigitChars_cons] at hlt ⊢
      have hle := le_ofDigitChars cs (10 * init + (c.toNat - '0'.toNat))
      rw [List.foldl_cons, if_pos (by omega), ih _ hlt]
  exact hfold cs 0 h

/-! ## Layouts -/

/-- The text is a number that denotes what the digits denote, with either sign. -/
def Significant.IsWrittenAs (s : Significant) (text : List Char) : Prop :=
  ∀ minus : Bool, ∃ n : Numeral, n.minus = minus ∧ n.chars = Numeral.minusChars minus ++ text ∧
    ∀ i : RoundingInterval, i.contains s.coefficient s.lastExponent →
      i.contains n.decimal.coefficient n.decimal.exponent

namespace Significant

variable {s : Significant}

/-- A text is assembled from its parts; the zeros that fill it up are `k`. -/
theorem isWrittenAs_of_parts {text : List Char} (whole : Digits) (fraction : Option Digits)
    (exponent : Option Exponent) (k : Nat)
    (htext : text = whole.chars ++
      (Numeral.fractionChars fraction ++ Numeral.exponentChars exponent))
    (hcoefficient : Nat.ofDigitChars 10 (whole.chars ++ Numeral.fractionDigits fraction) 0 =
      s.coefficient * 10 ^ k)
    (hexponent : Numeral.exponentInt exponent - (Numeral.fractionDigits fraction).length + k =
      s.lastExponent) : s.IsWrittenAs text := by
  intro minus
  refine ⟨⟨minus, whole, fraction, exponent⟩, rfl, by rw [htext]; rfl, fun i hi => ?_⟩
  change i.contains (Nat.ofDigitChars 10 (whole.chars ++ Numeral.fractionDigits fraction) 0)
    (Numeral.exponentInt exponent - (Numeral.fractionDigits fraction).length)
  rw [hcoefficient, RoundingInterval.contains_mul_pow, hexponent]
  exact hi

theorem isDigit_zeros {k : Nat} {c : Char} (hc : c ∈ List.replicate k '0') : c.isDigit := by
  rw [(List.mem_replicate.mp hc).2]
  rfl

theorem positional_isWrittenAs (h : s.IsProper) : s.IsWrittenAs s.positional := by
  have hlast : s.lastExponent = s.exponent + 1 - s.digits.length := rfl
  have hlen : 0 < s.digits.length := List.length_pos_iff.mpr h.ne_nil
  unfold positional
  split
  · rename_i hneg
    have hdigits : ∀ c ∈ List.replicate ((-s.exponent).toNat - 1) '0' ++ s.digits, c.isDigit :=
      fun c hc => (List.mem_append.mp hc).elim isDigit_zeros (h.isDigit c)
    refine isWrittenAs_of_parts ⟨['0'], nofun, by simp⟩ (some ⟨_, by simp [h.ne_nil], hdigits⟩) none 0
      (by simp [Numeral.fractionChars, Numeral.exponentChars]) ?_ ?_
    · exact (ofDigitChars_zeros_append ((-s.exponent).toNat - 1 + 1) s.digits).trans (by simp [coefficient])
    · simp only [Numeral.exponentInt, Numeral.fractionDigits, List.length_append,
        List.length_replicate, hlast]
      omega
  · rename_i hpos
    simp only
    split
    · rename_i hshort
      have hdigits : ∀ c ∈ s.digits ++ List.replicate (s.exponent.toNat + 1 - s.digits.length) '0',
          c.isDigit := fun c hc => (List.mem_append.mp hc).elim (h.isDigit c) isDigit_zeros
      refine isWrittenAs_of_parts ⟨_, by simp [h.ne_nil], hdigits⟩ none none
        (s.exponent.toNat + 1 - s.digits.length)
        (by simp [Numeral.fractionChars, Numeral.exponentChars]) ?_ ?_
      · rw [Numeral.fractionDigits, List.append_nil, Nat.ofDigitChars_append,
          Nat.ofDigitChars_replicate_zero, Nat.mul_comm]
        rfl
      · simp only [Numeral.exponentInt, Numeral.fractionDigits, List.length_nil, hlast]
        omega
    · rename_i hlong
      refine isWrittenAs_of_parts
        ⟨s.digits.take (s.exponent.toNat + 1), by simp [h.ne_nil],
          fun c hc => h.isDigit c (List.mem_of_mem_take hc)⟩
        (some ⟨s.digits.drop (s.exponent.toNat + 1), by simpa using hlong,
          fun c hc => h.isDigit c (List.mem_of_mem_drop hc)⟩) none 0
        (by simp [Numeral.fractionChars, Numeral.exponentChars]) ?_ ?_
      · rw [Numeral.fractionDigits, List.take_append_drop, Nat.pow_zero, Nat.mul_one]
        rfl
      · simp only [Numeral.exponentInt, Numeral.fractionDigits, List.length_drop, hlast]
        omega

/-- The digits of a power of ten, at least two. -/
def powerDigits (k : Nat) : Digits where
  chars := if (Nat.toDigits 10 k).length < 2 then '0' :: Nat.toDigits 10 k else Nat.toDigits 10 k
  ne_nil := by
    split
    · nofun
    · exact Nat.toDigits_ne_nil
  isDigit := by
    have hdigits : ∀ c ∈ Nat.toDigits 10 k, c.isDigit :=
      fun c hc => Nat.isDigit_of_mem_toDigits (by decide) (by decide) hc
    split
    · exact List.forall_mem_cons.mpr ⟨rfl, hdigits⟩
    · exact hdigits

theorem ofDigitChars_powerDigits (k : Nat) : Nat.ofDigitChars 10 (powerDigits k).chars 0 = k := by
  unfold powerDigits
  simp only
  split
  · exact (ofDigitChars_zeros_append 1 _).trans Nat.ofDigitChars_ten_toDigits
  · exact Nat.ofDigitChars_ten_toDigits

/-- The exponent of exponent notation. -/
def power (e : Int) : Exponent where
  letter := 'e'
  sign := [if e < 0 then '-' else '+']
  digits := powerDigits e.natAbs
  isLetter := rfl
  sign_eq := by split <;> simp

theorem exponentInt_power {e : Int} (he : e.natAbs < 10000) :
    Numeral.exponentInt (some (power e)) = e := by
  have hvalue : Decimal.exponentValue (power e).digits.chars = e.natAbs := by
    have hdigits : Nat.ofDigitChars 10 (power e).digits.chars 0 = e.natAbs :=
      ofDigitChars_powerDigits e.natAbs
    rw [exponentValue_eq (by omega), hdigits]
  rw [Numeral.exponentInt, hvalue]
  by_cases hneg : e < 0
  · rw [if_pos (by simp [power, hneg])]
    omega
  · rw [if_neg (by simp [power, hneg])]
    omega

theorem scientific_isWrittenAs (h : s.IsProper) : s.IsWrittenAs s.scientific := by
  have hlast : s.lastExponent = s.exponent + 1 - s.digits.length := rfl
  unfold scientific
  split
  · rename_i hnil
    exact absurd hnil h.ne_nil
  · rename_i d hdigits
    have hisDigit := h.isDigit
    rw [hdigits] at hisDigit
    refine isWrittenAs_of_parts ⟨[d], List.cons_ne_nil d [], hisDigit⟩ none
      (some (power s.exponent)) 0 rfl ?_ ?_
    · rw [Nat.pow_zero, Nat.mul_one, coefficient, hdigits]
      rfl
    · rw [exponentInt_power h.exponent_lt, hlast, hdigits]
      simp [Numeral.fractionDigits]
  · rename_i d d' r hdigits
    have hisDigit := h.isDigit
    rw [hdigits, List.forall_mem_cons] at hisDigit
    refine isWrittenAs_of_parts ⟨[d], List.cons_ne_nil d [], by simpa using hisDigit.1⟩
      (some ⟨d' :: r, List.cons_ne_nil d' r, hisDigit.2⟩) (some (power s.exponent)) 0 rfl ?_ ?_
    · rw [Nat.pow_zero, Nat.mul_one, coefficient, hdigits]
      rfl
    · rw [exponentInt_power h.exponent_lt, hlast, hdigits]
      simp only [Numeral.fractionDigits, List.length_cons]
      omega

theorem general_isWrittenAs (h : s.IsProper) : s.IsWrittenAs s.general := by
  unfold general
  split
  · exact scientific_isWrittenAs h
  · exact positional_isWrittenAs h

end Significant

/-! ## JSON -/

namespace Binary64

theorem signed_eq (x : Binary64) (text : List Char) :
    x.signed text = Numeral.minusChars x.negative ++ text := by
  unfold signed Numeral.minusChars
  split <;> rfl

theorem jsonText_of_isFinite {x : Binary64} (hx : x.isFinite) :
    ∃ text, x.shortest.IsWrittenAs text ∧ x.jsonText = Numeral.minusChars x.negative ++ text := by
  have hproper := x.shortest_spec.1
  have hnan : ¬ x.isNaN := by
    have hfield : x.exponentField ≠ 2047 := by simpa [isFinite] using hx
    simp [isNaN, hfield]
  unfold jsonText
  rw [if_neg hnan, if_neg (by simp [hx])]
  split
  · exact ⟨_, Significant.positional_isWrittenAs hproper, x.signed_eq _⟩
  · exact ⟨_, Significant.general_isWrittenAs hproper, x.signed_eq _⟩

/-- The text of a finite double is a number and reads back as the double. -/
theorem jsonText_spec {x : Binary64} (hx : x.isFinite) :
    ∃ n : Numeral, x.jsonText = n.chars ∧ ofNumeral n.chars = .ok x := by
  obtain ⟨text, hwritten, htext⟩ := jsonText_of_isFinite hx
  obtain ⟨n, hminus, hchars, hvalue⟩ := hwritten x.negative
  refine ⟨n, htext.trans hchars.symm, ?_⟩
  have hdecimal : n.decimal = ⟨x.negative, n.decimal.coefficient, n.decimal.exponent⟩ := by
    rw [← hminus]
    rfl
  rw [n.ofNumeral_chars, hdecimal,
    Decimal.toBinary64?_of_contains hx (hvalue _ x.shortest_spec.2)]
  rfl

end Binary64

end RelaxedJson
