-- SUMMARY: Reading numbers and names: the readers take the longest number or name of the grammar.
import RelaxedJson.Proofs.Lexical.Grammar

/-!
# Numbers and names

The readers of numbers and names take runs of a class of ASCII characters, each as long as it can
be. What they take is a `Numeral` or a `Name`, and what they leave does not make it longer.
-/

namespace RelaxedJson

/-! ## Classes -/

theorem lt_of_isDigit {c : Char} (h : c.isDigit) : c.toNat < 128 := by
  simp only [Char.isDigit, UInt32.le_iff_toNat_le, ge_iff_le, Bool.and_eq_true, decide_eq_true_eq,
    Char.toNat_val] at h
  have h9 : '9'.toNat = 57 := rfl
  omega

theorem lt_of_isAlpha {c : Char} (h : c.isAlpha) : c.toNat < 128 := by
  simp only [Char.isAlpha, Char.isUpper, Char.isLower, UInt32.le_iff_toNat_le, ge_iff_le,
    Bool.or_eq_true, Bool.and_eq_true, decide_eq_true_eq, Char.toNat_val] at h
  have hZ : 'Z'.toNat = 90 := rfl
  have hz : 'z'.toNat = 122 := rfl
  omega

theorem lt_of_isNameStart {c : Char} (h : Lexeme.isNameStart c) : c.toNat < 128 := by
  simp only [Lexeme.isNameStart, Bool.or_eq_true, decide_eq_true_eq] at h
  rcases h with rfl | h
  · decide
  · exact lt_of_isAlpha h

theorem lt_of_isNameChar {c : Char} (h : Lexeme.isNameChar c) : c.toNat < 128 := by
  simp only [Lexeme.isNameChar, Bool.or_eq_true] at h
  rcases h with h | h
  · exact lt_of_isNameStart h
  · exact lt_of_isDigit h

/-- The signs that an exponent may have. -/
def isExponentSign (c : Char) : Bool :=
  c = '+' || c = '-'

theorem lt_of_isExponentSign {c : Char} (h : isExponentSign c) : c.toNat < 128 := by
  simp only [isExponentSign, Bool.or_eq_true, decide_eq_true_eq] at h
  rcases h with rfl | rfl <;> decide

theorem lt_of_isExponentLetter {c : Char} (h : isExponentLetter c) : c.toNat < 128 := by
  simp only [isExponentLetter, Bool.or_eq_true, decide_eq_true_eq] at h
  rcases h with rfl | rfl <;> decide

/-! ## Parts of numbers -/

theorem Digits.exists_cons (ds : Digits) : ∃ c cs, ds.chars = c :: cs ∧ c.isDigit := by
  obtain ⟨c, cs, h⟩ := List.exists_cons_of_ne_nil ds.ne_nil
  exact ⟨c, cs, h, ds.isDigit c (by rw [h]; exact List.mem_cons_self)⟩

namespace Lexeme

theorem digits_append {cs : List Char} {rest : List Rune} (hcs : ∀ c ∈ cs, c.isDigit)
    (hrest : Rune.Stops Char.isDigit rest) :
    digits (cs.map .valid ++ rest) = (cs.map .valid, rest) := by
  rw [digits, Rune.takeWhile_valid_append hcs hrest, Rune.dropWhile_valid_append hcs hrest]

theorem digits_cases (rs : List Rune) :
    Rune.Stops Char.isDigit rs ∨
      ∃ (ds : Digits) (rest : List Rune), rs = ds.chars.map .valid ++ rest ∧
        Rune.Stops Char.isDigit rest := by
  obtain ⟨cs, rest, rfl, hcs, hrest⟩ := Rune.exists_run Char.isDigit rs
  by_cases hnil : cs = []
  · subst hnil
    exact .inl hrest
  · exact .inr ⟨⟨cs, hnil, hcs⟩, rest, rfl, hrest⟩

theorem minus_of_digit {c : Char} (hc : c.isDigit) (rs : List Rune) :
    minus (.valid c :: rs) = ([], .valid c :: rs) := by
  unfold minus
  split
  · rename_i heq
    cases heq
    cases hc
  · rfl

theorem fraction_of_digits (ds : Digits) {rest : List Rune} (hrest : Rune.Stops Char.isDigit rest) :
    fraction (.valid '.' :: (ds.chars.map .valid ++ rest)) =
      (.valid '.' :: ds.chars.map .valid, rest) := by
  rw [fraction, digits_append ds.isDigit hrest, if_neg]
  simpa using ds.ne_nil

theorem fraction_none {rs : List Rune}
    (h : ∀ more, rs = .valid '.' :: more → Rune.Stops Char.isDigit more) :
    fraction rs = ([], rs) := by
  unfold fraction
  split
  · rename_i rs
    have hdigits : digits rs = ([], rs) := @digits_append [] rs nofun (h rs rfl)
    rw [hdigits, if_pos rfl]
  · rfl

theorem exists_fraction {rs : List Rune} (hrs : Rune.Stops Char.isDigit rs) :
    ∃ f rest, rs = (Numeral.fractionChars f).map .valid ++ rest ∧ Rune.Stops Char.isDigit rest ∧
      (f = none → ∀ more, rest = .valid '.' :: more → Rune.Stops Char.isDigit more) := by
  by_cases hpoint : ∃ more, rs = .valid '.' :: more ∧ ¬ Rune.Stops Char.isDigit more
  · obtain ⟨more, rfl, hmore⟩ := hpoint
    rcases digits_cases more with hstops | ⟨ds, rest, rfl, hrest⟩
    · exact absurd hstops hmore
    · exact ⟨some ds, rest, rfl, hrest, nofun⟩
  · refine ⟨none, rs, rfl, hrs, fun _ more hmore => ?_⟩
    by_contra hnot
    exact hpoint ⟨more, hmore, hnot⟩

theorem exponentSign_append {sign : List Char} (hsign : sign = [] ∨ sign = ['+'] ∨ sign = ['-'])
    {rest : List Rune} (hrest : sign = [] → Rune.Stops isExponentSign rest) :
    exponentSign (sign.map .valid ++ rest) = (sign.map .valid, rest) := by
  rcases hsign with rfl | rfl | rfl
  · have hstops := hrest rfl
    change exponentSign rest = ([], rest)
    unfold exponentSign
    split
    · cases hstops _ rfl
    · cases hstops _ rfl
    · rfl
  · rfl
  · rfl

theorem exponentSign_cases (rs : List Rune) :
    ∃ sign rest, (sign = [] ∨ sign = ['+'] ∨ sign = ['-']) ∧
      (sign = [] → Rune.Stops isExponentSign rest) ∧ rs = sign.map .valid ++ rest := by
  by_cases hstops : Rune.Stops isExponentSign rs
  · exact ⟨[], rs, .inl rfl, fun _ => hstops, rfl⟩
  · obtain ⟨c, rest, rfl, hc⟩ := Rune.exists_of_not_stops hstops
    simp only [isExponentSign, Bool.or_eq_true, decide_eq_true_eq] at hc
    rcases hc with rfl | rfl
    · exact ⟨['+'], rest, .inr (.inl rfl), nofun, rfl⟩
    · exact ⟨['-'], rest, .inr (.inr rfl), nofun, rfl⟩

theorem exponentMark_of_letter {c : Char} (hc : isExponentLetter c) (rs : List Rune) :
    exponentMark (.valid c :: rs) = (.valid c :: (exponentSign rs).1, (exponentSign rs).2) := by
  simp only [isExponentLetter, Bool.or_eq_true, decide_eq_true_eq] at hc
  rcases hc with rfl | rfl <;> rfl

theorem exponentMark_none {rs : List Rune} (h : Rune.Stops isExponentLetter rs) :
    exponentMark rs = ([], rs) := by
  unfold exponentMark
  split
  · cases h _ rfl
  · cases h _ rfl
  · rfl

theorem exponentMark_append {letter : Char} (hletter : isExponentLetter letter) {sign : List Char}
    (hsign : sign = [] ∨ sign = ['+'] ∨ sign = ['-']) {rest : List Rune}
    (hrest : sign = [] → Rune.Stops isExponentSign rest) :
    exponentMark (.valid letter :: (sign.map .valid ++ rest)) =
      (.valid letter :: sign.map .valid, rest) := by
  rw [exponentMark_of_letter hletter, exponentSign_append hsign hrest]

/-! ## Numbers -/

theorem number_eq {rs rs₁ rs₂ rs₃ rs₄ sign whole frac mark : List Rune}
    (hsign : minus rs = (sign, rs₁)) (hwhole : digits rs₁ = (whole, rs₂))
    (hfrac : fraction rs₂ = (frac, rs₃)) (hmark : exponentMark rs₃ = (mark, rs₄)) :
    number rs =
      if whole = [] then .error ⟨[], .missingDigitAfterMinus⟩
      else if mark = [] then ofNumeral (sign ++ whole ++ frac ++ mark)
      else if (digits rs₄).1 = [] then .error ⟨sign ++ whole ++ frac ++ mark, .missingExponentDigits⟩
      else ofNumeral (sign ++ whole ++ frac ++ mark ++ (digits rs₄).1) := by
  simp only [number, hsign, hwhole, hfrac, hmark]

end Lexeme

/-- The runes `rest` do not make the number longer. -/
structure Numeral.EndsBeforeRunes (n : Numeral) (rest : List Rune) : Prop where
  digit : Rune.Stops Char.isDigit rest
  letter : n.exponent = none → Rune.Stops isExponentLetter rest
  point : n.exponent = none → n.fraction = none →
    ∀ more, rest = .valid '.' :: more → Rune.Stops Char.isDigit more

theorem Numeral.endsBeforeRunes_decode_iff {n : Numeral} {rest : Bytes} :
    n.EndsBeforeRunes (Rune.decode rest) ↔ n.EndsBefore rest := by
  constructor
  · intro h
    refine ⟨?_, fun he => ?_, fun he hf more hmore => ?_⟩
    · exact (Rune.stops_decode_iff fun c => lt_of_isDigit).mp h.digit
    · exact (Rune.stops_decode_iff fun c => lt_of_isExponentLetter).mp (h.letter he)
    · subst hmore
      exact (Rune.stops_decode_iff fun c => lt_of_isDigit).mp
        (h.point he hf _ (Rune.decode_ascii_cons (by decide) more))
  · intro h
    refine ⟨?_, fun he => ?_, fun he hf more hmore => ?_⟩
    · exact (Rune.stops_decode_iff fun c => lt_of_isDigit).mpr h.digit
    · exact (Rune.stops_decode_iff fun c => lt_of_isExponentLetter).mpr (h.letter he)
    · obtain ⟨cs, rfl, rfl⟩ := Rune.decode_eq_ascii_cons (by decide) hmore
      exact (Rune.stops_decode_iff fun c => lt_of_isDigit).mpr (h.point he hf cs rfl)

/-- The number breaks off behind the letter and the sign of its exponent, in front of `rest`. -/
structure Numeral.BreaksOff (n : Numeral) (letter : Char) (sign : List Char) (rest : Bytes) :
    Prop where
  exponent : n.exponent = none
  isLetter : isExponentLetter letter
  sign_eq : sign = [] ∨ sign = ['+'] ∨ sign = ['-']
  digit : ¬ rest.StartsWith Char.isDigit
  noSign : sign = [] → ¬ rest.StartsWith isExponentSign

/-- The number breaks off behind the letter and the sign of its exponent, in front of the runes
    `rest`. -/
structure Numeral.BreaksOffRunes (n : Numeral) (letter : Char) (sign : List Char)
    (rest : List Rune) : Prop where
  exponent : n.exponent = none
  isLetter : isExponentLetter letter
  sign_eq : sign = [] ∨ sign = ['+'] ∨ sign = ['-']
  digit : Rune.Stops Char.isDigit rest
  noSign : sign = [] → Rune.Stops isExponentSign rest

theorem Numeral.breaksOffRunes_decode_iff {n : Numeral} {letter : Char} {sign : List Char}
    {rest : Bytes} :
    n.BreaksOffRunes letter sign (Rune.decode rest) ↔ n.BreaksOff letter sign rest := by
  have hdigit : Rune.Stops Char.isDigit (Rune.decode rest) ↔ ¬ rest.StartsWith Char.isDigit :=
    Rune.stops_decode_iff fun c => lt_of_isDigit
  have hsign : Rune.Stops isExponentSign (Rune.decode rest) ↔ ¬ rest.StartsWith isExponentSign :=
    Rune.stops_decode_iff fun c => lt_of_isExponentSign
  constructor
  · intro h
    exact ⟨h.exponent, h.isLetter, h.sign_eq, hdigit.mp h.digit,
      fun hnil => hsign.mp (h.noSign hnil)⟩
  · intro h
    exact ⟨h.exponent, h.isLetter, h.sign_eq, hdigit.mpr h.digit,
      fun hnil => hsign.mpr (h.noSign hnil)⟩

theorem not_isDigit_of_isExponentLetter {c : Char} (hc : isExponentLetter c) :
    c.isDigit = false := by
  simp only [isExponentLetter, Bool.or_eq_true, decide_eq_true_eq] at hc
  rcases hc with rfl | rfl <;> rfl

theorem not_isExponentSign_of_isDigit {c : Char} (hc : c.isDigit) : isExponentSign c = false := by
  refine Bool.eq_false_iff.mpr fun hsign => ?_
  simp only [isExponentSign, Bool.or_eq_true, decide_eq_true_eq] at hsign
  rcases hsign with rfl | rfl <;> cases hc

theorem Rune.stops_digits {p : Char → Bool} (ds : Digits) (hp : ∀ {c : Char}, c.isDigit → p c = false)
    (rest : List Rune) : Stops p (ds.chars.map .valid ++ rest) := by
  obtain ⟨c, cs, hchars, hc⟩ := ds.exists_cons
  rw [hchars]
  exact stops_valid_cons (hp hc) _

namespace Numeral

variable {rest : List Rune}

theorem stops_fractionChars (h : Rune.Stops Char.isDigit rest) (f : Option Digits) :
    Rune.Stops Char.isDigit ((fractionChars f).map .valid ++ rest) := by
  cases f with
  | none => exact h
  | some f => exact Rune.stops_valid_cons rfl _

theorem minus_read (m : Bool) (ds : Digits) (rest : List Rune) :
    Lexeme.minus ((minusChars m).map .valid ++ (ds.chars.map .valid ++ rest)) =
      ((minusChars m).map .valid, ds.chars.map .valid ++ rest) := by
  cases m with
  | true => rfl
  | false =>
    obtain ⟨c, cs, hchars, hc⟩ := ds.exists_cons
    rw [hchars]
    exact Lexeme.minus_of_digit hc _

end Numeral

namespace Lexeme

/-- The reader takes all of a number in front of its exponent. -/
theorem number_mantissa {n : Numeral} (hn : n.exponent = none) {rest mark rs : List Rune}
    (hdigit : Rune.Stops Char.isDigit rest)
    (hpoint : n.fraction = none → ∀ more, rest = .valid '.' :: more → Rune.Stops Char.isDigit more)
    (hmark : exponentMark rest = (mark, rs)) :
    number (n.chars.map .valid ++ rest) =
      if mark = [] then ofNumeral (n.chars.map .valid)
      else if (digits rs).1 = [] then
        .error ⟨n.chars.map .valid ++ mark, .missingExponentDigits⟩
      else ofNumeral (n.chars.map .valid ++ mark ++ (digits rs).1) := by
  have hchars : n.chars = Numeral.minusChars n.minus ++ (n.whole.chars ++
      Numeral.fractionChars n.fraction) := by
    simp [Numeral.chars, Numeral.exponentChars, hn]
  have hsplit : n.chars.map Rune.valid ++ rest =
      (Numeral.minusChars n.minus).map .valid ++ (n.whole.chars.map .valid ++
        ((Numeral.fractionChars n.fraction).map .valid ++ rest)) := by
    simp [hchars]
  have hfraction : fraction ((Numeral.fractionChars n.fraction).map .valid ++ rest) =
      ((Numeral.fractionChars n.fraction).map .valid, rest) := by
    cases hf : n.fraction with
    | some f => exact fraction_of_digits f hdigit
    | none => exact fraction_none (hpoint hf)
  have hne : n.whole.chars.map Rune.valid ≠ [] := by simpa using n.whole.ne_nil
  rw [hsplit, number_eq (Numeral.minus_read n.minus n.whole _)
    (digits_append n.whole.isDigit (Numeral.stops_fractionChars hdigit n.fraction)) hfraction hmark,
    if_neg hne]
  by_cases hnil : mark = [] <;> simp [hchars, hnil]

theorem stops_exponentMark {letter : Char} (h : isExponentLetter letter) (rest : List Rune) :
    Rune.Stops Char.isDigit (.valid letter :: rest) ∧
      ∀ more, .valid letter :: rest = .valid '.' :: more → Rune.Stops Char.isDigit more := by
  refine ⟨Rune.stops_valid_cons (not_isDigit_of_isExponentLetter h) rest, fun more hmore => ?_⟩
  cases hmore
  cases h

/-- The reader takes a number up to where it ends. -/
theorem number_of_numeral {n : Numeral} {rest : List Rune} (h : n.EndsBeforeRunes rest) :
    number (n.chars.map .valid ++ rest) = ofNumeral (n.chars.map .valid) := by
  cases hexponent : n.exponent with
  | none =>
    rw [number_mantissa hexponent h.digit (h.point hexponent)
      (exponentMark_none (h.letter hexponent)), if_pos rfl]
  | some e =>
    have hchars : n.chars = { n with exponent := none }.chars ++
        (e.letter :: (e.sign ++ e.digits.chars)) := by
      simp [Numeral.chars, Numeral.exponentChars, hexponent]
    have hsplit : n.chars.map Rune.valid ++ rest = { n with exponent := none }.chars.map .valid ++
        (.valid e.letter :: (e.sign.map .valid ++ (e.digits.chars.map .valid ++ rest))) := by
      simp [hchars]
    obtain ⟨hdigit, hpoint⟩ := stops_exponentMark e.isLetter
      (e.sign.map .valid ++ (e.digits.chars.map .valid ++ rest))
    have hmark := exponentMark_append e.isLetter e.sign_eq fun _ =>
      Rune.stops_digits e.digits not_isExponentSign_of_isDigit rest
    rw [hsplit, number_mantissa rfl hdigit (fun _ => hpoint) hmark, if_neg nofun,
      digits_append e.digits.isDigit h.digit, if_neg (by simpa using e.digits.ne_nil)]
    simp [hchars]

/-- The reader misses the digits of an exponent. -/
theorem number_of_breaksOff {n : Numeral} {letter : Char} {sign : List Char} {rest : List Rune}
    (h : n.BreaksOffRunes letter sign rest) :
    number (n.chars.map .valid ++ .valid letter :: (sign.map .valid ++ rest)) =
      .error ⟨n.chars.map .valid ++ .valid letter :: sign.map .valid, .missingExponentDigits⟩ := by
  obtain ⟨hdigit, hpoint⟩ := stops_exponentMark h.isLetter (sign.map .valid ++ rest)
  have hdigits : digits rest = ([], rest) := @digits_append [] rest nofun h.digit
  rw [number_mantissa h.exponent hdigit (fun _ => hpoint)
    (exponentMark_append h.isLetter h.sign_eq h.noSign), if_neg nofun, hdigits, if_pos rfl]

theorem number_of_minus {rest : List Rune} (h : Rune.Stops Char.isDigit rest) :
    number (.valid '-' :: rest) = .error ⟨[], .missingDigitAfterMinus⟩ := by
  have hdigits : digits rest = ([], rest) := @digits_append [] rest nofun h
  have hminus : minus (.valid '-' :: rest) = ([.valid '-'], rest) := rfl
  rw [number_eq hminus hdigits rfl rfl, if_pos rfl]

/-- A text that starts like a number starts with one, or with one whose exponent breaks off, or with
    a lone minus sign. -/
theorem number_cases {c : Char} (hc : c = '-' ∨ c.isDigit) (rs : List Rune) :
    (c = '-' ∧ Rune.Stops Char.isDigit rs) ∨
    (∃ (n : Numeral) (letter : Char) (sign : List Char) (rest : List Rune),
      n.BreaksOffRunes letter sign rest ∧
      .valid c :: rs = n.chars.map .valid ++ .valid letter :: (sign.map .valid ++ rest)) ∨
    ∃ (n : Numeral) (rest : List Rune), n.EndsBeforeRunes rest ∧
      .valid c :: rs = n.chars.map .valid ++ rest := by
  obtain ⟨m, rs₁, hsplit, hminus⟩ : ∃ m rs₁,
      .valid c :: rs = (Numeral.minusChars m).map .valid ++ rs₁ ∧
        (Rune.Stops Char.isDigit rs₁ → c = '-' ∧ Rune.Stops Char.isDigit rs) := by
    rcases hc with rfl | hdigit
    · exact ⟨true, rs, rfl, fun hstops => ⟨rfl, hstops⟩⟩
    · refine ⟨false, .valid c :: rs, rfl, fun hstops => ?_⟩
      exact absurd hdigit (Bool.eq_false_iff.mp (hstops _ rfl))
  rcases digits_cases rs₁ with hstops | ⟨whole, rs₂, rfl, hstops⟩
  · exact .inl (hminus hstops)
  · obtain ⟨f, rs₃, rfl, hdigit, hpoint⟩ := exists_fraction hstops
    refine .inr ?_
    by_cases hplain : Rune.Stops isExponentLetter rs₃
    · refine .inr ⟨⟨m, whole, f, none⟩, rs₃, ⟨hdigit, fun _ => hplain, fun _ => hpoint⟩, ?_⟩
      rw [hsplit]
      simp [Numeral.chars, Numeral.exponentChars]
    · obtain ⟨letter, rs₄, rfl, hletter⟩ := Rune.exists_of_not_stops hplain
      obtain ⟨sign, rs₅, hsigns, hnoSign, rfl⟩ := exponentSign_cases rs₄
      rcases digits_cases rs₅ with hstops' | ⟨ds, rs₆, rfl, hstops'⟩
      · refine .inl ⟨⟨m, whole, f, none⟩, letter, sign, rs₅,
          ⟨rfl, hletter, hsigns, hstops', hnoSign⟩, ?_⟩
        rw [hsplit]
        simp [Numeral.chars, Numeral.exponentChars]
      · refine .inr ⟨⟨m, whole, f, some ⟨letter, sign, ds, hletter, hsigns⟩⟩, rs₆,
          ⟨hstops', nofun, nofun⟩, ?_⟩
        rw [hsplit]
        simp [Numeral.chars, Numeral.exponentChars]

/-- What the reader takes is a number that ends there. -/
theorem numeral_of_number {c : Char} (hc : c = '-' ∨ c.isDigit) {rs : List Rune} {l : Lexeme}
    (h : number (.valid c :: rs) = .ok l) :
    ∃ (n : Numeral) (rest : List Rune), .valid c :: rs = n.chars.map .valid ++ rest ∧
      ofNumeral (n.chars.map .valid) = .ok l ∧ n.EndsBeforeRunes rest := by
  rcases number_cases hc rs with
    ⟨rfl, hstops⟩ | ⟨n, letter, sign, rest, hbreak, hsplit⟩ | ⟨n, rest, hends, hsplit⟩
  · rw [number_of_minus hstops] at h
    cases h
  · rw [hsplit, number_of_breaksOff hbreak] at h
    cases h
  · rw [hsplit, number_of_numeral hends] at h
    exact ⟨n, rest, hsplit, h, hends⟩

/-! ## Names -/

/-- The lexeme that a name is. -/
def ofName (d : Dialect) (chars : List Char) : Except LexicalFault Lexeme :=
  match keyword? chars with
  | some kind => .ok { kind, runes := chars.map .valid }
  | none =>
    if d.unquotedKeys then .ok { kind := .identifier, runes := chars.map .valid }
    else .error ⟨[], .unquotedIdentifier (Rune.encode (chars.map .valid))⟩

theorem map_char_valid (cs : List Char) : (cs.map Rune.valid).map Rune.char = cs := by
  rw [List.map_map]
  exact List.map_id cs

/-- The reader takes a name up to where it ends. -/
theorem name_append {cs : List Char} {rest : List Rune} (hcs : ∀ c ∈ cs, isNameChar c)
    (hrest : Rune.Stops isNameChar rest) (d : Dialect) :
    name d (cs.map .valid ++ rest) = ofName d cs := by
  cases hkey : keyword? cs <;>
    simp only [name, ofName, Rune.takeWhile_valid_append hcs hrest, map_char_valid, hkey]

theorem isNameChar_of_isNameStart {c : Char} (h : isNameStart c) : isNameChar c := by
  rw [isNameChar, h]
  rfl

theorem name_of_name (n : Name) {rest : List Rune} (hrest : Rune.Stops isNameChar rest)
    (d : Dialect) : name d (n.chars.map .valid ++ rest) = ofName d n.chars := by
  refine name_append (fun c hc => ?_) hrest d
  rcases List.mem_cons.mp hc with rfl | hc
  · exact isNameChar_of_isNameStart n.isNameStart
  · exact n.isNameChar c hc

/-- What the reader takes is a name that ends there. -/
theorem exists_name {c : Char} (hc : isNameStart c) (rs : List Rune) (d : Dialect) :
    ∃ (n : Name) (rest : List Rune), .valid c :: rs = n.chars.map .valid ++ rest ∧
      name d (.valid c :: rs) = ofName d n.chars ∧ Rune.Stops isNameChar rest := by
  obtain ⟨cs, rest, rfl, hcs, hrest⟩ := Rune.exists_run isNameChar rs
  exact ⟨⟨c, cs, hc, hcs⟩, rest, rfl, name_of_name ⟨c, cs, hc, hcs⟩ hrest d, hrest⟩

end Lexeme

/-! ## Values -/

namespace Numeral

/-- The digits behind the point. -/
def fractionDigits : Option Digits → List Char
  | none   => []
  | some f => f.chars

/-- The power of ten that is written. -/
def exponentInt : Option Exponent → Int
  | none   => 0
  | some e =>
    if e.sign = ['-'] then -(Decimal.exponentValue e.digits.chars : Int)
    else Decimal.exponentValue e.digits.chars

/-- The decimal that a number denotes. -/
def decimal (n : Numeral) : Decimal :=
  { negative := n.minus
    coefficient := Nat.ofDigitChars 10 (n.whole.chars ++ fractionDigits n.fraction) 0
    exponent := exponentInt n.exponent - (fractionDigits n.fraction).length }

theorem splitSign_of_digits (ds : Digits) (cs : List Char) :
    Decimal.splitSign (ds.chars ++ cs) = (false, ds.chars ++ cs) := by
  obtain ⟨c, cs', hchars, hc⟩ := ds.exists_cons
  rw [hchars, List.cons_append]
  unfold Decimal.splitSign
  split
  · rename_i heq
    cases heq
    cases hc
  · rename_i heq
    cases heq
    cases hc
  · rfl

theorem splitSign_minusChars (m : Bool) (ds : Digits) (cs : List Char) :
    Decimal.splitSign (minusChars m ++ (ds.chars ++ cs)) = (m, ds.chars ++ cs) := by
  cases m with
  | true => rfl
  | false => exact splitSign_of_digits ds cs

theorem splitSign_exponent (e : Exponent) :
    Decimal.splitSign (e.sign ++ e.digits.chars) = (decide (e.sign = ['-']), e.digits.chars) := by
  have hdigits := splitSign_of_digits e.digits []
  rw [List.append_nil] at hdigits
  rcases e.sign_eq with h | h | h
  · rw [h]
    exact hdigits
  · rw [h]
    rfl
  · rw [h]
    rfl

theorem exponent?_exponentChars (e : Option Exponent) :
    Decimal.exponent? (exponentChars e) = some (exponentInt e) := by
  cases e with
  | none => rfl
  | some e =>
    have hletter := e.isLetter
    simp only [isExponentLetter, Bool.or_eq_true, decide_eq_true_eq] at hletter
    have hdigits : e.digits.chars.all Char.isDigit := List.all_eq_true.mpr e.digits.isDigit
    simp only [exponentChars, Decimal.exponent?, splitSign_exponent, exponentInt,
      if_pos (And.intro hletter (And.intro e.digits.ne_nil hdigits)), decide_eq_true_eq]

theorem splitDigits_append {cs rest : List Char} (hcs : ∀ c ∈ cs, c.isDigit)
    (hrest : ∀ c ∈ rest.head?, c.isDigit = false) : Decimal.splitDigits (cs ++ rest) = (cs, rest) := by
  rw [Decimal.splitDigits, takeWhile_append_exact hcs hrest, dropWhile_append_exact hcs hrest]

theorem not_isDigit_exponentChars (e : Option Exponent) :
    ∀ c ∈ (exponentChars e).head?, c.isDigit = false := by
  cases e with
  | none => nofun
  | some e =>
    intro c hc
    cases hc
    exact not_isDigit_of_isExponentLetter e.isLetter

theorem not_isDigit_fractionChars (f : Option Digits) (e : Option Exponent) :
    ∀ c ∈ (fractionChars f ++ exponentChars e).head?, c.isDigit = false := by
  cases f with
  | none => exact not_isDigit_exponentChars e
  | some f =>
    intro c hc
    cases hc
    rfl

theorem splitFraction_append (f : Option Digits) (e : Option Exponent) :
    Decimal.splitFraction (fractionChars f ++ exponentChars e) =
      (fractionDigits f, exponentChars e) := by
  cases f with
  | some f => exact splitDigits_append f.isDigit (not_isDigit_exponentChars e)
  | none =>
    unfold Decimal.splitFraction
    split
    · rename_i heq
      cases e with
      | none => cases heq
      | some e =>
        have hpoint : e.letter = '.' := (List.cons.inj heq).1
        have hletter := e.isLetter
        rw [hpoint] at hletter
        cases hletter
    · rfl

/-- A number denotes a decimal. -/
theorem read?_chars (n : Numeral) : Decimal.read? n.chars = some n.decimal := by
  have hwhole := splitDigits_append n.whole.isDigit
    (not_isDigit_fractionChars n.fraction n.exponent)
  have hne : ¬ (n.whole.chars = [] ∧ fractionDigits n.fraction = []) := fun h => n.whole.ne_nil h.1
  simp only [Decimal.read?, chars, splitSign_minusChars, hwhole, splitFraction_append, if_neg hne,
    exponent?_exponentChars, Option.map_some]
  rfl

end Numeral

theorem match_read_eq (value : Decimal → Option Binary64) (o : Option Decimal) :
    (match o with
      | none => Except.error NumeralError.malformed
      | some d =>
        match value d with
        | none   => .error .outOfRange
        | some x => .ok x) =
      o.elim (.error .malformed) fun d => (value d).elim (.error .outOfRange) .ok := by
  cases o with
  | none => rfl
  | some d =>
    simp only [Option.elim_some]
    cases value d <;> rfl

-- By way of any `value`, so that the comparison with the largest double is never evaluated.
theorem Binary64.ofNumeral_eq (text : List Char) :
    Binary64.ofNumeral text = (Decimal.read? text).elim (.error .malformed) fun d =>
      d.toBinary64?.elim (.error .outOfRange) .ok :=
  match_read_eq Decimal.toBinary64? (Decimal.read? text)

theorem Numeral.ofNumeral_chars (n : Numeral) :
    Binary64.ofNumeral n.chars = n.decimal.toBinary64?.elim (.error .outOfRange) .ok := by
  rw [Binary64.ofNumeral_eq, read?_chars, Option.elim_some]

end RelaxedJson
