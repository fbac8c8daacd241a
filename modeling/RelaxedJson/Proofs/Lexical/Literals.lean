-- SUMMARY: What is written as a literal is a string body, and reads back.
import RelaxedJson.Proofs.Lexical.Strings

/-!
# Literals

How `Escape.unescape` goes over a string body step by step, and what stands behind a backslash there.
The inside of a written literal is a string body in every dialect that has its mark
(`StringBody.quoteChars`), and stands for the characters that were written
(`unescape_quoteChars`).
-/

namespace RelaxedJson

/-! ## Reading step by step -/

namespace Escape

theorem unescape_nil : unescape [] = .ok [] := by
  rw [unescape]

/-- Bytes other than a backslash stand for themselves. -/
theorem unescape_plain_append {xs : Bytes} (hxs : ∀ x ∈ xs, x ≠ '\\'.ascii) (bs : Bytes) :
    unescape (xs ++ bs) = (unescape bs).map (xs ++ ·) := by
  induction xs with
  | nil =>
    rw [List.nil_append]
    cases unescape bs <;> rfl
  | cons x xs ih =>
    have hrest := ih fun y hy => hxs y (List.mem_cons_of_mem x hy)
    rw [List.cons_append, unescape.eq_def]
    simp only [if_pos (hxs x List.mem_cons_self), hrest]
    cases unescape bs <;> rfl

theorem unescape_of_meaning {e : UInt8} {x : Char} {rest : Bytes} {taken : Nat}
    (h : meaning (Rune.first e rest) (behind e rest) = .ok (x, taken)) :
    unescape ('\\'.ascii :: e :: rest) =
      (unescape ((behind e rest).drop taken)).map (x.utf8 ++ ·) := by
  rw [unescape, if_neg (by simp)]
  simp only [h]

theorem behind_ascii {c : Char} (hc : c.toNat < 128) (bs : Bytes) : behind c.ascii bs = bs := by
  rw [behind, (Rune.first_eq_ascii_iff hc).mpr rfl, Rune.width, Rune.bytes, utf8_of_ascii hc]
  rfl

theorem unescape_of_ascii_meaning {c x : Char} {bs : Bytes} {taken : Nat} (hc : c.toNat < 128)
    (h : meaning (.valid c) bs = .ok (x, taken)) :
    unescape ('\\'.ascii :: c.ascii :: bs) = (unescape (bs.drop taken)).map (x.utf8 ++ ·) := by
  have hfirst : Rune.first c.ascii bs = .valid c := (Rune.first_eq_ascii_iff hc).mpr rfl
  have hbehind := behind_ascii hc bs
  rw [unescape_of_meaning (by rw [hfirst, hbehind, h]), hbehind]

end Escape

/-! ## Bodies -/

/-- Hexadecimal digits are ordinary bytes of a body. -/
theorem StringBody.drop_hex {d : Dialect} {mark : QuoteMark} {bs : Bytes} {n : Nat}
    (hhex : ∀ b ∈ bs.take n, (hexValue? b).isSome) (h : StringBody d mark bs) :
    StringBody d mark (bs.drop n) := by
  induction n generalizing bs with
  | zero => exact h
  | succ n ih =>
    have hbackslash : ¬ (hexValue? '\\'.ascii).isSome := by decide
    cases h with
    | nil => exact .nil
    | plain _ _ _ h => exact ih (fun b hb => hhex b (List.mem_cons_of_mem _ hb)) h
    | escape _ _ => exact absurd (hhex _ List.mem_cons_self) hbackslash
    | unicode _ _ => exact absurd (hhex _ List.mem_cons_self) hbackslash

/-- What stands behind a backslash in front of a body. -/
theorem StringBody.of_backslash {d : Dialect} {mark : QuoteMark} {as : Bytes}
    (h : StringBody d mark ('\\'.ascii :: as)) :
    (∃ (c : Char) (bs : Bytes), as = c.ascii :: bs ∧ d.EscapeLetter c ∧ StringBody d mark bs) ∨
      ∃ bs : Bytes, as = 'u'.ascii :: bs ∧ bs.StartsHex ∧ StringBody d mark bs := by
  generalize hall : '\\'.ascii :: as = all at h
  cases h with
  | nil => cases hall
  | plain _ hbackslash _ _ => exact absurd (List.cons.inj hall).1.symm hbackslash
  | escape hc h => exact .inl ⟨_, _, (List.cons.inj hall).2, hc, h⟩
  | unicode hu h => exact .inr ⟨_, (List.cons.inj hall).2, hu, h⟩

theorem Dialect.EscapeLetter.ne_u {d : Dialect} {c : Char} (h : d.EscapeLetter c) :
    c.ascii ≠ 'u'.ascii := by
  intro heq
  cases (ascii_inj h.lt (by decide)).mp heq
  exact absurd h (by simp [Dialect.EscapeLetter])

theorem StringBody.of_unicode {d : Dialect} {mark : QuoteMark} {bs : Bytes}
    (h : StringBody d mark ('\\'.ascii :: 'u'.ascii :: bs)) :
    bs.StartsHex ∧ StringBody d mark bs := by
  rcases h.of_backslash with ⟨c, bs, heq, hc, -⟩ | ⟨bs, heq, hu, h⟩
  · exact absurd (List.cons.inj heq).1.symm hc.ne_u
  · cases heq
    exact ⟨hu, h⟩

namespace Escape

variable {d : Dialect} {mark : QuoteMark}

/-! ## Marks -/

theorem isUtf8_of_marks {body : Bytes}
    (h : Bytes.isUtf8 (mark.char.ascii :: (body ++ [mark.char.ascii]))) : body.isUtf8 := by
  have hmark := mark.char_lt
  rw [Bytes.isUtf8, Rune.decode_ascii_cons hmark,
    Rune.decode_append body (Bytes.startsAscii_cons hmark []), List.all_cons, List.all_append,
    Bool.and_eq_true, Bool.and_eq_true] at h
  exact h.2.1

/-- A literal in either kind of marks stands for what its body stands for. -/
theorem unquote_marks (mark : QuoteMark) (body : Bytes) :
    unquote (mark.char.ascii :: (body ++ [mark.char.ascii])) = unescape body := by
  have hmark : mark.char.ascii = '"'.ascii ∨ mark.char.ascii = '\''.ascii := by
    cases mark <;> decide
  cases body with
  | nil =>
    rw [List.nil_append, unquote, if_pos ⟨hmark, rfl⟩]
    rfl
  | cons b body =>
    have hlast : (b :: body ++ [mark.char.ascii]).getLast? = some mark.char.ascii :=
      List.getLast?_concat
    rw [List.cons_append, unquote, ← List.cons_append, if_pos ⟨hmark, hlast⟩, List.dropLast_concat]

/-! ## Written characters -/

theorem hexValue?_hexDigit {n : Nat} (hn : n < 16) : hexValue? (hexDigit n) = some n := by
  revert n
  decide

theorem isSome_of_mem_hexDigits {width n : Nat} {b : UInt8}
    (hb : b ∈ hexDigits hexDigit width n) : (hexValue? b).isSome := by
  induction width generalizing n with
  | zero => cases hb
  | succ width ih =>
    rw [hexDigits, List.mem_append, List.mem_singleton] at hb
    rcases hb with hb | rfl
    · exact ih hb
    · rw [hexValue?_hexDigit (Nat.mod_lt n (by omega))]
      rfl

theorem codeUnit?_hexDigits {n : Nat} (hn : n < 0x10000) (bs : Bytes) :
    codeUnit? (hexDigits hexDigit 4 n ++ bs) = some n := by
  have hdigit : ∀ k, hexValue? (hexDigit (k % 16)) = some (k % 16) :=
    fun k => hexValue?_hexDigit (Nat.mod_lt k (by omega))
  have hsum : n / 16 / 16 / 16 % 16 * 0x1000 + n / 16 / 16 % 16 * 0x100 + n / 16 % 16 * 0x10 +
      n % 16 = n := by
    omega
  simp [hexDigits, codeUnit?, hdigit, hsum]

theorem toNat_not_surrogate (c : Char) : isSurrogate c.toNat = false := by
  have hvalid : c.toNat < 0xD800 ∨ 0xDFFF < c.toNat ∧ c.toNat < 0x110000 := c.valid
  simp only [isSurrogate, Bool.and_eq_false_iff, decide_eq_false_iff_not]
  omega

theorem unescape_unicodeEscape {c : Char} (hc : c.toNat < 0x10000) (bs : Bytes) :
    unescape (unicodeEscape c ++ bs) = (unescape bs).map (c.utf8 ++ ·) := by
  have hmeaning : meaning (.valid 'u') (hexDigits hexDigit 4 c.toNat ++ bs) = .ok (c, 4) := by
    have hlong : ((hexDigits hexDigit 4 c.toNat ++ bs).drop 3).isEmpty = false := by
      rw [List.isEmpty_eq_false_iff, ne_eq, List.drop_eq_nil_iff, List.length_append,
        hexDigits_length]
      omega
    simp [meaning, unicode, hlong, codeUnit?_hexDigits hc, toNat_not_surrogate]
  have hmarks : "\\u".utf8 = ['\\'.ascii, 'u'.ascii] := by decide
  have hdrop : (hexDigits hexDigit 4 c.toNat ++ bs).drop 4 = bs := by
    rw [List.drop_append_of_le_length (by simp), List.drop_of_length_le (by simp), List.nil_append]
  rw [unicodeEscape, hmarks, List.append_assoc]
  exact (unescape_of_ascii_meaning (by decide) hmeaning).trans (by rw [hdrop])

/-- How a character is written: as itself, by a letter behind a backslash, or by its code. An
    apostrophe stands behind a backslash only if apostrophes enclose the literal. -/
theorem quoteChar_cases (mark : QuoteMark) (c : Char) :
    (quoteChar mark c = c.utf8 ∧ c ≠ mark.char ∧ c ≠ '\\' ∧ 0x20 ≤ c.toNat) ∨
    (∃ x, (∀ d : Dialect, (mark = .single → d.singleQuotes) → d.EscapeLetter x) ∧
      quoteChar mark c = ['\\'.ascii, x.ascii] ∧ ∀ bs, meaning (.valid x) bs = .ok (c, 0)) ∨
    (quoteChar mark c = unicodeEscape c ∧ c.toNat < 0x10000) := by
  by_cases hcontrol : c.toNat < 0x20
  · cases hletter : letter? c with
    | none =>
      refine .inr (.inr ⟨?_, by omega⟩)
      simp only [quoteChar, if_pos hcontrol, hletter]
    | some x =>
      refine .inr (.inl ⟨x, ?_, by simp only [quoteChar, if_pos hcontrol, hletter], ?_⟩)
      all_goals
        unfold letter? at hletter
        split at hletter <;> cases hletter
      all_goals first | exact fun d _ => .inl (by decide) | exact fun bs => rfl
  · by_cases hmark : c = '\\' ∨ c = mark.char
    · refine .inr (.inl ⟨c, fun d hquotes => ?_, ?_, ?_⟩)
      · rcases hmark with rfl | rfl
        · exact .inl (by decide)
        · cases mark with
          | double => exact .inl (by decide)
          | single => exact .inr ⟨rfl, hquotes rfl⟩
      · simp only [quoteChar, if_neg hcontrol, if_pos hmark]
      · rcases hmark with rfl | rfl
        · exact fun bs => rfl
        · cases mark <;> exact fun bs => rfl
    · by_cases hhidden : isHidden c
      · refine .inr (.inr ⟨by simp only [quoteChar, if_neg hcontrol, if_neg hmark, if_pos hhidden], ?_⟩)
        simp only [isHidden, Bool.or_eq_true, decide_eq_true_eq] at hhidden
        rcases hhidden with (rfl | rfl) | rfl <;> decide
      · refine .inl ⟨?_, fun h => hmark (.inr h), fun h => hmark (.inl h), by omega⟩
        simp only [quoteChar, if_neg hcontrol, if_neg hmark, if_neg hhidden]

/-- A written character stands for itself. -/
theorem unescape_quoteChar (mark : QuoteMark) (c : Char) (bs : Bytes) :
    unescape (quoteChar mark c ++ bs) = (unescape bs).map (c.utf8 ++ ·) := by
  rcases quoteChar_cases mark c with ⟨h, -, hbackslash, -⟩ | ⟨x, hx, h, hmeaning⟩ | ⟨h, hc⟩
  · have hread : Rune.IsRead (.valid c) := trivial
    have hplain : ∀ b ∈ c.utf8, b ≠ '\\'.ascii :=
      fun b => hread.ne_ascii_of_mem (by decide) (by simpa using hbackslash)
    rw [h, unescape_plain_append hplain]
  · rw [h]
    exact unescape_of_ascii_meaning (hx .permissive fun _ => rfl).lt (hmeaning bs)
  · rw [h, unescape_unicodeEscape hc]

theorem unescape_quoteChars (mark : QuoteMark) (cs : List Char) :
    unescape (cs.flatMap (quoteChar mark)) = .ok (Bytes.ofChars cs) := by
  induction cs with
  | nil => exact unescape_nil
  | cons c cs ih =>
    rw [List.flatMap_cons, unescape_quoteChar, ih]
    rfl

end Escape

namespace StringBody

theorem hex_append {d : Dialect} {mark : QuoteMark} {xs bs : Bytes}
    (hxs : ∀ x ∈ xs, (hexValue? x).isSome) (h : StringBody d mark bs) :
    StringBody d mark (xs ++ bs) := by
  induction xs with
  | nil => exact h
  | cons x xs ih =>
    have hx := hxs x List.mem_cons_self
    have hne : ∀ b : UInt8, ¬ (hexValue? b).isSome → x ≠ b := by
      rintro b hb rfl
      exact hb hx
    refine .plain (hne _ (by cases mark <;> decide)) (hne _ (by decide)) ?_
      (ih fun y hy => hxs y (List.mem_cons_of_mem x hy))
    exact (toNat_of_hexValue? hx).1

section

variable {d : Dialect} {mark : QuoteMark} (hmark : mark = .single → d.singleQuotes)

include hmark

theorem quoteChar (c : Char) : StringBody d mark (Escape.quoteChar mark c) := by
  rcases Escape.quoteChar_cases mark c with ⟨h, hne, hbackslash, hcontrol⟩ | ⟨x, hx, h, -⟩ | ⟨h, hc⟩
  · rw [h, ← List.append_nil c.utf8]
    exact rune_append (r := .valid c) trivial (by simpa using hne) (by simpa using hbackslash)
      (by simpa using hcontrol) .nil
  · rw [h]
    exact .escape (hx d hmark) .nil
  · have hhex : ∀ b ∈ hexDigits hexDigit 4 c.toNat, (hexValue? b).isSome :=
      fun b => Escape.isSome_of_mem_hexDigits
    have hbody : StringBody d mark (hexDigits hexDigit 4 c.toNat) := by
      rw [← List.append_nil (hexDigits hexDigit 4 c.toNat)]
      exact hex_append hhex .nil
    rw [h]
    exact .unicode ⟨by simp, fun b hb => hhex b (List.mem_of_mem_take hb)⟩ hbody

/-- What is written is a body in every dialect that has the mark. -/
theorem quoteChars (cs : List Char) : StringBody d mark (cs.flatMap (Escape.quoteChar mark)) := by
  induction cs with
  | nil => exact .nil
  | cons c cs ih => exact (StringBody.quoteChar hmark c).append ih

end

end StringBody

end RelaxedJson
