-- SUMMARY: Reading a string: the reader takes exactly the bodies of the grammar.
import RelaxedJson.Proofs.Lexical.Grammar

/-!
# Strings

`Lexeme.string` reads runes and `StringBody` describes bytes. A character of several bytes has no
ASCII byte in it, so for a body it is as good as that many ordinary bytes.
-/

namespace RelaxedJson

/-! ## Characters -/

/-- What holds of the 128 ASCII characters one by one holds of all of them. -/
theorem forall_ascii {P : Char → Prop} (h : ∀ n < 128, P (Char.ofNat n)) {c : Char}
    (hc : c.toNat < 128) : P c := by
  have hchar := h c.toNat hc
  rwa [Char.ofNat_toNat] at hchar

theorem QuoteMark.char_lt (mark : QuoteMark) : mark.char.toNat < 128 := by
  cases mark <;> decide

theorem QuoteMark.char_ne_backslash (mark : QuoteMark) : mark.char ≠ '\\' := by
  cases mark <;> decide

theorem QuoteMark.ascii_ne_backslash (mark : QuoteMark) : mark.char.ascii ≠ '\\'.ascii := by
  cases mark <;> decide

theorem lt_space_iff {c : Char} : c < ' ' ↔ c.toNat < 0x20 := by
  simp only [Char.lt_def, UInt32.lt_iff_toNat_lt]
  rfl

theorem isHexDigit_eq {c : Char} (hc : c.toNat < 128) :
    Lexeme.isHexDigit c = (hexValue? c.ascii).isSome :=
  forall_ascii (P := fun c => Lexeme.isHexDigit c = (hexValue? c.ascii).isSome) (by decide) hc

theorem lt_of_isHexDigit {c : Char} (h : Lexeme.isHexDigit c) : c.toNat < 128 := by
  simp only [Lexeme.isHexDigit, Char.isDigit, Char.le_def, UInt32.le_iff_toNat_le, ge_iff_le,
    Bool.or_eq_true, Bool.and_eq_true, decide_eq_true_eq, Char.toNat_val] at h
  have h9 : '9'.toNat = 57 := rfl
  have hf : 'f'.toNat = 102 := rfl
  have hF : 'F'.toNat = 70 := rfl
  omega

theorem toNat_of_hexValue? {b : UInt8} (h : (hexValue? b).isSome) :
    0x20 ≤ b.toNat ∧ b.toNat < 128 := by
  simp only [hexValue?, UInt8.le_iff_toNat_le] at h
  have h0 : '0'.ascii.toNat = 48 := rfl
  have h9 : '9'.ascii.toNat = 57 := rfl
  have ha : 'a'.ascii.toNat = 97 := rfl
  have hf : 'f'.ascii.toNat = 102 := rfl
  have hA : 'A'.ascii.toNat = 65 := rfl
  have hF : 'F'.ascii.toNat = 70 := rfl
  split at h
  · omega
  · split at h
    · omega
    · split at h
      · omega
      · cases h

/-- Hexadecimal digits are the same among runes and among their bytes. -/
theorem hexDigits_encode_iff {rs : List Rune} (hrs : ∀ r ∈ rs, r.IsRead) (n : Nat) :
    (n ≤ (Rune.encode rs).length ∧ ∀ b ∈ (Rune.encode rs).take n, (hexValue? b).isSome) ↔
      (rs.take n).length = n ∧ (rs.take n).all (Rune.satisfies Lexeme.isHexDigit) := by
  induction n generalizing rs with
  | zero => simp
  | succ n ih =>
    cases rs with
    | nil => simp
    | cons r rs =>
      have hrest := ih fun x hx => hrs x (List.mem_cons_of_mem r hx)
      rcases (hrs r List.mem_cons_self).ascii_or_high with ⟨c, rfl, hc, hbytes⟩ | hhigh
      · have hclass : Rune.satisfies Lexeme.isHexDigit (.valid c) = (hexValue? c.ascii).isSome :=
          isHexDigit_eq hc
        simp only [Rune.encode_cons, hbytes, List.singleton_append, List.length_cons,
          List.take_succ_cons, List.forall_mem_cons, List.all_cons, hclass, Nat.add_le_add_iff_right,
          Nat.add_right_cancel_iff, Bool.and_eq_true]
        rw [and_left_comm, hrest, and_left_comm]
      · obtain ⟨b, bs, hbytes, hb⟩ := hhigh.exists_cons
        have hhex : ¬ (hexValue? b).isSome := fun h => absurd (toNat_of_hexValue? h).2 (by omega)
        have hclass := hhigh.not_satisfies (p := Lexeme.isHexDigit) fun c => lt_of_isHexDigit
        simp [hbytes, hhex, hclass]

/-! ## Bodies -/

namespace StringBody

variable {d : Dialect} {mark : QuoteMark} {bs : Bytes}

/-- Bytes above ASCII may stand in front of a body. -/
theorem high_append {xs : Bytes} (hxs : ∀ x ∈ xs, 128 ≤ x.toNat) (h : StringBody d mark bs) :
    StringBody d mark (xs ++ bs) := by
  induction xs with
  | nil => exact h
  | cons x xs ih =>
    have hx := hxs x List.mem_cons_self
    exact .plain (ne_ascii_of_le hx mark.char_lt) (ne_ascii_of_le hx (by decide)) (by omega)
      (ih fun y hy => hxs y (List.mem_cons_of_mem x hy))

theorem of_plain_append {xs : Bytes} (hxs : ∀ x ∈ xs, x ≠ '\\'.ascii)
    (h : StringBody d mark (xs ++ bs)) : StringBody d mark bs := by
  induction xs with
  | nil => exact h
  | cons x xs ih =>
    have hbackslash := hxs x List.mem_cons_self
    have hrest : StringBody d mark (xs ++ bs) := by
      rw [List.cons_append] at h
      generalize hall : x :: (xs ++ bs) = all at h
      cases h with
      | nil => cases hall
      | plain _ _ _ h =>
        cases hall
        exact h
      | escape _ _ => exact absurd (List.cons.inj hall).1 hbackslash
      | unicode _ _ => exact absurd (List.cons.inj hall).1 hbackslash
    exact ih (fun y hy => hxs y (List.mem_cons_of_mem x hy)) hrest

/-- An ordinary rune may stand in front of a body. -/
theorem rune_append {r : Rune} (hr : r.IsRead) (hmark : r ≠ .valid mark.char)
    (hbackslash : r ≠ .valid '\\') (hcontrol : ∀ c, r = .valid c → 0x20 ≤ c.toNat)
    (h : StringBody d mark bs) : StringBody d mark (r.bytes ++ bs) := by
  rcases hr.ascii_or_high with ⟨c, rfl, hc, hbytes⟩ | hhigh
  · rw [hbytes]
    refine .plain (fun heq => ?_) (fun heq => ?_) (by rw [ascii_toNat hc]; exact hcontrol c rfl) h
    · exact hmark (by rw [(ascii_inj hc mark.char_lt).mp heq])
    · exact hbackslash (by rw [(ascii_inj hc (by decide)).mp heq])
  · exact h.high_append hhigh.bytes

theorem append {as : Bytes} (ha : StringBody d mark as) (hb : StringBody d mark bs) :
    StringBody d mark (as ++ bs) := by
  induction ha with
  | nil => exact hb
  | plain hmark hbackslash hcontrol _ ih => exact .plain hmark hbackslash hcontrol ih
  | escape hc _ ih => exact .escape hc ih
  | @unicode as hu _ ih =>
    have hstart : Bytes.StartsHex (as ++ bs) := by
      rw [Bytes.StartsHex, List.take_append_of_le_length hu.1, List.length_append]
      exact ⟨Nat.le_add_right_of_le hu.1, hu.2⟩
    exact .unicode hstart ih

/-- A body holds no control byte. -/
theorem printable (h : StringBody d mark bs) : ∀ b ∈ bs, 0x20 ≤ b.toNat := by
  induction h with
  | nil => exact List.forall_mem_nil _
  | plain _ _ hcontrol _ ih => exact List.forall_mem_cons.mpr ⟨hcontrol, ih⟩
  | @escape c bs hc _ ih =>
    have hletter : 0x20 ≤ c.ascii.toNat := by
      rcases hc with hc | ⟨rfl, -⟩
      · simp only [List.mem_cons, List.not_mem_nil, or_false] at hc
        rcases hc with rfl | rfl | rfl | rfl | rfl | rfl | rfl | rfl <;> decide
      · decide
    exact List.forall_mem_cons.mpr ⟨by decide, List.forall_mem_cons.mpr ⟨hletter, ih⟩⟩
  | unicode _ _ ih =>
    exact List.forall_mem_cons.mpr ⟨by decide, List.forall_mem_cons.mpr ⟨by decide, ih⟩⟩

end StringBody

/-! ## Escapes -/

theorem Dialect.EscapeLetter.lt {d : Dialect} {c : Char} (h : d.EscapeLetter c) :
    c.toNat < 128 := by
  rcases h with h | ⟨rfl, -⟩
  · simp only [List.mem_cons, List.not_mem_nil, or_false] at h
    rcases h with rfl | rfl | rfl | rfl | rfl | rfl | rfl | rfl <;> decide
  · decide

theorem escapeFault?_of_letter {d : Dialect} {c : Char} (hc : d.EscapeLetter c) (rs : List Rune) :
    Lexeme.escapeFault? d (.valid c) rs = none := by
  rcases hc with h | ⟨rfl, hquotes⟩
  · simp only [List.mem_cons, List.not_mem_nil, or_false] at h
    rcases h with rfl | rfl | rfl | rfl | rfl | rfl | rfl | rfl <;> rfl
  · simp [Lexeme.escapeFault?, hquotes]

/-- Hexadecimal digits go no further than what is none. -/
theorem hexDigits_append_iff {rs rest : List Rune}
    (hrest : Rune.Stops Lexeme.isHexDigit rest) (n : Nat) :
    ((rs ++ rest).take n).length = n ∧
        ((rs ++ rest).take n).all (Rune.satisfies Lexeme.isHexDigit) ↔
      (rs.take n).length = n ∧ (rs.take n).all (Rune.satisfies Lexeme.isHexDigit) := by
  induction n generalizing rs with
  | zero => simp
  | succ n ih =>
    cases rs with
    | nil =>
      cases rest with
      | nil => simp
      | cons r rest => simp [hrest r rfl]
    | cons r rs =>
      simp only [List.cons_append, List.take_succ_cons, List.length_cons, List.all_cons,
        Nat.add_right_cancel_iff, Bool.and_eq_true]
      rw [and_left_comm, ih, and_left_comm]

theorem escapeFault?_unicode_eq_none_iff {d : Dialect} {rs : List Rune}
    (hrs : ∀ r ∈ rs, r.IsRead) :
    Lexeme.escapeFault? d (.valid 'u') rs = none ↔ Bytes.StartsHex (Rune.encode rs) := by
  rw [Bytes.StartsHex, hexDigits_encode_iff hrs]
  simp [Lexeme.escapeFault?]

theorem escapeFault?_unicode_append_iff {d : Dialect} {rs rest : List Rune}
    (hrs : ∀ r ∈ rs, r.IsRead)
    (hrest : Rune.Stops Lexeme.isHexDigit rest) :
    Lexeme.escapeFault? d (.valid 'u') (rs ++ rest) = none ↔ Bytes.StartsHex (Rune.encode rs) := by
  have hfault : ∀ ss, Lexeme.escapeFault? d (.valid 'u') ss = none ↔
      (ss.take 4).length = 4 ∧ (ss.take 4).all (Rune.satisfies Lexeme.isHexDigit) := by
    simp [Lexeme.escapeFault?]
  rw [← escapeFault?_unicode_eq_none_iff hrs, hfault, hfault, hexDigits_append_iff hrest]

theorem escapeFault?_unicode_append {d : Dialect} {bs : Bytes} (h : bs.StartsHex)
    (rest : List Rune) :
    Lexeme.escapeFault? d (.valid 'u') (Rune.decode bs ++ rest) = none := by
  rw [← Rune.encode_decode bs] at h
  obtain ⟨hlen, hhex⟩ := (hexDigits_encode_iff (fun r => Rune.isRead_of_mem_decode) 4).mp h
  have htake : (Rune.decode bs ++ rest).take 4 = (Rune.decode bs).take 4 := by
    rw [List.take_append_of_le_length]
    rw [List.length_take] at hlen
    omega
  simp [Lexeme.escapeFault?, htake, hlen, hhex]

/-- Any other rune is no escape. -/
theorem escapeFault?_of_not_letter {d : Dialect} {r : Rune}
    (hletter : ∀ c, r = .valid c → ¬ d.EscapeLetter c) (hu : r ≠ .valid 'u') (rs : List Rune) :
    Lexeme.escapeFault? d r rs = some (.invalidEscape r) := by
  unfold Lexeme.escapeFault?
  split
  case h_9 => rw [if_neg fun hquotes => hletter _ rfl (.inr ⟨rfl, hquotes⟩)]
  case h_10 => exact absurd rfl hu
  case h_11 => rfl
  all_goals exact absurd (.inl (by decide)) (hletter _ rfl)

theorem of_escapeFault?_eq_none {d : Dialect} {r : Rune} {rs : List Rune}
    (h : Lexeme.escapeFault? d r rs = none) :
    (∃ c, r = .valid c ∧ d.EscapeLetter c) ∨ r = .valid 'u' := by
  by_contra hnot
  rw [not_or, not_exists] at hnot
  have hletter : ∀ c, r = .valid c → ¬ d.EscapeLetter c := fun c hr hc => hnot.1 c ⟨hr, hc⟩
  rw [escapeFault?_of_not_letter hletter hnot.2] at h
  cases h
/-! ## The reader -/

namespace Lexeme

variable {d : Dialect} {mark : QuoteMark}

theorem string_close (body rest : List Rune) :
    string d mark body (.valid mark.char :: rest) = ofBody mark body.reverse := by
  rw [string.eq_def]
  exact if_pos rfl

theorem string_backslash (body : List Rune) :
    string d mark body [.valid '\\'] = .error ⟨[], .unclosedQuote⟩ := by
  rw [string.eq_def]
  simp only [if_neg mark.char_ne_backslash.symm, ↓reduceIte]

/-- An ordinary rune joins the body. -/
theorem string_plain {r : Rune} (hmark : r ≠ .valid mark.char) (hbackslash : r ≠ .valid '\\')
    (hcontrol : ∀ c, r = .valid c → 0x20 ≤ c.toNat) (body rest : List Rune) :
    string d mark body (r :: rest) = string d mark (r :: body) rest := by
  cases r with
  | invalid b => rw [string]
  | valid c =>
    have hspace : ¬ c < ' ' := by
      rw [lt_space_iff]
      exact Nat.not_lt.mpr (hcontrol c rfl)
    rw [string.eq_def]
    simp only
    rw [if_neg fun h => hmark (by rw [h]), if_neg fun h => hbackslash (by rw [h]), if_neg hspace]

theorem string_escape {r : Rune} {rest : List Rune} (h : escapeFault? d r rest = none)
    (body : List Rune) :
    string d mark body (.valid '\\' :: r :: rest) =
      string d mark (r :: .valid '\\' :: body) rest := by
  rw [string.eq_def]
  simp only [if_neg mark.char_ne_backslash.symm, ↓reduceIte, h]

theorem string_badEscape {r : Rune} {rest : List Rune} {reason : SyntaxReason}
    (h : escapeFault? d r rest = some reason) (body : List Rune) :
    string d mark body (.valid '\\' :: r :: rest) =
      .error ⟨.valid mark.char :: body.reverse ++ [.valid '\\'], reason⟩ := by
  rw [string.eq_def]
  simp only [if_neg mark.char_ne_backslash.symm, ↓reduceIte, h]

theorem string_control {c : Char} (h : c.toNat < 0x20) (body rest : List Rune) :
    string d mark body (.valid c :: rest) =
      .error ⟨.valid mark.char :: body.reverse, .unescapedControl c⟩ := by
  have hmark : c ≠ mark.char := by
    rintro rfl
    cases mark <;> exact absurd h (by decide)
  have hbackslash : c ≠ '\\' := by
    rintro rfl
    exact absurd h (by decide)
  rw [string.eq_def]
  simp only [if_neg hmark, if_neg hbackslash, if_pos (lt_space_iff.mpr h)]

/-- The reader takes every body, whatever follows it. -/
theorem string_append {bs : Bytes} (h : StringBody d mark bs) (body rest : List Rune) :
    string d mark body (Rune.decode bs ++ rest) =
      string d mark ((Rune.decode bs).reverse ++ body) rest := by
  induction hn : bs.length using Nat.strongRecOn generalizing bs body with
  | ind n ih =>
    cases h with
    | nil => rw [Rune.decode_nil, List.nil_append, List.reverse_nil, List.nil_append]
    | @plain b bs hmark hbackslash hcontrol h =>
      obtain ⟨tail, htail, hlen, hdecode⟩ := Rune.exists_decode_cons b bs
      have hfirst : ∀ c : Char, c.toNat < 128 → b ≠ c.ascii → Rune.first b bs ≠ .valid c :=
        fun c hc hne h => hne ((Rune.first_eq_ascii_iff hc).mp h)
      -- The byte may start a longer rune; no byte of it is a backslash.
      have hrest : StringBody d mark tail := by
        have hbody : StringBody d mark (b :: bs) := .plain hmark hbackslash hcontrol h
        rw [htail] at hbody
        exact hbody.of_plain_append fun x =>
          (Rune.isRead_first b bs).ne_ascii_of_mem (by decide) (hfirst _ (by decide) hbackslash)
      have hprintable : ∀ c, Rune.first b bs = .valid c → 0x20 ≤ c.toNat := by
        intro c h
        refine Nat.le_of_not_lt fun hlt => ?_
        rw [Rune.first_eq_ascii_iff (by omega)] at h
        rw [h, ascii_toNat (by omega)] at hcontrol
        omega
      rw [hdecode, List.cons_append,
        string_plain (hfirst _ mark.char_lt hmark) (hfirst _ (by decide) hbackslash) hprintable,
        ih _ (hn ▸ hlen) hrest _ rfl]
      simp
    | @escape c bs hc h =>
      have hlen : bs.length < n := by
        simp only [List.length_cons] at hn
        omega
      rw [Rune.decode_ascii_cons (by decide), Rune.decode_ascii_cons hc.lt, List.cons_append,
        List.cons_append, string_escape (escapeFault?_of_letter hc _), ih _ hlen h _ rfl]
      simp
    | @unicode bs hu h =>
      have hlen : bs.length < n := by
        simp only [List.length_cons] at hn
        omega
      have hfault : escapeFault? d (.valid 'u') (Rune.decode bs ++ rest) = none :=
        escapeFault?_unicode_append hu rest
      rw [Rune.decode_ascii_cons (by decide), Rune.decode_ascii_cons (by decide), List.cons_append,
        List.cons_append, string_escape hfault, ih _ hlen h _ rfl]
      simp

/-- What the reader stops at behind a body: the mark that closes the string, a fault, or the end of
    the text, perhaps behind a backslash. -/
inductive StringStop (d : Dialect) (mark : QuoteMark) : List Rune → Prop where
  | nil : StringStop d mark []
  | backslash : StringStop d mark [.valid '\\']
  | close {rest : List Rune} : StringStop d mark (.valid mark.char :: rest)
  | escape {r : Rune} {rest : List Rune} {reason : SyntaxReason} :
      escapeFault? d r rest = some reason → StringStop d mark (.valid '\\' :: r :: rest)
  | control {c : Char} {rest : List Rune} : c.toNat < 0x20 → StringStop d mark (.valid c :: rest)

theorem StringStop.stops_isHexDigit {rest : List Rune} (h : StringStop d mark rest) :
    Rune.Stops isHexDigit rest := by
  cases h with
  | nil => exact Rune.stops_nil _
  | backslash => exact Rune.stops_valid_cons rfl _
  | close => exact Rune.stops_valid_cons (by cases mark <;> decide) _
  | escape _ => exact Rune.stops_valid_cons rfl _
  | @control c _ hc =>
    refine Rune.stops_valid_cons ?_ _
    exact forall_ascii (P := fun c => c.toNat < 0x20 → isHexDigit c = false) (by decide) (by omega) hc

/-- The reader takes a body and comes to a stop. -/
theorem exists_body (acc : List Rune) {rs : List Rune} (hrs : ∀ r ∈ rs, r.IsRead) :
    ∃ body rest, rs = body ++ rest ∧ StringBody d mark (Rune.encode body) ∧
      StringStop d mark rest ∧ string d mark acc rs = string d mark (body.reverse ++ acc) rest := by
  fun_induction string d mark acc rs with
  | case1 acc => exact ⟨[], [], rfl, .nil, .nil, by rw [string]⟩
  | case2 acc b rs ih =>
    obtain ⟨body, rest, rfl, hbody, hstop, heq⟩ := ih fun r hr => hrs r (List.mem_cons_of_mem _ hr)
    refine ⟨.invalid b :: body, rest, rfl, ?_, hstop, by simpa using heq⟩
    exact hbody.rune_append (hrs _ List.mem_cons_self) nofun nofun nofun
  | case3 acc rs => exact ⟨[], _, rfl, .nil, .close, (string_close acc rs).symm⟩
  | case4 acc hmark => exact ⟨[], _, rfl, .nil, .backslash, (string_backslash acc).symm⟩
  | case5 acc r rs reason hfault hmark =>
    exact ⟨[], _, rfl, .nil, .escape hfault, (string_badEscape hfault acc).symm⟩
  | case6 acc r rs hfault _ ih =>
    have hrest : ∀ x ∈ rs, x.IsRead :=
      fun x hx => hrs x (List.mem_cons_of_mem _ (List.mem_cons_of_mem _ hx))
    obtain ⟨body, rest, rfl, hbody, hstop, heq⟩ := ih hrest
    refine ⟨.valid '\\' :: r :: body, rest, rfl, ?_, hstop, by simpa using heq⟩
    rw [Rune.encode_cons, Rune.encode_cons]
    rcases of_escapeFault?_eq_none hfault with ⟨c, rfl, hc⟩ | rfl
    · rw [Rune.bytes, Rune.bytes, utf8_of_ascii (by decide), utf8_of_ascii hc.lt]
      exact .escape hc hbody
    · have hhex : Bytes.StartsHex (Rune.encode body) :=
        (escapeFault?_unicode_append_iff (fun x hx => hrest x (List.mem_append_left _ hx))
          hstop.stops_isHexDigit).mp hfault
      rw [Rune.bytes, Rune.bytes, utf8_of_ascii (by decide), utf8_of_ascii (by decide)]
      exact .unicode hhex hbody
  | case7 acc c rs _ _ hcontrol =>
    have hc := lt_space_iff.mp hcontrol
    exact ⟨[], _, rfl, .nil, .control hc, (string_control hc acc rs).symm⟩
  | case8 acc c rs hmark hbackslash hcontrol ih =>
    obtain ⟨body, rest, rfl, hbody, hstop, heq⟩ := ih fun r hr => hrs r (List.mem_cons_of_mem _ hr)
    refine ⟨.valid c :: body, rest, rfl, ?_, hstop, by simpa using heq⟩
    refine hbody.rune_append (hrs _ List.mem_cons_self) (fun heq => ?_) (fun heq => ?_) ?_
    · cases heq
      exact hmark rfl
    · cases heq
      exact hbackslash rfl
    · rintro c' heq
      cases heq
      exact Nat.le_of_not_lt fun hlt => hcontrol (lt_space_iff.mpr hlt)

/-- What the reader takes is a body with the mark behind it. -/
theorem body_of_string {acc rs : List Rune} {l : Lexeme} (hrs : ∀ r ∈ rs, r.IsRead)
    (h : string d mark acc rs = .ok l) :
    ∃ body rest, rs = body ++ .valid mark.char :: rest ∧ StringBody d mark (Rune.encode body) ∧
      ofBody mark (acc.reverse ++ body) = .ok l := by
  obtain ⟨body, rest, rfl, hbody, hstop, heq⟩ := exists_body acc hrs
  rw [heq] at h
  cases hstop with
  | nil => cases h
  | backslash =>
    rw [string_backslash] at h
    cases h
  | close =>
    rw [string_close, List.reverse_append, List.reverse_reverse] at h
    exact ⟨body, _, rfl, hbody, h⟩
  | escape hfault =>
    rw [string_badEscape hfault] at h
    cases h
  | control hc =>
    rw [string_control hc] at h
    cases h

end Lexeme

end RelaxedJson
