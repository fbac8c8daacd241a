-- SUMMARY: How the runes of a byte string follow its bytes: characters, ASCII, and where a text may be cut.
import Mathlib
import RelaxedJson.Text.Rune

/-!
# Decoding

`Rune.decode` inverts `Char.utf8` (`decode_ofChars_append`), and it may be taken apart in front of
every ASCII byte (`decode_append`): no character that takes several bytes has an ASCII byte in it. A
byte string is well-formed exactly if it is the encoding of some characters (`isUtf8_iff`).
-/

namespace RelaxedJson

/-! ## Runs -/

theorem takeWhile_append_exact {α : Type} {p : α → Bool} {xs ys : List α} (hxs : ∀ x ∈ xs, p x)
    (hys : ∀ y ∈ ys.head?, p y = false) : (xs ++ ys).takeWhile p = xs := by
  rw [List.takeWhile_append_of_pos hxs]
  cases ys with
  | nil => simp
  | cons y ys => simp [hys y rfl]

theorem dropWhile_append_exact {α : Type} {p : α → Bool} {xs ys : List α} (hxs : ∀ x ∈ xs, p x)
    (hys : ∀ y ∈ ys.head?, p y = false) : (xs ++ ys).dropWhile p = ys := by
  rw [List.dropWhile_append_of_pos hxs]
  cases ys with
  | nil => simp
  | cons y ys => simp [hys y rfl]

theorem head?_dropWhile {α : Type} {p : α → Bool} {xs : List α} {y : α}
    (hy : y ∈ (xs.dropWhile p).head?) : p y = false := by
  have h := List.head?_dropWhile_not p xs
  rwa [Option.mem_def.mp hy] at h

/-! ## Bytes of characters -/

theorem utf8_of_ascii {c : Char} (hc : c.toNat < 128) : c.utf8 = [c.ascii] := by
  unfold Char.utf8 String.utf8EncodeChar
  rw [if_pos (by simp only [Char.toNat_val]; omega)]
  rfl

theorem ascii_toNat {c : Char} (hc : c.toNat < 128) : c.ascii.toNat = c.toNat := by
  simp only [Char.ascii, UInt8.toNat_ofNat']
  omega

theorem toNat_ofNat_of_lt {n : Nat} (hn : n < 0xD800) : (Char.ofNat n).toNat = n := by
  rw [Char.ofNat, dif_pos (.inl hn)]
  rfl

theorem ascii_ofNat {b : UInt8} (hb : b.toNat < 128) : (Char.ofNat b.toNat).ascii = b := by
  have hchar := toNat_ofNat_of_lt (n := b.toNat) (by omega)
  apply UInt8.toNat.inj
  rw [ascii_toNat (by omega), hchar]

theorem ascii_inj {c c' : Char} (hc : c.toNat < 128) (hc' : c'.toNat < 128) :
    c.ascii = c'.ascii ↔ c = c' := by
  constructor
  · intro h
    apply Char.toNat_inj.mp
    rw [← ascii_toNat hc, ← ascii_toNat hc', h]
  · rintro rfl
    rfl

theorem ne_ascii_of_le {b : UInt8} (hb : 128 ≤ b.toNat) {c : Char} (hc : c.toNat < 128) :
    b ≠ c.ascii := by
  rintro rfl
  rw [ascii_toNat hc] at hb
  omega

theorem toNat_lt_max (c : Char) : c.toNat < 0x110000 := by
  have hvalid : c.toNat < 0xD800 ∨ 0xDFFF < c.toNat ∧ c.toNat < 0x110000 := c.valid
  omega

theorem le_of_mem_utf8 {c : Char} (hc : 128 ≤ c.toNat) {b : UInt8} (hb : b ∈ c.utf8) :
    128 ≤ b.toNat := by
  have hmax := toNat_lt_max c
  unfold Char.utf8 String.utf8EncodeChar at hb
  simp only [Char.toNat_val] at hb
  rw [if_neg (by omega)] at hb
  split at hb
  · simp only [List.mem_cons, List.not_mem_nil, or_false] at hb
    rcases hb with rfl | rfl <;> simp only [UInt8.toNat_ofNat'] <;> omega
  · split at hb
    · simp only [List.mem_cons, List.not_mem_nil, or_false] at hb
      rcases hb with rfl | rfl | rfl <;> simp only [UInt8.toNat_ofNat'] <;> omega
    · simp only [List.mem_cons, List.not_mem_nil, or_false] at hb
      rcases hb with rfl | rfl | rfl | rfl <;> simp only [UInt8.toNat_ofNat'] <;> omega

namespace Rune

/-! ## The leading character -/

theorem leadingCode_utf8_append (c : Char) (bs : Bytes) :
    leadingCode (c.utf8 ++ bs) = c.toNat := by
  have hmax := toNat_lt_max c
  unfold Char.utf8 String.utf8EncodeChar
  simp only [Char.toNat_val]
  -- One case for each number of bytes; the lead byte decides it.
  split
  · simp only [leadingCode, List.cons_append, List.getD_cons_zero, UInt8.toNat_ofNat']
    rw [if_pos (by omega)]
    omega
  · split
    · simp only [leadingCode, List.cons_append, List.getD_cons_zero, List.getD_cons_succ,
        UInt8.toNat_ofNat']
      rw [if_neg (by omega), if_pos (by omega)]
      omega
    · split
      · simp only [leadingCode, List.cons_append, List.getD_cons_zero, List.getD_cons_succ,
          UInt8.toNat_ofNat']
        rw [if_neg (by omega), if_neg (by omega), if_pos (by omega)]
        omega
      · simp only [leadingCode, List.cons_append, List.getD_cons_zero, List.getD_cons_succ,
          UInt8.toNat_ofNat']
        rw [if_neg (by omega), if_neg (by omega), if_neg (by omega)]
        omega

/-- Bytes start with a character exactly if they start with its encoding. -/
theorem leadingChar?_eq_some_iff {bs : Bytes} {c : Char} :
    leadingChar? bs = some c ↔ c.utf8 <+: bs := by
  unfold leadingChar?
  constructor
  · intro h
    split at h
    · rename_i hlead
      cases h
      exact hlead
    · cases h
  · rintro ⟨tail, rfl⟩
    rw [leadingCode_utf8_append, Char.ofNat_toNat, if_pos ⟨tail, rfl⟩]

theorem first_eq_valid_iff {b : UInt8} {bs : Bytes} {c : Char} :
    first b bs = .valid c ↔ c.utf8 <+: b :: bs := by
  rw [← leadingChar?_eq_some_iff]
  unfold first
  cases leadingChar? (b :: bs) <;> simp

theorem first_of_ascii {b : UInt8} (hb : b.toNat < 128) (bs : Bytes) :
    first b bs = .valid (Char.ofNat b.toNat) := by
  rw [first_eq_valid_iff, utf8_of_ascii (by rw [toNat_ofNat_of_lt (by omega)]; exact hb),
    ascii_ofNat hb]
  exact ⟨bs, rfl⟩

theorem bytes_first_of_ascii {b : UInt8} (hb : b.toNat < 128) (bs : Bytes) :
    (first b bs).bytes = [b] := by
  rw [first_of_ascii hb, bytes, utf8_of_ascii (by rwa [toNat_ofNat_of_lt (by omega)]),
    ascii_ofNat hb]

theorem first_eq_ascii_iff {b : UInt8} {bs : Bytes} {c : Char} (hc : c.toNat < 128) :
    first b bs = .valid c ↔ b = c.ascii := by
  rw [first_eq_valid_iff, utf8_of_ascii hc]
  constructor
  · rintro ⟨tail, htail⟩
    cases htail
    rfl
  · rintro rfl
    exact ⟨bs, rfl⟩

/-- A rune that starts with a byte above ASCII has no ASCII byte in it. -/
theorem le_of_mem_bytes_first {b : UInt8} (hb : 128 ≤ b.toNat) {bs : Bytes} {x : UInt8}
    (hx : x ∈ (first b bs).bytes) : 128 ≤ x.toNat := by
  cases hfirst : first b bs with
  | invalid b' =>
    rw [hfirst] at hx
    have hlead := bytes_first_leads b bs
    rw [hfirst] at hlead
    obtain ⟨tail, htail⟩ := hlead
    cases htail
    simp only [bytes, List.mem_singleton] at hx
    rw [hx]
    exact hb
  | valid c =>
    rw [hfirst] at hx
    refine le_of_mem_utf8 (Nat.le_of_not_lt fun hc => ?_) hx
    have hlead := first_eq_valid_iff.mp hfirst
    rw [utf8_of_ascii hc] at hlead
    obtain ⟨tail, htail⟩ := hlead
    cases htail
    exact ne_ascii_of_le hb hc rfl

/-- The first rune of a text, with the text behind it, which is shorter. -/
theorem exists_decode_cons (b : UInt8) (bs : Bytes) :
    ∃ rest, b :: bs = (first b bs).bytes ++ rest ∧ rest.length < (b :: bs).length ∧
      decode (b :: bs) = first b bs :: decode rest := by
  obtain ⟨rest, hrest⟩ := bytes_first_leads b bs
  refine ⟨rest, hrest.symm, ?_, ?_⟩
  · have hpos : 0 < (first b bs).bytes.length := width_pos (first b bs)
    rw [← hrest, List.length_append]
    omega
  · rw [decode_cons, ← hrest, width, List.drop_left]

/-! ## Characters -/

theorem decode_utf8_append (c : Char) (bs : Bytes) :
    decode (c.utf8 ++ bs) = .valid c :: decode bs := by
  cases hutf : c.utf8 with
  | nil => exact absurd hutf String.utf8EncodeChar_ne_nil
  | cons b xs =>
    have hfirst : first b (xs ++ bs) = .valid c := by
      rw [first_eq_valid_iff, hutf]
      exact ⟨bs, rfl⟩
    rw [List.cons_append, decode_cons, hfirst, width, bytes, hutf, ← List.cons_append,
      List.drop_left]

theorem decode_ofChars_append (cs : List Char) (bs : Bytes) :
    decode (Bytes.ofChars cs ++ bs) = cs.map .valid ++ decode bs := by
  induction cs with
  | nil => rfl
  | cons c cs ih =>
    have hcons : Bytes.ofChars (c :: cs) ++ bs = c.utf8 ++ (Bytes.ofChars cs ++ bs) := by
      simp [Bytes.ofChars]
    rw [hcons, decode_utf8_append, ih]
    rfl

theorem decode_ascii_cons {c : Char} (hc : c.toNat < 128) (bs : Bytes) :
    decode (c.ascii :: bs) = .valid c :: decode bs := by
  rw [← decode_utf8_append, utf8_of_ascii hc]
  rfl

theorem ofChars_of_ascii {cs : List Char} (hcs : ∀ c ∈ cs, c.toNat < 128) :
    Bytes.ofChars cs = Bytes.ofAscii cs := by
  induction cs with
  | nil => rfl
  | cons c cs ih =>
    have hc := utf8_of_ascii (hcs c List.mem_cons_self)
    have hrest := ih fun x hx => hcs x (List.mem_cons_of_mem c hx)
    simp only [Bytes.ofChars, Bytes.ofAscii, List.flatMap_cons, List.map_cons, hc] at hrest ⊢
    rw [hrest]
    rfl

theorem decode_ofAscii_append {cs : List Char} (hcs : ∀ c ∈ cs, c.toNat < 128) (bs : Bytes) :
    decode (Bytes.ofAscii cs ++ bs) = cs.map .valid ++ decode bs := by
  rw [← ofChars_of_ascii hcs, decode_ofChars_append]

theorem decode_ofAscii {cs : List Char} (hcs : ∀ c ∈ cs, c.toNat < 128) :
    decode (Bytes.ofAscii cs) = cs.map .valid := by
  have hdecode := decode_ofAscii_append hcs []
  rwa [List.append_nil, decode_nil, List.append_nil] at hdecode

theorem encode_map_valid (cs : List Char) : encode (cs.map .valid) = Bytes.ofChars cs := by
  simp [encode, Bytes.ofChars, List.flatMap_map, bytes]

end Rune

/-! ## Cutting a text -/

/-- Whether a byte string is empty or starts with an ASCII byte. -/
def Bytes.StartsAscii (bs : Bytes) : Prop :=
  ∀ b ∈ bs.head?, b.toNat < 128

theorem Bytes.startsAscii_cons {c : Char} (hc : c.toNat < 128) (bs : Bytes) :
    Bytes.StartsAscii (c.ascii :: bs) := by
  intro b hb
  cases hb
  rwa [ascii_toNat hc]

namespace Rune

theorem leads_of_leads_append {xs as bs : Bytes} (hxs : ∀ x ∈ xs, 128 ≤ x.toNat)
    (hbs : bs.StartsAscii) (h : xs <+: as ++ bs) : xs <+: as := by
  induction xs generalizing as with
  | nil => exact List.nil_prefix
  | cons x xs ih =>
    obtain ⟨tail, htail⟩ := h
    cases as with
    | nil =>
      rw [List.nil_append] at htail
      have hlow : x.toNat < 128 := hbs x (by rw [← htail]; rfl)
      have hhigh := hxs x List.mem_cons_self
      omega
    | cons a as =>
      injection htail with hxa hrest
      subst hxa
      exact (List.prefix_cons_inj x).mpr
        (ih (fun y hy => hxs y (List.mem_cons_of_mem x hy)) ⟨tail, hrest⟩)

theorem first_append {b : UInt8} {as bs : Bytes} (hbs : bs.StartsAscii) :
    first b (as ++ bs) = first b as := by
  by_cases hb : b.toNat < 128
  · rw [first_of_ascii hb, first_of_ascii hb]
  · have hlead : ∀ c, leadingChar? (b :: as ++ bs) = some c ↔ leadingChar? (b :: as) = some c := by
      intro c
      rw [leadingChar?_eq_some_iff, leadingChar?_eq_some_iff]
      constructor
      · intro h
        have hfirst : first b (as ++ bs) = .valid c := first_eq_valid_iff.mpr h
        refine leads_of_leads_append (fun x hx => ?_) hbs h
        exact le_of_mem_bytes_first (Nat.le_of_not_lt hb) (by rw [hfirst]; exact hx)
      · intro h
        exact h.trans (List.prefix_append _ _)
    have heq : leadingChar? (b :: (as ++ bs)) = leadingChar? (b :: as) := Option.ext hlead
    unfold first
    rw [heq]

theorem width_first_le (b : UInt8) (bs : Bytes) : (first b bs).width ≤ (b :: bs).length :=
  (bytes_first_leads b bs).length_le

/-- A text may be cut in front of an ASCII byte. -/
theorem decode_append (as : Bytes) {bs : Bytes} (hbs : bs.StartsAscii) :
    decode (as ++ bs) = decode as ++ decode bs := by
  induction hn : as.length using Nat.strongRecOn generalizing as with
  | ind n ih =>
    cases as with
    | nil => simp
    | cons a as =>
      have hle := width_first_le a as
      have hpos := width_pos (first a as)
      have hlt : ((a :: as).drop (first a as).width).length < n := by
        rw [List.length_drop]
        omega
      rw [List.cons_append, decode_cons, decode_cons, first_append hbs, ← List.cons_append,
        List.drop_append_of_le_length hle, ih _ hlt _ rfl]
      rfl

/-- A text may be cut behind an ASCII byte. -/
theorem decode_concat_append (as : Bytes) {c : Char} (hc : c.toNat < 128) (bs : Bytes) :
    decode (as ++ [c.ascii] ++ bs) = decode (as ++ [c.ascii]) ++ decode bs := by
  have hstart := Bytes.startsAscii_cons hc
  rw [List.append_assoc, List.singleton_append, decode_append as (hstart bs),
    decode_append as (hstart []), decode_ascii_cons hc, decode_ascii_cons hc, decode_nil,
    List.append_assoc, List.singleton_append]

/-! ## What decoding yields -/

/-- Decoding leaves single bytes only above ASCII. -/
def IsRead : Rune → Prop
  | .valid _   => True
  | .invalid b => 128 ≤ b.toNat

theorem isRead_first (b : UInt8) (bs : Bytes) : (first b bs).IsRead := by
  by_cases hb : b.toNat < 128
  · rw [first_of_ascii hb]
    trivial
  · cases hfirst : first b bs with
    | valid c => trivial
    | invalid b' =>
      exact le_of_mem_bytes_first (Nat.le_of_not_lt hb) (by rw [hfirst]; simp [bytes])

theorem isRead_of_mem_decode {bs : Bytes} {r : Rune} (hr : r ∈ decode bs) : r.IsRead := by
  induction hn : bs.length using Nat.strongRecOn generalizing bs with
  | ind n ih =>
    cases bs with
    | nil => simp at hr
    | cons b bs =>
      obtain ⟨rest, -, hlen, hdecode⟩ := exists_decode_cons b bs
      rw [hdecode] at hr
      rcases List.mem_cons.mp hr with rfl | hr
      · exact isRead_first b bs
      · exact ih _ (hn ▸ hlen) hr rfl

/-- A rune that has no ASCII byte in it. -/
structure High (r : Rune) : Prop where
  char : ∀ c, r = .valid c → 128 ≤ c.toNat
  bytes : ∀ b ∈ r.bytes, 128 ≤ b.toNat

/-- What is read is an ASCII character, in one byte, or has no ASCII byte in it. -/
theorem IsRead.ascii_or_high {r : Rune} (hr : r.IsRead) :
    (∃ c : Char, r = .valid c ∧ c.toNat < 128 ∧ r.bytes = [c.ascii]) ∨ r.High := by
  cases r with
  | invalid b =>
    refine .inr ⟨nofun, fun x hx => ?_⟩
    rw [List.mem_singleton.mp hx]
    exact hr
  | valid c =>
    by_cases hc : c.toNat < 128
    · exact .inl ⟨c, rfl, hc, utf8_of_ascii hc⟩
    · refine .inr ⟨fun c' h => ?_, fun b hb => le_of_mem_utf8 (Nat.le_of_not_lt hc) hb⟩
      cases h
      exact Nat.le_of_not_lt hc

theorem High.exists_cons {r : Rune} (hr : r.High) :
    ∃ (b : UInt8) (bs : Bytes), r.bytes = b :: bs ∧ 128 ≤ b.toNat := by
  have hpos := width_pos r
  cases hbytes : r.bytes with
  | nil =>
    rw [width, hbytes] at hpos
    cases hpos
  | cons b bs => exact ⟨b, bs, rfl, hr.bytes b (by rw [hbytes]; exact List.mem_cons_self)⟩

theorem High.not_satisfies {r : Rune} (hr : r.High) {p : Char → Bool}
    (hp : ∀ c, p c → c.toNat < 128) : r.satisfies p = false := by
  cases r with
  | invalid b => rfl
  | valid c =>
    have hc := hr.char c rfl
    refine Bool.eq_false_iff.mpr fun h => ?_
    have hlt := hp c h
    omega

theorem IsRead.ne_ascii_of_mem {r : Rune} (hr : r.IsRead) {c : Char} (hc : c.toNat < 128)
    (hne : r ≠ .valid c) {b : UInt8} (hb : b ∈ r.bytes) : b ≠ c.ascii := by
  rintro rfl
  rcases hr.ascii_or_high with ⟨c', rfl, hc', hbytes⟩ | hhigh
  · rw [hbytes, List.mem_singleton] at hb
    exact hne (by rw [(ascii_inj hc hc').mp hb])
  · exact ne_ascii_of_le (hhigh.bytes _ hb) hc rfl

theorem high_first {b : UInt8} (hb : 128 ≤ b.toNat) (bs : Bytes) : (first b bs).High := by
  refine ⟨fun c hc => ?_, fun x hx => le_of_mem_bytes_first hb hx⟩
  refine Nat.le_of_not_lt fun hlt => ?_
  have hmem : c.ascii ∈ (first b bs).bytes := by
    rw [hc, bytes, utf8_of_ascii hlt]
    exact List.mem_cons_self
  exact ne_ascii_of_le (le_of_mem_bytes_first hb hmem) hlt rfl

theorem encode_eq_ascii_cons {rs : List Rune} (hrs : ∀ r ∈ rs, r.IsRead) {c : Char} {bs : Bytes}
    (hc : c.toNat < 128) (h : encode rs = c.ascii :: bs) :
    ∃ ss, rs = .valid c :: ss ∧ encode ss = bs := by
  cases rs with
  | nil => cases h
  | cons r ss =>
    rw [encode_cons] at h
    rcases (hrs r List.mem_cons_self).ascii_or_high with ⟨c', rfl, hc', hbytes⟩ | hhigh
    · rw [hbytes] at h
      injection h with hhead htail
      exact ⟨ss, by rw [(ascii_inj hc' hc).mp hhead], htail⟩
    · obtain ⟨b, bs', hbytes, hb⟩ := hhigh.exists_cons
      rw [hbytes] at h
      injection h with hhead htail
      exact absurd hhead (ne_ascii_of_le hb hc)

theorem eq_nil_of_decode_eq_nil {bs : Bytes} (h : decode bs = []) : bs = [] := by
  rw [← encode_decode bs, h, encode_nil]

theorem exists_first_of_decode {bs : Bytes} {r : Rune} {rs : List Rune} (h : decode bs = r :: rs) :
    ∃ (b : UInt8) (bs' : Bytes), bs = b :: bs' ∧ first b bs' = r := by
  cases bs with
  | nil =>
    rw [decode_nil] at h
    cases h
  | cons b bs' =>
    rw [decode_cons] at h
    exact ⟨b, bs', rfl, (List.cons.inj h).1⟩

/-- A text that is read in two parts consists of two texts. -/
theorem decode_eq_append {bs : Bytes} {rs ss : List Rune} (h : decode bs = rs ++ ss) :
    ∃ cs, bs = encode rs ++ cs ∧ decode cs = ss := by
  induction rs generalizing bs with
  | nil => exact ⟨bs, rfl, h⟩
  | cons r rs ih =>
    cases bs with
    | nil => simp at h
    | cons b bs =>
      obtain ⟨rest, hbs, -, hdecode⟩ := exists_decode_cons b bs
      rw [hdecode, List.cons_append] at h
      injection h with hr hrest
      obtain ⟨cs, hcs, hsplit⟩ := ih hrest
      refine ⟨cs, ?_, hsplit⟩
      rw [encode_cons, List.append_assoc, ← hcs, ← hr]
      exact hbs

theorem decode_eq_ascii_cons {bs : Bytes} {c : Char} (hc : c.toNat < 128) {rs : List Rune}
    (h : decode bs = .valid c :: rs) : ∃ cs, bs = c.ascii :: cs ∧ decode cs = rs := by
  have hsplit : decode bs = [.valid c] ++ rs := h
  obtain ⟨cs, rfl, hcs⟩ := decode_eq_append hsplit
  exact ⟨cs, by rw [encode_cons, bytes, utf8_of_ascii hc]; rfl, hcs⟩

/-- The widths of runes add up to the length of their text. -/
theorem foldl_width (rs : List Rune) (n : Nat) :
    rs.foldl (fun n r => n + r.width) n = n + (encode rs).length := by
  induction rs generalizing n with
  | nil => rfl
  | cons r rs ih => rw [List.foldl_cons, ih, encode_cons, List.length_append, width, Nat.add_assoc]

end Rune

/-! ## Well-formed texts -/

namespace Bytes

theorem isUtf8_ofChars (cs : List Char) : (Bytes.ofChars cs).isUtf8 := by
  have hdecode := Rune.decode_ofChars_append cs []
  rw [List.append_nil, Rune.decode_nil, List.append_nil] at hdecode
  simp [Bytes.isUtf8, hdecode, Rune.isValid]

theorem sanitise_of_isUtf8 {bs : Bytes} (h : bs.isUtf8) : bs.sanitise = bs := by
  have hbytes : ∀ r ∈ Rune.decode bs, r.char.utf8 = r.bytes := by
    intro r hr
    have hvalid := List.all_eq_true.mp h r hr
    cases r with
    | valid c => rfl
    | invalid b => cases hvalid
  calc bs.sanitise
      = (Rune.decode bs).flatMap fun r => r.char.utf8 := by
        simp [Bytes.sanitise, Bytes.ofChars, Bytes.chars, List.flatMap_map]
    _ = Rune.encode (Rune.decode bs) := by
        simp only [List.flatMap_def, Rune.encode, List.map_congr_left hbytes]
    _ = bs := Rune.encode_decode bs

/-- Well-formed byte strings are the encodings of characters. -/
theorem isUtf8_iff {bs : Bytes} : bs.isUtf8 ↔ ∃ cs, bs = Bytes.ofChars cs := by
  constructor
  · intro h
    exact ⟨bs.chars, (sanitise_of_isUtf8 h).symm⟩
  · rintro ⟨cs, rfl⟩
    exact isUtf8_ofChars cs

theorem isUtf8_of_cut {as bs : Bytes}
    (hcut : Rune.decode (as ++ bs) = Rune.decode as ++ Rune.decode bs)
    (h : Bytes.isUtf8 (as ++ bs)) : as.isUtf8 ∧ bs.isUtf8 := by
  rw [Bytes.isUtf8, hcut, List.all_append, Bool.and_eq_true] at h
  exact h

theorem isUtf8_utf8 (c : Char) : Bytes.isUtf8 c.utf8 :=
  isUtf8_iff.mpr ⟨[c], (List.append_nil c.utf8).symm⟩

/-- What stands behind ASCII in a well-formed text is well-formed. -/
theorem isUtf8_of_ascii_append {as bs : Bytes} (has : ∀ b ∈ as, b.toNat < 128)
    (h : Bytes.isUtf8 (as ++ bs)) : bs.isUtf8 := by
  induction as with
  | nil => exact h
  | cons a as ih =>
    obtain ⟨ha, has⟩ := List.forall_mem_cons.mp has
    have hchar : (Char.ofNat a.toNat).toNat < 128 := by rwa [toNat_ofNat_of_lt (by omega)]
    rw [List.cons_append, isUtf8, ← ascii_ofNat ha, Rune.decode_ascii_cons hchar, List.all_cons,
      Bool.and_eq_true] at h
    exact ih has h.2

theorem isUtf8_append {as bs : Bytes} (has : as.isUtf8) (hbs : bs.isUtf8) :
    Bytes.isUtf8 (as ++ bs) := by
  obtain ⟨cs, rfl⟩ := isUtf8_iff.mp has
  obtain ⟨cs', rfl⟩ := isUtf8_iff.mp hbs
  exact isUtf8_iff.mpr ⟨cs ++ cs', by rw [ofChars, ofChars, ofChars, List.flatMap_append]⟩

theorem isUtf8_flatMap {α : Type} {f : α → Bytes} {xs : List α} (h : ∀ x ∈ xs, (f x).isUtf8) :
    Bytes.isUtf8 (xs.flatMap f) := by
  induction xs with
  | nil => exact isUtf8_ofChars []
  | cons x xs ih =>
    obtain ⟨hx, hxs⟩ := List.forall_mem_cons.mp h
    exact isUtf8_append hx (ih hxs)

theorem isUtf8_of_ascii {bs : Bytes} (h : ∀ b ∈ bs, b.toNat < 128) : bs.isUtf8 := by
  refine isUtf8_iff.mpr ⟨bs.map fun b => Char.ofNat b.toNat, ?_⟩
  induction bs with
  | nil => rfl
  | cons b bs ih =>
    obtain ⟨hb, hbs⟩ := List.forall_mem_cons.mp h
    have hchar : (Char.ofNat b.toNat).utf8 = [b] := by
      rw [utf8_of_ascii (by rwa [toNat_ofNat_of_lt (by omega)]), ascii_ofNat hb]
    rw [List.map_cons, ofChars, List.flatMap_cons, hchar]
    exact congrArg (b :: ·) (ih hbs)

end Bytes

end RelaxedJson
