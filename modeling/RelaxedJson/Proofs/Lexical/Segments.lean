-- SUMMARY: What the inside of a literal stands for, told from its division into runs and escapes.
import RelaxedJson.Proofs.Lexical.Literals

/-!
# Segments

The inside of a literal divides into runs of ordinary bytes and escapes (`Division.ofBytes`). What it
stands for can be told from the segments: each by itself, except that two Unicode escapes next to
each other may spell a single character (`Segment.read`). That is what `Escape.unescape` computes
(`Escape.unescape_eq_read`). So a string body, which has proper escapes only, can always be read, and
a well-formed one stands for a well-formed text (`Escape.unescape_of_body`); and a list of code units
that is spelled by Unicode escapes is decoded as UTF-16.
-/

namespace RelaxedJson

/-! ## UTF-16 -/

namespace Utf16

/-- Whether a code unit is the first half of a pair. -/
def isHigh (unit : UInt16) : Bool :=
  0xD800 ≤ unit.toNat && unit.toNat < 0xDC00

/-- Whether a code unit is the second half of a pair. -/
def isLow (unit : UInt16) : Bool :=
  0xDC00 ≤ unit.toNat && unit.toNat < 0xE000

/-- The character of two code units that form a pair. -/
def pair? (high low : UInt16) : Option Char :=
  if isHigh high && isLow low then
    some (Char.ofNat (0x10000 + 0x400 * (high.toNat - 0xD800) + (low.toNat - 0xDC00)))
  else none

/-- The character of a code unit by itself. Half of a pair is none. -/
def alone (unit : UInt16) : Char :=
  if isHigh unit || isLow unit then replacement else Char.ofNat unit.toNat

/-- The characters of a list of code units. -/
def decode : List UInt16 → List Char
  | high :: low :: units =>
    match pair? high low with
    | some c => c :: decode units
    | none   => alone high :: decode (low :: units)
  | [unit] => [alone unit]
  | []     => []

end Utf16

/-! ## Segments -/

/-- A part of the inside of a literal. -/
inductive Segment where
  /-- Bytes that stand for themselves. -/
  | run (bytes : Bytes)
  /-- A backslash and one rune. -/
  | escape (r : Rune)
  /-- A backslash, a `u` and four bytes. -/
  | unicode (digits : Bytes)
  deriving DecidableEq, Repr

/-- How a division into segments ends. -/
inductive Ending where
  | complete
  /-- There is a backslash left, with nothing behind it. -/
  | backslash
  /-- There is a backslash left, a `u`, and fewer than four bytes behind it. -/
  | unicode (rest : Bytes)
  deriving DecidableEq, Repr

/-- A division into segments. -/
structure Division where
  segments : List Segment
  ending : Ending
  deriving DecidableEq, Repr

namespace Segment

/-- The bytes of a segment. -/
def bytes : Segment → Bytes
  | .run bs         => bs
  | .escape r       => '\\'.ascii :: r.bytes
  | .unicode digits => '\\'.ascii :: 'u'.ascii :: digits

end Segment

namespace Division

/-- A division with one more segment in front. -/
def cons (s : Segment) (D : Division) : Division :=
  { D with segments := s :: D.segments }

/-- Divides a byte string from left to right. A run goes on up to the next backslash. -/
def ofBytes : Bytes → Division
  | [] => ⟨[], .complete⟩
  | b :: bs =>
    if b ≠ '\\'.ascii then
      (ofBytes (bs.dropWhile (· ≠ '\\'.ascii))).cons (.run (b :: bs.takeWhile (· ≠ '\\'.ascii)))
    else match bs with
      | [] => ⟨[], .backslash⟩
      | e :: rest =>
        if e ≠ 'u'.ascii then
          (ofBytes (Escape.behind e rest)).cons (.escape (Rune.first e rest))
        else if rest.length < 4 then ⟨[], .unicode rest⟩
        else (ofBytes (rest.drop 4)).cons (.unicode (rest.take 4))
termination_by bs => bs.length
decreasing_by
  · have hle := (List.dropWhile_suffix (l := bs) (· ≠ '\\'.ascii)).length_le
    simp only [List.length_cons]
    omega
  all_goals simp only [Escape.behind, List.length_drop, List.length_cons]; omega

end Division

namespace Ending

/-- The bytes that are left. -/
def bytes : Ending → Bytes
  | .complete     => []
  | .backslash    => ['\\'.ascii]
  | .unicode rest => '\\'.ascii :: 'u'.ascii :: rest

end Ending

/-- The bytes that are divided. -/
def Division.bytes (D : Division) : Bytes :=
  D.segments.flatMap Segment.bytes ++ D.ending.bytes

namespace Segment

/-! ## Meaning -/

/-- The character that a rune behind a backslash stands for. -/
def letter? : Rune → Option Char
  | .valid '"'  => some '"'
  | .valid '\'' => some '\''
  | .valid '\\' => some '\\'
  | .valid '/'  => some '/'
  | .valid 'b'  => some '\x08'
  | .valid 'f'  => some '\x0c'
  | .valid 'n'  => some '\n'
  | .valid 'r'  => some '\r'
  | .valid 't'  => some '\t'
  | _           => none

/-- The code unit that four hexadecimal digits spell. -/
def unitOf? (digits : Bytes) : Option UInt16 :=
  if digits.length = 4 then
    (digits.mapM hexValue?).map fun values => UInt16.ofNat (Nat.ofDigits 16 values.reverse)
  else none

/-- The code unit of a Unicode escape. -/
def unit? : Segment → Option UInt16
  | .unicode digits => unitOf? digits
  | _               => none

/-- What a segment stands for by itself, if it is proper. -/
def meaning? : Segment → Option Bytes
  | .run bs         => some bs
  | .escape r       => (letter? r).map Char.utf8
  | .unicode digits => (unitOf? digits).map fun unit => (Utf16.alone unit).utf8

/-- What a segment is read as by itself. -/
def alone (s : Segment) : Bytes :=
  s.meaning?.getD replacement.utf8

/-- The character that two segments spell together. -/
def pair? (s t : Segment) : Option Char := do
  Utf16.pair? (← s.unit?) (← t.unit?)

/-- What segments are read as, one behind the other. -/
def read : List Segment → Bytes
  | s :: t :: more =>
    match s.pair? t with
    | some c => c.utf8 ++ read more
    | none   => s.alone ++ read (t :: more)
  | [s] => s.alone
  | []  => []

end Segment

/-- A Unicode escape of the code unit, with digits of either case. -/
def Utf16.Spells (bs : Bytes) (unit : UInt16) : Prop :=
  ∃ digits, Segment.unitOf? digits = some unit ∧ bs = (Segment.unicode digits).bytes

/-- What a division is read as. -/
def Division.read (D : Division) : Except EscapeError Bytes :=
  match D.ending with
  | .complete  => .ok (Segment.read D.segments)
  | .backslash => .error .incompleteEscape
  | .unicode _ => .error .incompleteUnicode

/-! ## Escapes -/

theorem hexValue?_lt {b : UInt8} {n : Nat} (h : hexValue? b = some n) : n < 16 := by
  simp only [hexValue?, UInt8.le_iff_toNat_le] at h
  have h0 : '0'.ascii.toNat = 48 := rfl
  have h9 : '9'.ascii.toNat = 57 := rfl
  have ha : 'a'.ascii.toNat = 97 := rfl
  have hf : 'f'.ascii.toNat = 102 := rfl
  have hA : 'A'.ascii.toNat = 65 := rfl
  have hF : 'F'.ascii.toNat = 70 := rfl
  have h0' : '0'.toNat = 48 := rfl
  have ha' : 'a'.toNat = 97 := rfl
  have hA' : 'A'.toNat = 65 := rfl
  grind

namespace Segment

theorem length_of_unitOf? {digits : Bytes} {unit : UInt16} (h : unitOf? digits = some unit) :
    digits.length = 4 := by
  unfold unitOf? at h
  split at h
  · assumption
  · cases h

end Segment

namespace Escape

theorem bytes_first_append_behind (e : UInt8) (rest : Bytes) :
    (Rune.first e rest).bytes ++ behind e rest = e :: rest := by
  obtain ⟨more, hmore⟩ := Rune.bytes_first_leads e rest
  have hdrop : (e :: rest).drop (Rune.first e rest).width = more := by
    rw [← hmore, Rune.width, List.drop_left]
  obtain ⟨n, hn⟩ : ∃ n, (Rune.first e rest).width = n + 1 :=
    Nat.exists_eq_succ_of_ne_zero (Rune.width_pos _).ne'
  rw [hn, List.drop_succ_cons] at hdrop
  rw [behind, hn, Nat.add_sub_cancel, hdrop, hmore]

/-- What is no Unicode escape stands for the character of its letter. -/
theorem meaning_of_ne {r : Rune} (hr : r ≠ .valid 'u') (bs : Bytes) :
    meaning r bs = .ok ((Segment.letter? r).getD replacement, 0) := by
  unfold meaning
  split
  case h_10 => exact absurd rfl hr
  case h_11 =>
    unfold Segment.letter?
    split <;> first | rfl | contradiction
  all_goals rfl

theorem codeUnit?_append {digits : Bytes} (h : digits.length = 4) (rest : Bytes) :
    codeUnit? (digits ++ rest) = (Segment.unitOf? digits).map UInt16.toNat := by
  match digits, h with
  | [a, b, c, d], _ =>
    cases ha : hexValue? a with
    | none => simp [codeUnit?, Segment.unitOf?, ha]
    | some na =>
      cases hb : hexValue? b with
      | none => simp [codeUnit?, Segment.unitOf?, ha, hb]
      | some nb =>
        cases hc : hexValue? c with
        | none => simp [codeUnit?, Segment.unitOf?, ha, hb, hc]
        | some nc =>
          cases hd : hexValue? d with
          | none => simp [codeUnit?, Segment.unitOf?, ha, hb, hc, hd]
          | some nd =>
            have hna := hexValue?_lt ha
            have hnb := hexValue?_lt hb
            have hnc := hexValue?_lt hc
            have hnd := hexValue?_lt hd
            simp [codeUnit?, Segment.unitOf?, ha, hb, hc, hd, Nat.ofDigits_cons]
            omega

theorem codeUnit?_of_short {bs : Bytes} (h : bs.length < 4) : codeUnit? bs = none := by
  match bs with
  | [] | [_] | [_, _] | [_, _, _] => rfl
  | _ :: _ :: _ :: _ :: bs =>
    simp only [List.length_cons] at h
    omega

theorem isSurrogate_toNat (unit : UInt16) :
    isSurrogate unit.toNat = (Utf16.isHigh unit || Utf16.isLow unit) := by
  simp only [isSurrogate, Utf16.isHigh, Utf16.isLow]
  grind

theorem pairChar?_toNat (high low : UInt16) :
    pairChar? high.toNat low.toNat = Utf16.pair? high low := by
  have hcode : (high.toNat - 0xD800) * 0x400 + (low.toNat - 0xDC00) + 0x10000 =
      0x10000 + 0x400 * (high.toNat - 0xD800) + (low.toNat - 0xDC00) := by
    omega
  simp only [pairChar?, Utf16.pair?, Utf16.isHigh, Utf16.isLow, Bool.and_eq_true, decide_eq_true_eq,
    and_assoc, hcode]

end Escape

/-! ## Divisions -/

namespace Division

theorem ofBytes_nil : ofBytes [] = ⟨[], .complete⟩ := by
  rw [ofBytes]

theorem run_split (b : UInt8) (bs : Bytes) :
    b :: bs = (b :: bs.takeWhile (· ≠ '\\'.ascii)) ++ bs.dropWhile (· ≠ '\\'.ascii) := by
  rw [List.cons_append, List.takeWhile_append_dropWhile]

theorem ne_of_mem_run {b : UInt8} (hb : b ≠ '\\'.ascii) {bs : Bytes} :
    ∀ x ∈ b :: bs.takeWhile (· ≠ '\\'.ascii), x ≠ '\\'.ascii :=
  List.forall_mem_cons.mpr ⟨hb, fun x hx => by simpa using List.mem_takeWhile_imp hx⟩

theorem ofBytes_unicode {digits : Bytes} (h : digits.length = 4) (rest : Bytes) :
    ofBytes ('\\'.ascii :: 'u'.ascii :: (digits ++ rest)) =
      (ofBytes rest).cons (.unicode digits) := by
  have hlong : ¬ (digits ++ rest).length < 4 := by
    rw [List.length_append]
    omega
  rw [ofBytes, if_neg (by simp)]
  simp only [ne_eq, not_true_eq_false, ↓reduceIte, if_neg hlong, List.take_left' h,
    List.drop_left' h]

theorem bytes_cons (s : Segment) (D : Division) : (D.cons s).bytes = s.bytes ++ D.bytes := by
  simp [bytes, cons]

/-- Dividing loses nothing. -/
theorem bytes_ofBytes (bs : Bytes) : (ofBytes bs).bytes = bs := by
  fun_induction ofBytes bs with
  | case1 => rfl
  | case2 b bs hb ih =>
    rw [bytes_cons, ih, Segment.bytes, ← run_split]
  | case3 b hb =>
    cases not_not.mp hb
    rfl
  | case4 b hb e rest he ih =>
    cases not_not.mp hb
    rw [bytes_cons, ih, Segment.bytes, List.cons_append, Escape.bytes_first_append_behind]
  | case5 b hb e rest he hshort =>
    cases not_not.mp hb
    cases not_not.mp he
    rfl
  | case6 b hb e rest he hlong ih =>
    cases not_not.mp hb
    cases not_not.mp he
    rw [bytes_cons, ih, Segment.bytes, List.cons_append, List.cons_append, List.take_append_drop]

theorem read_cons_alone {s : Segment} {D : Division}
    (h : ∀ t ∈ D.segments.head?, s.pair? t = none) :
    (D.cons s).read = D.read.map (s.alone ++ ·) := by
  obtain ⟨segments, ending⟩ := D
  have hread : Segment.read (s :: segments) = s.alone ++ Segment.read segments := by
    cases segments with
    | nil => simp [Segment.read]
    | cons t more => simp [Segment.read, h t rfl]
  cases ending <;> simp [read, cons, hread, Except.map]

/-- Only a Unicode escape has a code unit. -/
theorem exists_of_unit? {bs : Bytes} {t : Segment} {unit : UInt16}
    (ht : t ∈ (ofBytes bs).segments.head?) (hunit : t.unit? = some unit) :
    ∃ digits rest : Bytes, bs = '\\'.ascii :: 'u'.ascii :: (digits ++ rest) ∧ digits.length = 4 ∧
      t = .unicode digits := by
  cases t with
  | run _ | escape _ => cases hunit
  | unicode digits =>
    have hbytes := bytes_ofBytes bs
    obtain ⟨more, hmore⟩ := List.head?_eq_some_iff.mp ht
    rw [bytes, hmore, List.flatMap_cons, List.append_assoc] at hbytes
    exact ⟨digits, _, hbytes.symm, Segment.length_of_unitOf? hunit, rfl⟩

theorem read_cons_pair {s t : Segment} {c : Char} (h : s.pair? t = some c) (D : Division) :
    ((D.cons t).cons s).read = D.read.map (c.utf8 ++ ·) := by
  obtain ⟨segments, ending⟩ := D
  cases ending <;> simp [read, cons, Segment.read, h, Except.map]

end Division

namespace Escape

/-- A code unit that bytes start with is that of the segment they start with. -/
theorem nextUnit?_eq (bs : Bytes) :
    nextUnit? bs =
      ((Division.ofBytes bs).segments.head?.bind Segment.unit?).map UInt16.toNat := by
  fun_cases Division.ofBytes bs with
  | case1 => rfl
  | case2 b bs hb =>
    have hnone : nextUnit? (b :: bs) = none := by
      cases bs with
      | nil => rfl
      | cons e rest => exact if_neg fun h => hb h.1
    rw [hnone]
    rfl
  | case3 b hb => rfl
  | case4 b hb e rest he =>
    rw [nextUnit?, if_neg fun h => he h.2]
    rfl
  | case5 b hb e rest he hshort => simp [nextUnit?, codeUnit?_of_short hshort]
  | case6 b hb e rest he hlong =>
    have htake : (rest.take 4).length = 4 := by
      rw [List.length_take]
      omega
    have hunit := codeUnit?_append htake (rest.drop 4)
    rw [List.take_append_drop] at hunit
    rw [nextUnit?, if_pos ⟨not_not.mp hb, not_not.mp he⟩, hunit]
    rfl

/-- A Unicode escape pairs with the segment behind it, or is read by itself. -/
theorem unicode_append {digits : Bytes} (h : digits.length = 4) (rest : Bytes) :
    unicode (digits ++ rest) = .ok
      (match (Division.ofBytes rest).segments.head?.bind (Segment.unicode digits).pair? with
        | some c => (c, 10)
        | none   => (((Segment.unitOf? digits).map Utf16.alone).getD replacement, 4)) := by
  have hlong : ((digits ++ rest).drop 3).isEmpty = false := by
    rw [List.isEmpty_eq_false_iff, ne_eq, List.drop_eq_nil_iff, List.length_append]
    omega
  have hpair : ∀ t : Segment, (Segment.unicode digits).pair? t =
      (Segment.unitOf? digits).bind fun high => t.unit?.bind (Utf16.pair? high) := fun _ => rfl
  simp only [unicode, hlong, codeUnit?_append h, List.drop_left' h, nextUnit?_eq, hpair]
  cases hunit : Segment.unitOf? digits with
  | none => simp
  | some unit =>
    simp only [Option.map_some, Option.bind_some, Option.getD_some, Option.bind_map,
      Function.comp_def, pairChar?_toNat, Option.bind_assoc, isSurrogate_toNat, Bool.false_eq_true,
      ↓reduceIte]
    split
    case isTrue hsurrogate =>
      rw [Utf16.alone, if_pos hsurrogate]
      cases (Division.ofBytes rest).segments.head?.bind fun t => t.unit?.bind (Utf16.pair? unit) <;>
        rfl
    case isFalse hsurrogate =>
      have hnone : ∀ low, Utf16.pair? unit low = none := by
        intro low
        rw [Bool.or_eq_true, not_or, Bool.not_eq_true] at hsurrogate
        simp [Utf16.pair?, hsurrogate.1]
      simp [Utf16.alone, hsurrogate, hnone]

/-- What a Unicode escape stands for, the segment behind it taken into account. -/
theorem unescape_unicode {digits : Bytes} (h : digits.length = 4) (rest : Bytes) :
    unescape ('\\'.ascii :: 'u'.ascii :: (digits ++ rest)) =
      match (Division.ofBytes rest).segments.head?.bind (Segment.unicode digits).pair? with
      | some c => (unescape (rest.drop 6)).map (c.utf8 ++ ·)
      | none   => (unescape rest).map ((Segment.unicode digits).alone ++ ·) := by
  have hmeaning : meaning (.valid 'u') (digits ++ rest) = _ := unicode_append h rest
  have hdrop : (digits ++ rest).drop 10 = rest.drop 6 := by
    rw [show 10 = digits.length + 6 by rw [h], List.drop_length_add_append]
  split at hmeaning
  case h_1 c hpair =>
    rw [unescape_of_ascii_meaning (by decide) hmeaning, hdrop]
  case h_2 hpair =>
    have halone : ((Segment.unitOf? digits).map Utf16.alone |>.getD replacement).utf8 =
        (Segment.unicode digits).alone := by
      rw [Segment.alone, Segment.meaning?]
      cases Segment.unitOf? digits <;> rfl
    rw [unescape_of_ascii_meaning (by decide) hmeaning, List.drop_left' h, halone]

theorem unescape_truncated {rest : Bytes} (h : rest.length < 4) :
    unescape ('\\'.ascii :: 'u'.ascii :: rest) = .error .incompleteUnicode := by
  have hfirst : Rune.first 'u'.ascii rest = .valid 'u' := (Rune.first_eq_ascii_iff (by decide)).mpr rfl
  have hempty : (rest.drop 3).isEmpty := by
    rw [List.isEmpty_iff, List.drop_eq_nil_iff]
    omega
  rw [unescape, if_neg (by simp)]
  simp only [hfirst, behind_ascii (c := 'u') (by decide), meaning, unicode, if_pos hempty]

/-- What a literal stands for can be told from its segments. -/
theorem unescape_eq_read (bs : Bytes) : unescape bs = (Division.ofBytes bs).read := by
  induction hn : bs.length using Nat.strongRecOn generalizing bs with
  | ind n ih =>
    fun_cases Division.ofBytes bs with
    | case1 => exact unescape_nil
    | case2 b bs hb =>
      have hlt : (bs.dropWhile (· ≠ '\\'.ascii)).length < n := by
        have hle := (List.dropWhile_suffix (l := bs) (· ≠ '\\'.ascii)).length_le
        simp only [List.length_cons] at hn
        omega
      rw [Division.read_cons_alone fun _ _ => rfl, ← ih _ hlt _ rfl, Division.run_split b bs,
        unescape_plain_append (Division.ne_of_mem_run hb)]
      rfl
    | case3 b hb =>
      cases not_not.mp hb
      rw [unescape]
      rfl
    | case4 b hb e rest he =>
      cases not_not.mp hb
      have hfirst : Rune.first e rest ≠ .valid 'u' :=
        fun h => he ((Rune.first_eq_ascii_iff (by decide)).mp h)
      have hlt : (behind e rest).length < n := by
        simp only [behind, List.length_drop]
        simp only [List.length_cons] at hn
        omega
      have halone : ((Segment.letter? (Rune.first e rest)).getD replacement).utf8 =
          (Segment.escape (Rune.first e rest)).alone := by
        rw [Segment.alone, Segment.meaning?]
        cases Segment.letter? (Rune.first e rest) <;> rfl
      rw [Division.read_cons_alone fun _ _ => rfl, ← ih _ hlt _ rfl,
        unescape_of_meaning (meaning_of_ne hfirst _), halone, List.drop_zero]
    | case5 b hb e rest he hshort =>
      cases not_not.mp hb
      cases not_not.mp he
      exact unescape_truncated hshort
    | case6 b hb e rest he hlong =>
      cases not_not.mp hb
      cases not_not.mp he
      have htake : (rest.take 4).length = 4 := by
        rw [List.length_take]
        omega
      have hlt : (rest.drop 4).length < n := by
        simp only [List.length_drop]
        simp only [List.length_cons] at hn
        omega
      have hread := unescape_unicode htake (rest.drop 4)
      rw [List.take_append_drop] at hread
      rw [hread]
      cases hpair : (Division.ofBytes (rest.drop 4)).segments.head?.bind
          (Segment.unicode (rest.take 4)).pair? with
      | none =>
        have hnone : ∀ t ∈ (Division.ofBytes (rest.drop 4)).segments.head?,
            (Segment.unicode (rest.take 4)).pair? t = none := Option.bind_eq_none_iff.mp hpair
        rw [Division.read_cons_alone hnone, ← ih _ hlt _ rfl]
      | some c =>
        obtain ⟨t, ht, hc⟩ := Option.bind_eq_some_iff.mp hpair
        obtain ⟨high, -, hunits⟩ := Option.bind_eq_some_iff.mp hc
        obtain ⟨low, hlow, -⟩ := Option.bind_eq_some_iff.mp hunits
        obtain ⟨digits, more, hmore, hdigits, rfl⟩ := Division.exists_of_unit? ht hlow
        have hdrop : (rest.drop 4).drop 6 = more := by
          rw [hmore, show 6 = digits.length + 2 by rw [hdigits], List.drop_succ_cons,
            List.drop_succ_cons, List.drop_left]
        have hlt' : more.length < n := by
          rw [← hdrop, List.length_drop]
          omega
        rw [hdrop, hmore, Division.ofBytes_unicode hdigits, Division.read_cons_pair hc,
          ← ih _ hlt' _ rfl]

end Escape

/-! ## String bodies -/

/-- A complete division into proper segments. -/
structure Division.Proper (D : Division) : Prop where
  complete : D.ending = .complete
  meanings : ∀ s ∈ D.segments, s.meaning?.isSome

theorem Division.Proper.cons {s : Segment} {D : Division} (hs : s.meaning?.isSome)
    (h : D.Proper) : (D.cons s).Proper where
  complete := h.complete
  meanings := List.forall_mem_cons.mpr ⟨hs, h.meanings⟩

namespace Segment

/-- An escape is read as a character. -/
theorem isUtf8_alone {s : Segment} (h : ∀ bs, s = .run bs → bs.isUtf8) : s.alone.isUtf8 := by
  cases s with
  | run bs => exact h bs rfl
  | escape r =>
    rw [alone, meaning?]
    cases letter? r with
    | none => exact Bytes.isUtf8_utf8 replacement
    | some c => exact Bytes.isUtf8_utf8 c
  | unicode digits =>
    rw [alone, meaning?]
    cases unitOf? digits with
    | none => exact Bytes.isUtf8_utf8 replacement
    | some unit => exact Bytes.isUtf8_utf8 (Utf16.alone unit)

theorem isUtf8_read {segments : List Segment} (h : ∀ s ∈ segments, s.alone.isUtf8) :
    (read segments).isUtf8 := by
  fun_induction read segments with
  | case1 s t more c hpair ih =>
    have hmore : ∀ x ∈ more, x.alone.isUtf8 :=
      fun x hx => h x (List.mem_cons_of_mem _ (List.mem_cons_of_mem _ hx))
    exact Bytes.isUtf8_append (Bytes.isUtf8_utf8 c) (ih hmore)
  | case2 s t more hpair ih =>
    obtain ⟨hs, hmore⟩ := List.forall_mem_cons.mp h
    exact Bytes.isUtf8_append hs (ih hmore)
  | case3 s => exact h s (List.mem_singleton_self s)
  | case4 => exact Bytes.isUtf8_ofChars []

end Segment

variable {d : Dialect} {mark : QuoteMark}

theorem Dialect.EscapeLetter.isSome_letter? {c : Char} (h : d.EscapeLetter c) :
    (Segment.letter? (.valid c)).isSome := by
  rcases h with h | ⟨rfl, -⟩
  · simp only [List.mem_cons, List.not_mem_nil, or_false] at h
    rcases h with rfl | rfl | rfl | rfl | rfl | rfl | rfl | rfl <;> rfl
  · rfl

theorem Escape.codeUnit?_of_startsHex {bs : Bytes} (h : bs.StartsHex) : ∃ unit, codeUnit? bs = some unit := by
  obtain ⟨hlen, hhex⟩ := h
  match bs with
  | a :: b :: c :: d :: rest =>
    have hvalue : ∀ x ∈ [a, b, c, d], ∃ n, hexValue? x = some n :=
      fun x hx => Option.isSome_iff_exists.mp (hhex x hx)
    obtain ⟨na, ha⟩ := hvalue a (by simp)
    obtain ⟨nb, hb⟩ := hvalue b (by simp)
    obtain ⟨nc, hc⟩ := hvalue c (by simp)
    obtain ⟨nd, hd⟩ := hvalue d (by simp)
    exact ⟨_, by simp only [codeUnit?, ha, hb, hc, hd, Option.bind_eq_bind, Option.bind_some]; rfl⟩
  | [] | [_] | [_, _] | [_, _, _] => simp at hlen

theorem Segment.exists_unitOf?_of_startsHex {bs : Bytes} (h : bs.StartsHex) :
    ∃ unit, unitOf? (bs.take 4) = some unit := by
  obtain ⟨value, hvalue⟩ := Escape.codeUnit?_of_startsHex h
  rw [← List.take_append_drop 4 bs, Escape.codeUnit?_append (List.length_take_of_le h.1)] at hvalue
  obtain ⟨unit, hunit, -⟩ := Option.map_eq_some_iff.mp hvalue
  exact ⟨unit, hunit⟩

/-- A string body divides into proper segments, which are read as well-formed texts if the body is
    one. -/
theorem StringBody.divides {body : Bytes} (h : StringBody d mark body) :
    (Division.ofBytes body).Proper ∧
      (body.isUtf8 → ∀ s ∈ (Division.ofBytes body).segments, s.alone.isUtf8) := by
  fun_induction Division.ofBytes body with
  | case1 => exact ⟨⟨rfl, List.forall_mem_nil _⟩, fun _ => List.forall_mem_nil _⟩
  | case2 b bs hb ih =>
    rw [Division.run_split b bs] at h ⊢
    obtain ⟨hproper, hutf8⟩ := ih (h.of_plain_append (Division.ne_of_mem_run hb))
    refine ⟨.cons rfl hproper, fun hbody => ?_⟩
    have hstart : Bytes.StartsAscii (bs.dropWhile (· ≠ '\\'.ascii)) := by
      intro x hx
      have hbackslash := head?_dropWhile hx
      simp only [ne_eq, decide_not, Bool.not_eq_eq_eq_not, Bool.not_false, decide_eq_true_eq]
        at hbackslash
      rw [hbackslash]
      decide
    obtain ⟨hrun, hrest⟩ := Bytes.isUtf8_of_cut (Rune.decode_append _ hstart) hbody
    exact List.forall_mem_cons.mpr ⟨hrun, hutf8 hrest⟩
  | case3 b hb =>
    cases not_not.mp hb
    rcases h.of_backslash with ⟨c, bs, heq, -⟩ | ⟨bs, heq, -⟩ <;> cases heq
  | case4 b hb e rest he ih =>
    cases not_not.mp hb
    rcases h.of_backslash with ⟨c, bs, heq, hc, hbody⟩ | ⟨bs, heq, -⟩
    · cases heq
      rw [Escape.behind_ascii hc.lt] at ih ⊢
      rw [(Rune.first_eq_ascii_iff hc.lt).mpr rfl]
      obtain ⟨hproper, hutf8⟩ := ih hbody
      have hletter : (Segment.escape (.valid c)).meaning?.isSome := by
        rw [Segment.meaning?, Option.isSome_map]
        exact hc.isSome_letter?
      refine ⟨.cons hletter hproper, fun h => ?_⟩
      have hlt : c.ascii.toNat < 128 := by rw [ascii_toNat hc.lt]; exact hc.lt
      have hascii : ∀ b ∈ ['\\'.ascii, c.ascii], b.toNat < 128 :=
        List.forall_mem_cons.mpr ⟨by decide, List.forall_mem_singleton.mpr hlt⟩
      exact List.forall_mem_cons.mpr
        ⟨Segment.isUtf8_alone nofun, hutf8 (Bytes.isUtf8_of_ascii_append hascii h)⟩
    · exact absurd (List.cons.inj heq).1 he
  | case5 b hb e rest he hshort =>
    cases not_not.mp hb
    cases not_not.mp he
    exact absurd h.of_unicode.1.1 (Nat.not_le.mpr hshort)
  | case6 b hb e rest he hlong ih =>
    cases not_not.mp hb
    cases not_not.mp he
    obtain ⟨hhex, hbody⟩ := h.of_unicode
    obtain ⟨hproper, hutf8⟩ := ih (hbody.drop_hex hhex.2)
    obtain ⟨unit, hunit⟩ := Segment.exists_unitOf?_of_startsHex hhex
    have hmeaning : (Segment.unicode (rest.take 4)).meaning?.isSome := by
      rw [Segment.meaning?, hunit]
      rfl
    refine ⟨.cons hmeaning hproper, fun h => ?_⟩
    have hdigits : ∀ b ∈ rest.take 4, b.toNat < 128 :=
      fun b hb => (toNat_of_hexValue? (hhex.2 b hb)).2
    have hascii : ∀ b ∈ '\\'.ascii :: 'u'.ascii :: rest.take 4, b.toNat < 128 :=
      List.forall_mem_cons.mpr ⟨by decide, List.forall_mem_cons.mpr ⟨by decide, hdigits⟩⟩
    rw [← List.take_append_drop 4 rest, ← List.cons_append, ← List.cons_append] at h
    exact List.forall_mem_cons.mpr
      ⟨Segment.isUtf8_alone nofun, hutf8 (Bytes.isUtf8_of_ascii_append hascii h)⟩

/-- A body can be read, and stands for a well-formed text if it is one. -/
theorem Escape.unescape_of_body {body : Bytes} (h : StringBody d mark body) :
    ∃ text, unescape body = .ok text ∧ (body.isUtf8 → text.isUtf8) := by
  obtain ⟨hproper, hutf8⟩ := h.divides
  refine ⟨Segment.read (Division.ofBytes body).segments, ?_, fun hbody => ?_⟩
  · rw [unescape_eq_read, Division.read, hproper.complete]
  · exact Segment.isUtf8_read (hutf8 hbody)

/-! ## Code units -/

theorem Division.ofBytes_of_spells {spellings : List Bytes} {units : List UInt16}
    (h : List.Forall₂ Utf16.Spells spellings units) :
    ∃ segments, ofBytes spellings.flatten = ⟨segments, .complete⟩ ∧
      List.Forall₂ (fun s unit => s.unit? = some unit) segments units := by
  induction h with
  | nil => exact ⟨[], ofBytes_nil, .nil⟩
  | cons hspells _ ih =>
    obtain ⟨digits, hunit, rfl⟩ := hspells
    obtain ⟨segments, hsegments, hunits⟩ := ih
    refine ⟨.unicode digits :: segments, ?_, .cons hunit hunits⟩
    rw [List.flatten_cons, Segment.bytes, List.cons_append, List.cons_append,
      ofBytes_unicode (Segment.length_of_unitOf? hunit), hsegments]
    rfl

namespace Segment

theorem alone_of_unit? {s : Segment} {unit : UInt16} (h : s.unit? = some unit) :
    s.alone = (Utf16.alone unit).utf8 := by
  cases s with
  | run _ | escape _ => cases h
  | unicode digits =>
    have hunit : unitOf? digits = some unit := h
    rw [alone, meaning?, hunit]
    rfl

theorem pair?_of_unit? {s t : Segment} {high low : UInt16} (hs : s.unit? = some high)
    (ht : t.unit? = some low) : s.pair? t = Utf16.pair? high low := by
  rw [pair?, hs, ht]
  rfl

/-- Unicode escapes one behind the other are read as UTF-16. -/
theorem read_of_units {segments : List Segment} {units : List UInt16}
    (h : List.Forall₂ (fun s unit => s.unit? = some unit) segments units) :
    read segments = Bytes.ofChars (Utf16.decode units) := by
  fun_induction Utf16.decode units generalizing segments with
  | case1 high low units c hpair ih =>
    obtain _ | ⟨hs, _ | ⟨ht, hmore⟩⟩ := h
    rw [read, pair?_of_unit? hs ht, hpair]
    exact congrArg (c.utf8 ++ ·) (ih hmore)
  | case2 high low units hpair ih =>
    obtain _ | ⟨hs, _ | ⟨ht, hmore⟩⟩ := h
    rw [read, pair?_of_unit? hs ht, hpair, alone_of_unit? hs]
    exact congrArg ((Utf16.alone high).utf8 ++ ·) (ih (.cons ht hmore))
  | case3 unit =>
    obtain _ | ⟨hs, _ | _⟩ := h
    rw [read, alone_of_unit? hs]
    exact (List.append_nil _).symm
  | case4 =>
    cases h
    rfl

end Segment

/-- Reading the inside of a literal computes what its division into segments is read as, and fails
    exactly if the division ends at an escape that is cut off. Unicode escapes that spell a list of
    code units are read as UTF-16. -/
theorem Escape.unescape_reads_segments :
    (∀ bs : Bytes, (Division.ofBytes bs).bytes = bs ∧
      unescape bs =
        match (Division.ofBytes bs).ending with
        | .complete  => .ok (Segment.read (Division.ofBytes bs).segments)
        | .backslash => .error .incompleteEscape
        | .unicode _ => .error .incompleteUnicode) ∧
    ∀ (spellings : List Bytes) (units : List UInt16), List.Forall₂ Utf16.Spells spellings units →
      unescape spellings.flatten = .ok (Bytes.ofChars (Utf16.decode units)) := by
  refine ⟨fun bs => ⟨Division.bytes_ofBytes bs, unescape_eq_read bs⟩, fun spellings units h => ?_⟩
  obtain ⟨segments, hsegments, hunits⟩ := Division.ofBytes_of_spells h
  rw [unescape_eq_read, hsegments, Division.read, Segment.read_of_units hunits]

/-- Two first halves, two second halves and a letter, with digits of either case. -/
theorem Escape.unescape_reads_halves :
    unescape "\\uD83D\\ud83d\\uDe00\\ude00\\u0041".utf8 = .ok "\uFFFD😀\uFFFDA".utf8 := by
  have hspells : List.Forall₂ Utf16.Spells
      ["\\uD83D".utf8, "\\ud83d".utf8, "\\uDe00".utf8, "\\ude00".utf8, "\\u0041".utf8]
      [0xD83D, 0xD83D, 0xDE00, 0xDE00, 0x41] :=
    .cons ⟨"D83D".utf8, by decide, by decide⟩ <| .cons ⟨"d83d".utf8, by decide, by decide⟩ <|
      .cons ⟨"De00".utf8, by decide, by decide⟩ <| .cons ⟨"de00".utf8, by decide, by decide⟩ <|
        .cons ⟨"0041".utf8, by decide, by decide⟩ .nil
  exact unescape_reads_segments.2 _ _ hspells

end RelaxedJson
