-- SUMMARY: Runes: what reading a byte string character by character yields, bytes that are no UTF-8 included.
import RelaxedJson.Text.Bytes

/-!
# Runes

A byte string is read from left to right as a list of runes. A rune is a character, where
well-formed UTF-8 stands, or one single byte, where none does. UTF-8 is well-formed in the strict
sense: no surrogates, no overlong forms, nothing above U+10FFFF. Reading loses nothing: encoding the
runes of a byte string gives the byte string back (`Rune.encode_decode`).
-/

/-- The UTF-8 encoding of a character. -/
abbrev Char.utf8 (c : Char) : List UInt8 :=
  String.utf8EncodeChar c

namespace RelaxedJson

/-- A character, or a byte that belongs to no well-formed character. -/
inductive Rune where
  | valid (c : Char)
  | invalid (b : UInt8)
  deriving DecidableEq, Repr

/-- The character that stands for what cannot be shown: U+FFFD. -/
def replacement : Char := '\uFFFD'

namespace Rune

/-- The character a rune is shown as. -/
def char : Rune → Char
  | .valid c   => c
  | .invalid _ => replacement

/-- The bytes a rune was read from. -/
def bytes : Rune → Bytes
  | .valid c   => c.utf8
  | .invalid b => [b]

/-- The number of bytes a rune was read from. -/
def width (r : Rune) : Nat :=
  r.bytes.length

/-! ## Reading -/

/-- The code point that the leading bytes would spell, if they were well-formed. -/
def leadingCode (bs : Bytes) : Nat :=
  let at_ (i : Nat) : Nat := (bs.getD i 0).toNat
  let lead := at_ 0
  if lead < 0x80 then lead
  else if lead < 0xE0 then lead % 32 * 64 + at_ 1 % 64
  else if lead < 0xF0 then lead % 16 * 4096 + at_ 1 % 64 * 64 + at_ 2 % 64
  else lead % 8 * 262144 + at_ 1 % 64 * 4096 + at_ 2 % 64 * 64 + at_ 3 % 64

/-- The character that the bytes start with. It has to be spelled the way it is encoded, which
    rules out everything that is not well-formed. -/
def leadingChar? (bs : Bytes) : Option Char :=
  if (Char.ofNat (leadingCode bs)).utf8 <+: bs then some (Char.ofNat (leadingCode bs)) else none

/-- One step of reading: the first rune of `b :: bs`. -/
def first (b : UInt8) (bs : Bytes) : Rune :=
  match leadingChar? (b :: bs) with
  | some c => .valid c
  | none   => .invalid b

theorem bytes_first_leads (b : UInt8) (bs : Bytes) : (first b bs).bytes <+: b :: bs := by
  unfold first leadingChar?
  split
  · rename_i c h
    split at h
    · rename_i hlead
      cases h
      exact hlead
    · cases h
  · exact ⟨bs, rfl⟩

theorem width_pos (r : Rune) : 0 < r.width := by
  cases r with
  | valid c   => simp [width, bytes, String.length_utf8EncodeChar, Char.utf8Size_pos]
  | invalid b => simp [width, bytes]

/-- Reads the rest of a byte string behind runes that were read before, latest first. -/
def decodeOnto (read : List Rune) : Bytes → List Rune
  | []      => read.reverse
  | b :: bs => decodeOnto (first b bs :: read) (bs.drop ((first b bs).width - 1))
termination_by bs => bs.length
decreasing_by simp only [List.length_drop, List.length_cons]; omega

/-- The runes of a byte string. -/
def decode (bs : Bytes) : List Rune :=
  decodeOnto [] bs

/-- The bytes of a list of runes. -/
def encode (rs : List Rune) : Bytes :=
  rs.flatMap bytes

@[simp] theorem encode_nil : encode [] = [] := rfl

@[simp] theorem encode_cons (r : Rune) (rs : List Rune) : encode (r :: rs) = r.bytes ++ encode rs :=
  rfl

@[simp] theorem encode_append (rs ss : List Rune) : encode (rs ++ ss) = encode rs ++ encode ss := by
  simp [encode]

theorem decodeOnto_eq (read : List Rune) (bs : Bytes) :
    decodeOnto read bs = read.reverse ++ decode bs := by
  unfold decode
  induction hn : bs.length using Nat.strongRecOn generalizing bs read with
  | ind n ih =>
    cases bs with
    | nil => simp [decodeOnto]
    | cons b bs =>
      have hlt : (bs.drop ((first b bs).width - 1)).length < n := by
        simp only [List.length_drop, List.length_cons] at hn ⊢; omega
      rw [decodeOnto, ih _ hlt _ _ rfl, decodeOnto, ih _ hlt [first b bs] _ rfl]
      simp

@[simp] theorem decode_nil : decode [] = [] := by
  simp [decode, decodeOnto]

/-- Reading takes the first rune and goes on behind its bytes. -/
theorem decode_cons (b : UInt8) (bs : Bytes) :
    decode (b :: bs) = first b bs :: decode ((b :: bs).drop (first b bs).width) := by
  have hpos := width_pos (first b bs)
  conv => lhs; rw [decode, decodeOnto, decodeOnto_eq]
  obtain ⟨w, hw⟩ : ∃ w, (first b bs).width = w + 1 := ⟨(first b bs).width - 1, by omega⟩
  simp [hw]

/-- Reading loses nothing. -/
theorem encode_decode (bs : Bytes) : encode (decode bs) = bs := by
  induction hn : bs.length using Nat.strongRecOn generalizing bs with
  | ind n ih =>
    cases bs with
    | nil => simp
    | cons b bs =>
      obtain ⟨tail, htail⟩ := bytes_first_leads b bs
      have hpos := width_pos (first b bs)
      have hdrop : (b :: bs).drop (first b bs).width = tail := by
        rw [← htail, width, List.drop_left]
      have hlen : tail.length < n := by
        have := congrArg List.length htail
        simp only [List.length_append, width] at this hpos
        simp only [List.length_cons] at hn this
        omega
      rw [decode_cons, encode_cons, hdrop, ih _ hlen _ rfl, htail]

/-! ## Classes -/

/-- Whether the rune is a character. -/
def isValid : Rune → Bool
  | .valid _   => true
  | .invalid _ => false

/-- Whether the rune is a character of the class `p`. -/
def satisfies (p : Char → Bool) : Rune → Bool
  | .valid c   => p c
  | .invalid _ => false

end Rune

/-- Whether the whole byte string is well-formed UTF-8. -/
def Bytes.isUtf8 (bs : Bytes) : Bool :=
  (Rune.decode bs).all Rune.isValid

/-- The UTF-8 encoding of a list of characters. -/
def Bytes.ofChars (cs : List Char) : Bytes :=
  cs.flatMap Char.utf8

/-- The characters a byte string is shown as: each byte that is no UTF-8 becomes U+FFFD. -/
def Bytes.chars (bs : Bytes) : List Char :=
  (Rune.decode bs).map Rune.char

/-- The byte string with U+FFFD in place of each byte that is no UTF-8. -/
def Bytes.sanitise (bs : Bytes) : Bytes :=
  Bytes.ofChars bs.chars

end RelaxedJson
