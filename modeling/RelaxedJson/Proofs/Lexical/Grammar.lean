-- SUMMARY: The lexical grammar over bytes: words, gaps, and texts laid out as both in turn.
import RelaxedJson.Proofs.Text.Decoding
import RelaxedJson.Token.Scan

/-!
# The lexical grammar

A text is a gap, a word, a gap, a word and so on, and a gap in the end. Words and gaps are described
byte by byte and without a reader in mind. Some of them depend on what follows: a line comment goes
on to the end of the line, and a number or name is not cut short.
-/

namespace RelaxedJson

/-- Whether a byte string starts with an ASCII character of the class `p`. -/
def Bytes.StartsWith (p : Char → Bool) (bs : Bytes) : Prop :=
  ∃ (c : Char) (rest : Bytes), c.toNat < 128 ∧ p c ∧ bs = c.ascii :: rest

/-! ## Gaps -/

/-- The rest of a block comment inside `depth` further ones, up to the mark that closes it. Marks are
    read from left to right and do not overlap. -/
inductive BlockBody : (depth : Nat) → Bytes → Prop where
  | close : BlockBody 0 ['*'.ascii, '/'.ascii]
  | leave {depth : Nat} {bs : Bytes} :
      BlockBody depth bs → BlockBody (depth + 1) ('*'.ascii :: '/'.ascii :: bs)
  | enter {depth : Nat} {bs : Bytes} :
      BlockBody (depth + 1) bs → BlockBody depth ('/'.ascii :: '*'.ascii :: bs)
  | other {depth : Nat} {b : UInt8} {bs : Bytes} :
      ¬ ['/'.ascii, '*'.ascii] <+: b :: bs → ¬ ['*'.ascii, '/'.ascii] <+: b :: bs →
      BlockBody depth bs → BlockBody depth (b :: bs)

/-- A white space byte or a comment, in front of `rest`. -/
inductive GapPiece (d : Dialect) : Bytes → (rest : Bytes) → Prop where
  | space {c : Char} {rest : Bytes} : Lexeme.isSpace c → GapPiece d [c.ascii] rest
  /-- A line comment ends in front of a line feed or at the end of the text. -/
  | line {body rest : Bytes} : d.comments → (∀ b ∈ body, b ≠ '\n'.ascii) →
      (∀ b ∈ rest.head?, b = '\n'.ascii) → GapPiece d ('/'.ascii :: '/'.ascii :: body) rest
  | block {body rest : Bytes} : d.comments → BlockBody 0 body →
      GapPiece d ('/'.ascii :: '*'.ascii :: body) rest

/-- A sequence of white space and comments in front of `rest`. -/
inductive Gap (d : Dialect) : Bytes → (rest : Bytes) → Prop where
  | nil {rest : Bytes} : Gap d [] rest
  | cons {piece more rest : Bytes} :
      GapPiece d piece (more ++ rest) → Gap d more rest → Gap d (piece ++ more) rest

/-! ## Strings -/

/-- The characters that may stand behind a backslash, apart from `u`. -/
def Dialect.EscapeLetter (d : Dialect) (c : Char) : Prop :=
  c ∈ ['"', '\\', '/', 'b', 'f', 'n', 'r', 't'] ∨ c = '\'' ∧ d.singleQuotes

/-- Whether a byte string starts with four hexadecimal digits. -/
def Bytes.StartsHex (bs : Bytes) : Prop :=
  4 ≤ bs.length ∧ ∀ b ∈ bs.take 4, (hexValue? b).isSome

/-- The inside of a string between two marks: no control byte, no bare mark, only proper escapes. -/
inductive StringBody (d : Dialect) (mark : QuoteMark) : Bytes → Prop where
  | nil : StringBody d mark []
  | plain {b : UInt8} {bs : Bytes} : b ≠ mark.char.ascii → b ≠ '\\'.ascii → 0x20 ≤ b.toNat →
      StringBody d mark bs → StringBody d mark (b :: bs)
  | escape {c : Char} {bs : Bytes} : d.EscapeLetter c → StringBody d mark bs →
      StringBody d mark ('\\'.ascii :: c.ascii :: bs)
  | unicode {bs : Bytes} : bs.StartsHex → StringBody d mark bs →
      StringBody d mark ('\\'.ascii :: 'u'.ascii :: bs)

/-! ## Numbers and names -/

/-- One or more decimal digits. -/
structure Digits where
  chars : List Char
  ne_nil : chars ≠ []
  isDigit : ∀ c ∈ chars, c.isDigit

def isExponentLetter (c : Char) : Bool :=
  c = 'e' || c = 'E'

/-- The exponent of a number: a letter, an optional sign and digits. -/
structure Exponent where
  letter : Char
  sign : List Char
  digits : Digits
  isLetter : isExponentLetter letter
  sign_eq : sign = [] ∨ sign = ['+'] ∨ sign = ['-']

/-- A number: `-?[0-9]+(.[0-9]+)?([eE][+-]?[0-9]+)?`. -/
structure Numeral where
  minus : Bool
  whole : Digits
  fraction : Option Digits
  exponent : Option Exponent

namespace Numeral

def minusChars (minus : Bool) : List Char :=
  if minus then ['-'] else []

def fractionChars : Option Digits → List Char
  | none   => []
  | some f => '.' :: f.chars

def exponentChars : Option Exponent → List Char
  | none   => []
  | some e => e.letter :: (e.sign ++ e.digits.chars)

/-- The characters of a number. -/
def chars (n : Numeral) : List Char :=
  minusChars n.minus ++ (n.whole.chars ++ (fractionChars n.fraction ++ exponentChars n.exponent))

/-- `rest` does not make the number longer. -/
structure EndsBefore (n : Numeral) (rest : Bytes) : Prop where
  digit : ¬ rest.StartsWith Char.isDigit
  letter : n.exponent = none → ¬ rest.StartsWith isExponentLetter
  point : n.exponent = none → n.fraction = none →
    ∀ more : Bytes, rest = '.'.ascii :: more → ¬ more.StartsWith Char.isDigit

end Numeral

/-- A name: `[A-Za-z_][A-Za-z0-9_]*`. -/
structure Name where
  first : Char
  others : List Char
  isNameStart : Lexeme.isNameStart first
  isNameChar : ∀ c ∈ others, Lexeme.isNameChar c

def Name.chars (name : Name) : List Char :=
  name.first :: name.others

/-! ## Words -/

/-- A word of a text: what a token has besides its place. -/
structure Word where
  kind : Kind
  text : Bytes
  literal : Option Literal := none

/-- A word of the dialect, in front of `rest`. -/
inductive IsWord (d : Dialect) : Word → (rest : Bytes) → Prop where
  | punctuation {c : Char} {kind : Kind} {rest : Bytes} : Lexeme.punctuation? c = some kind →
      IsWord d { kind, text := [c.ascii] } rest
  | string {mark : QuoteMark} {body rest : Bytes} : (mark = .single → d.singleQuotes) →
      StringBody d mark body →
      IsWord d { kind := .string, text := mark.char.ascii :: (body ++ [mark.char.ascii]),
                 literal := (Escape.unescape body).toOption.map .string } rest
  | number {n : Numeral} {rest : Bytes} : Binary64.ofNumeral n.chars ≠ .error .outOfRange →
      n.EndsBefore rest →
      IsWord d { kind := .number, text := Bytes.ofAscii n.chars,
                 literal := (Binary64.ofNumeral n.chars).toOption.map .number } rest
  | keyword {name : Name} {kind : Kind} {rest : Bytes} :
      Lexeme.keyword? name.chars = some kind → ¬ rest.StartsWith Lexeme.isNameChar →
      IsWord d { kind, text := Bytes.ofAscii name.chars } rest
  | identifier {name : Name} {rest : Bytes} : d.unquotedKeys →
      Lexeme.keyword? name.chars = none → ¬ rest.StartsWith Lexeme.isNameChar →
      IsWord d { kind := .identifier, text := Bytes.ofAscii name.chars } rest

/-! ## Layouts -/

/-- The text of words, each with the gap behind it. -/
def Word.spell : List (Word × Bytes) → Bytes
  | []              => []
  | (w, gap) :: more => w.text ++ (gap ++ spell more)

/-- A text as gaps and words in turn. -/
structure Layout where
  /-- The gap in front of the first word. -/
  lead : Bytes
  /-- The words, each with the gap behind it. -/
  words : List (Word × Bytes)

namespace Layout

/-- The text that is laid out. -/
def text (L : Layout) : Bytes :=
  L.lead ++ Word.spell L.words

/-- The words and gaps are those of the dialect, each in front of what follows it. -/
def WordsFit (d : Dialect) : List (Word × Bytes) → Prop
  | []               => True
  | (w, gap) :: more =>
    IsWord d w (gap ++ Word.spell more) ∧ Gap d gap (Word.spell more) ∧ WordsFit d more

structure Fits (d : Dialect) (L : Layout) : Prop where
  lead : Gap d L.lead (Word.spell L.words)
  words : WordsFit d L.words

/-- The position behind the text `before`. -/
def positionBehind (d : Dialect) (before : Bytes) : Position :=
  Position.origin.advanceAll d.columnsPerTab (Rune.decode before)

/-- The token that `w` is behind the text `before`. -/
def token (d : Dialect) (before : Bytes) (w : Word) : Token :=
  { kind := w.kind
    lexeme := w.text
    location := ⟨⟨before.length, before.length + w.text.length⟩, positionBehind d before⟩
    literal := w.literal }

/-- The tokens of words behind the text `before`, and the end of input. -/
def tokensFrom (d : Dialect) (before : Bytes) : List (Word × Bytes) → List Token
  | []               => [token d before { kind := .endOfInput, text := [] }]
  | (w, gap) :: more => token d before w :: tokensFrom d (before ++ (w.text ++ gap)) more

/-- The tokens of a layout, the end of input included. -/
def tokens (d : Dialect) (L : Layout) : List Token :=
  tokensFrom d L.lead L.words

end Layout

/-! ## Runs of a class -/

namespace Rune

/-- The runes do not start with one of the class `p`. -/
def Stops (p : Char → Bool) (rs : List Rune) : Prop :=
  ∀ r ∈ rs.head?, r.satisfies p = false

theorem stops_nil (p : Char → Bool) : Stops p [] := nofun

theorem stops_valid_cons {p : Char → Bool} {c : Char} (hc : p c = false) (rs : List Rune) :
    Stops p (.valid c :: rs) := by
  intro r hr
  cases hr
  exact hc

theorem exists_of_not_stops {p : Char → Bool} {rs : List Rune} (h : ¬ Stops p rs) :
    ∃ (c : Char) (rest : List Rune), rs = .valid c :: rest ∧ p c := by
  cases rs with
  | nil => exact absurd (stops_nil p) h
  | cons r rest =>
    cases hr : r.satisfies p with
    | false =>
      refine absurd (fun r' hr' => ?_) h
      cases hr'
      exact hr
    | true =>
      cases r with
      | invalid b => cases hr
      | valid c => exact ⟨c, rest, rfl, hr⟩

theorem stops_decode_iff {p : Char → Bool} (hp : ∀ c, p c → c.toNat < 128) {bs : Bytes} :
    Stops p (decode bs) ↔ ¬ bs.StartsWith p := by
  constructor
  · rintro hstops ⟨c, rest, hc, hpc, rfl⟩
    rw [decode_ascii_cons hc] at hstops
    have hnot : p c = false := hstops _ rfl
    rw [hpc] at hnot
    cases hnot
  · intro hnot r hr
    cases hruns : decode bs with
    | nil =>
      rw [hruns] at hr
      cases hr
    | cons r' rs =>
      rw [hruns] at hr
      cases hr
      rcases (isRead_of_mem_decode (hruns ▸ List.mem_cons_self)).ascii_or_high with
        ⟨c, rfl, hc, -⟩ | hhigh
      · obtain ⟨rest, rfl, -⟩ := decode_eq_ascii_cons hc hruns
        refine Bool.eq_false_iff.mpr fun hpc => ?_
        exact hnot ⟨c, rest, hc, hpc, rfl⟩
      · exact hhigh.not_satisfies hp

/-- A text starts with a run of a class, be it empty. -/
theorem exists_run (p : Char → Bool) (rs : List Rune) :
    ∃ (cs : List Char) (rest : List Rune), rs = cs.map .valid ++ rest ∧ (∀ c ∈ cs, p c) ∧
      Stops p rest := by
  induction rs with
  | nil => exact ⟨[], [], rfl, nofun, stops_nil p⟩
  | cons r rs ih =>
    by_cases hstops : Stops p (r :: rs)
    · exact ⟨[], r :: rs, rfl, nofun, hstops⟩
    · obtain ⟨c, rest, hcons, hc⟩ := exists_of_not_stops hstops
      cases hcons
      obtain ⟨cs, rest', rfl, hcs, hrest⟩ := ih
      exact ⟨c :: cs, rest', rfl, List.forall_mem_cons.mpr ⟨hc, hcs⟩, hrest⟩

theorem takeWhile_valid_append {p : Char → Bool} {cs : List Char} {rest : List Rune}
    (hcs : ∀ c ∈ cs, p c) (hrest : Stops p rest) :
    (cs.map Rune.valid ++ rest).takeWhile (satisfies p) = cs.map .valid := by
  refine takeWhile_append_exact (fun r hr => ?_) hrest
  obtain ⟨c, hc, rfl⟩ := List.mem_map.mp hr
  exact hcs c hc

theorem dropWhile_valid_append {p : Char → Bool} {cs : List Char} {rest : List Rune}
    (hcs : ∀ c ∈ cs, p c) (hrest : Stops p rest) :
    (cs.map Rune.valid ++ rest).dropWhile (satisfies p) = rest := by
  refine dropWhile_append_exact (fun r hr => ?_) hrest
  obtain ⟨c, hc, rfl⟩ := List.mem_map.mp hr
  exact hcs c hc

end Rune

end RelaxedJson
