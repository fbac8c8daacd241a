-- SUMMARY: Reading a piece of text: gaps and words of the grammar, each up to where it ends.
import RelaxedJson.Proofs.Lexical.Comments
import RelaxedJson.Proofs.Lexical.Segments
import RelaxedJson.Proofs.Lexical.Numerals

/-!
# Pieces

`Piece.read` tells from the first rune what to read. It takes each piece of a gap and each word of
the grammar, up to where it ends (`GapPiece.read`, `IsWord.read`), and takes nothing else
(`GapPiece.of_read`, `IsWord.of_read`).
-/

namespace RelaxedJson

/-! ## The first rune -/

/-- The characters with which a gap or a word starts, be it a faulty one. -/
def Dialect.Starts (d : Dialect) (c : Char) : Prop :=
  (Lexeme.punctuation? c).isSome ∨ Lexeme.isSpace c ∨ c = '"' ∨ (c = '\'' ∧ d.singleQuotes) ∨
    (c = '/' ∧ d.comments) ∨ (c = '-' ∨ c.isDigit) ∨ Lexeme.isNameStart c

namespace Piece

variable {d : Dialect}

theorem eq_of_isSpace {c : Char} (h : Lexeme.isSpace c) :
    c = ' ' ∨ c = '\r' ∨ c = '\n' ∨ c = '\t' := by
  simpa [Lexeme.isSpace, or_assoc] using h

theorem lt_of_isSpace {c : Char} (h : Lexeme.isSpace c) : c.toNat < 128 := by
  rcases eq_of_isSpace h with rfl | rfl | rfl | rfl <;> decide

theorem lt_of_punctuation? {c : Char} {kind : Kind} (h : Lexeme.punctuation? c = some kind) :
    c.toNat < 128 := by
  unfold Lexeme.punctuation? at h
  split at h <;> first | decide | cases h

theorem kind_of_punctuation? {c : Char} {kind : Kind} (h : Lexeme.punctuation? c = some kind) :
    kind ∈ [.leftBrace, .rightBrace, .colon, .comma, .leftBracket, .rightBracket] := by
  unfold Lexeme.punctuation? at h
  split at h <;> cases h <;> simp

theorem kind_of_keyword? {name : List Char} {kind : Kind} (h : Lexeme.keyword? name = some kind) :
    kind ∈ [.null, .true, .false] := by
  unfold Lexeme.keyword? at h
  split at h
  · cases h
    simp
  · split at h
    · cases h
      simp
    · split at h <;> cases h
      simp

theorem read_punctuation {c : Char} {kind : Kind} (h : Lexeme.punctuation? c = some kind)
    (rs : List Rune) : read d (.valid c) rs = .ok (.lexeme { kind, runes := [.valid c] }) := by
  simp only [read, h]

theorem read_space {c : Char} (h : Lexeme.isSpace c) (rs : List Rune) :
    read d (.valid c) rs = .ok (.gap [.valid c]) := by
  rcases eq_of_isSpace h with rfl | rfl | rfl | rfl <;> rfl

theorem read_comment (h : d.comments) (rs : List Rune) :
    read d (.valid '/') rs = (Lexeme.comment rs).map .gap := by
  simp [read, Lexeme.punctuation?, Lexeme.isSpace, h]

theorem read_quote {mark : QuoteMark} (h : mark = .single → d.singleQuotes) (rs : List Rune) :
    read d (.valid mark.char) rs = (Lexeme.string d mark [] rs).map .lexeme := by
  cases mark with
  | double => simp [read, QuoteMark.char, Lexeme.punctuation?, Lexeme.isSpace]
  | single => simp [read, QuoteMark.char, Lexeme.punctuation?, Lexeme.isSpace, h rfl]

/-- Neither a lexeme by itself nor the start of a gap or string. -/
def StartsPlain (c : Char) : Prop :=
  Lexeme.punctuation? c = none ∧ Lexeme.isSpace c = false ∧ c ∉ ['"', '\'', '/']

theorem read_of_startsPlain {c : Char} (h : StartsPlain c) (rs : List Rune) :
    read d (.valid c) rs =
      if c = '-' ∨ c.isDigit then (Lexeme.number (.valid c :: rs)).map .lexeme
      else if Lexeme.isNameStart c then (Lexeme.name d (.valid c :: rs)).map .lexeme
      else .error ⟨[], .unexpectedRune (.valid c)⟩ := by
  obtain ⟨hpunctuation, hspace, hmark⟩ := h
  simp only [List.mem_cons, List.not_mem_nil, or_false, not_or] at hmark
  simp [read, hpunctuation, hspace, hmark]

instance (c : Char) : Decidable (StartsPlain c) :=
  inferInstanceAs (Decidable (_ ∧ _))

theorem startsPlain_of_number {c : Char} (h : c = '-' ∨ c.isDigit) : StartsPlain c := by
  have hc : c.toNat < 128 := by
    rcases h with rfl | h
    · decide
    · exact lt_of_isDigit h
  exact forall_ascii (P := fun c => c = '-' ∨ c.isDigit → StartsPlain c) (by decide) hc h

theorem startsPlain_of_isNameStart {c : Char} (h : Lexeme.isNameStart c) :
    StartsPlain c ∧ ¬ (c = '-' ∨ c.isDigit) :=
  forall_ascii (P := fun c => Lexeme.isNameStart c → StartsPlain c ∧ ¬ (c = '-' ∨ c.isDigit))
    (by decide) (lt_of_isNameStart h) h

theorem read_number {c : Char} (h : c = '-' ∨ c.isDigit) (rs : List Rune) :
    read d (.valid c) rs = (Lexeme.number (.valid c :: rs)).map .lexeme := by
  rw [read_of_startsPlain (startsPlain_of_number h), if_pos h]

theorem read_name {c : Char} (h : Lexeme.isNameStart c) (rs : List Rune) :
    read d (.valid c) rs = (Lexeme.name d (.valid c :: rs)).map .lexeme := by
  obtain ⟨hplain, hnumber⟩ := startsPlain_of_isNameStart h
  rw [read_of_startsPlain hplain, if_neg hnumber, if_pos h]

/-- The ways to read a piece that starts with a character, in front of `rs`. -/
inductive ReadAs (d : Dialect) (rs : List Rune) : Char → Except LexicalFault Piece → Prop where
  | punctuation {c : Char} {kind : Kind} : Lexeme.punctuation? c = some kind →
      ReadAs d rs c (.ok (.lexeme { kind, runes := [.valid c] }))
  | space {c : Char} : Lexeme.isSpace c → ReadAs d rs c (.ok (.gap [.valid c]))
  | string {mark : QuoteMark} : (mark = .single → d.singleQuotes) →
      ReadAs d rs mark.char ((Lexeme.string d mark [] rs).map .lexeme)
  | comment : d.comments → ReadAs d rs '/' ((Lexeme.comment rs).map .gap)
  | number {c : Char} : c = '-' ∨ c.isDigit →
      ReadAs d rs c ((Lexeme.number (.valid c :: rs)).map .lexeme)
  | name {c : Char} : Lexeme.isNameStart c →
      ReadAs d rs c ((Lexeme.name d (.valid c :: rs)).map .lexeme)
  | unexpected {c : Char} : ¬ d.Starts c → ReadAs d rs c (.error ⟨[], .unexpectedRune (.valid c)⟩)

theorem exists_of_map_eq_ok {α : Type} {x : Except LexicalFault α} {f : α → Piece} {p : Piece}
    (h : x.map f = .ok p) : ∃ a, x = .ok a ∧ f a = p := by
  cases x with
  | error e => cases h
  | ok a =>
    cases h
    exact ⟨a, rfl, rfl⟩

theorem eq_error_of_map_eq_error {α : Type} {x : Except LexicalFault α} {g : α → Piece}
    {f : LexicalFault} (h : x.map g = .error f) : x = .error f := by
  cases x with
  | error e =>
    cases h
    rfl
  | ok a => cases h

/-- All that reading can do. -/
theorem readAs_read (c : Char) (rs : List Rune) : ReadAs d rs c (read d (.valid c) rs) := by
  simp only [read]
  split
  · rename_i kind hkind
    exact .punctuation hkind
  rename_i hkind
  split
  · rename_i hspace
    exact .space hspace
  rename_i hspace
  split
  · rename_i hmark
    subst hmark
    exact @ReadAs.string d rs .double nofun
  rename_i hdouble
  split
  · rename_i hmark
    obtain ⟨rfl, hquotes⟩ := hmark
    exact @ReadAs.string d rs .single fun _ => hquotes
  rename_i hsingle
  split
  · rename_i hslash
    obtain ⟨rfl, hcomments⟩ := hslash
    exact .comment hcomments
  rename_i hslash
  split
  · rename_i hnumber
    exact .number hnumber
  rename_i hnumber
  split
  · rename_i hname
    exact .name hname
  · rename_i hname
    refine .unexpected ?_
    simp only [Dialect.Starts, hkind, Option.isSome_none, Bool.false_eq_true, hspace, hdouble,
      hsingle, hslash, hnumber, hname, or_self, not_false_eq_true]

/-- A rune with which nothing starts is unexpected. -/
theorem read_unexpected {r : Rune} (h : ∀ c, r = .valid c → ¬ d.Starts c) (rs : List Rune) :
    read d r rs = .error ⟨[], .unexpectedRune r⟩ := by
  cases r with
  | invalid b => rfl
  | valid c =>
    have hc := h c rfl
    simp only [Dialect.Starts, not_or] at hc
    obtain ⟨hkind, hspace, hdouble, hsingle, hslash, hnumber, hname⟩ := hc
    simp only [Option.not_isSome_iff_eq_none] at hkind
    simp only [read, hkind, hspace, hdouble, hsingle, hslash, not_or.mpr hnumber, hname,
      ↓reduceIte, Bool.false_eq_true]

/-- What is read starts with a character. -/
theorem exists_readAs {r : Rune} {rs : List Rune} {p : Piece} (h : read d r rs = .ok p) :
    ∃ c out, r = .valid c ∧ ReadAs d rs c out ∧ out = .ok p := by
  cases r with
  | invalid b => cases h
  | valid c => exact ⟨c, _, rfl, readAs_read c rs, h⟩

end Piece

/-! ## Gaps -/

/-- The reader takes every piece of a gap, up to where the piece ends. -/
theorem GapPiece.read {d : Dialect} {piece rest : Bytes} (h : GapPiece d piece rest) :
    ∃ r rs, Rune.decode piece = r :: rs ∧
      Rune.decode (piece ++ rest) = r :: rs ++ Rune.decode rest ∧
      Piece.read d r (rs ++ Rune.decode rest) = .ok (.gap (r :: rs)) := by
  cases h with
  | @space c _ hc =>
    have hascii := Piece.lt_of_isSpace hc
    refine ⟨.valid c, [], ?_, Rune.decode_ascii_cons hascii rest, Piece.read_space hc _⟩
    rw [Rune.decode_ascii_cons hascii, Rune.decode_nil]
  | @line body _ hd hbody hrest =>
    have hcut : Rune.decode (body ++ rest) = Rune.decode body ++ Rune.decode rest :=
      Rune.decode_append body fun b hb => by rw [hrest b hb]; decide
    refine ⟨.valid '/', .valid '/' :: Rune.decode body, ?_, ?_, ?_⟩
    · rw [Rune.decode_ascii_cons (by decide), Rune.decode_ascii_cons (by decide)]
    · rw [List.cons_append, List.cons_append, Rune.decode_ascii_cons (by decide),
        Rune.decode_ascii_cons (by decide), hcut]
      rfl
    · rw [Piece.read_comment hd, List.cons_append, Lexeme.comment_of_line hbody hrest]
      rfl
  | @block body _ hd hbody =>
    refine ⟨.valid '/', .valid '*' :: Rune.decode body, ?_, ?_, ?_⟩
    · rw [Rune.decode_ascii_cons (by decide), Rune.decode_ascii_cons (by decide)]
    · rw [List.cons_append, List.cons_append, Rune.decode_ascii_cons (by decide),
        Rune.decode_ascii_cons (by decide), hbody.decode_append]
      rfl
    · rw [Piece.read_comment hd, List.cons_append, Lexeme.comment_of_block hbody]
      rfl

/-- What the reader takes for a gap is a piece of a gap. -/
theorem GapPiece.of_read {d : Dialect} {bs : Bytes} {r : Rune} {rs taken : List Rune}
    (hbs : Rune.decode bs = r :: rs) (h : Piece.read d r rs = .ok (.gap taken)) :
    ∃ rest, bs = Rune.encode taken ++ rest ∧ r :: rs = taken ++ Rune.decode rest ∧
      GapPiece d (Rune.encode taken) rest := by
  have hread : ∀ x ∈ rs, x.IsRead :=
    fun x hx => Rune.isRead_of_mem_decode (hbs ▸ List.mem_cons_of_mem r hx)
  obtain ⟨c, out, rfl, hform, hout⟩ := Piece.exists_readAs h
  cases hform with
  | space hspace =>
    cases hout
    have hsplit : Rune.decode bs = [.valid c] ++ rs := hbs
    obtain ⟨rest, rfl, rfl⟩ := Rune.decode_eq_append hsplit
    have hascii := Piece.lt_of_isSpace hspace
    refine ⟨rest, rfl, rfl, ?_⟩
    rw [Rune.encode_cons, Rune.bytes, utf8_of_ascii hascii]
    exact .space hspace
  | comment hd =>
    obtain ⟨taken', hcomment, hgap⟩ := Piece.exists_of_map_eq_ok hout
    cases hgap
    rcases Lexeme.comment_cases hread hcomment with
      ⟨body, runes, rfl, rfl, hbody, hrunes⟩ | ⟨body, runes, rfl, rfl, hbody⟩
    · have hsplit : Rune.decode bs = (.valid '/' :: .valid '/' :: body) ++ runes := hbs
      obtain ⟨rest, rfl, rfl⟩ := Rune.decode_eq_append hsplit
      refine ⟨rest, rfl, rfl, .line hd hbody fun b hb => ?_⟩
      cases rest with
      | nil => cases hb
      | cons b' rest =>
        cases hb
        rw [Rune.decode_cons] at hrunes
        exact (Rune.first_eq_ascii_iff (by decide)).mp (hrunes _ rfl)
    · have hsplit : Rune.decode bs = (.valid '/' :: .valid '*' :: body) ++ runes := hbs
      obtain ⟨rest, rfl, rfl⟩ := Rune.decode_eq_append hsplit
      exact ⟨rest, rfl, rfl, .block hd hbody⟩
  | punctuation _ => cases hout
  | unexpected _ => cases hout
  | string _ | number _ | name _ =>
    obtain ⟨l, -, hgap⟩ := Piece.exists_of_map_eq_ok hout
    cases hgap

/-! ## Words -/

theorem Lexeme.ofBody_of_body {d : Dialect} {mark : QuoteMark} {body : List Rune}
    (h : StringBody d mark (Rune.encode body)) :
    Lexeme.ofBody mark body =
      .ok { kind := .string
            runes := .valid mark.char :: body ++ [.valid mark.char]
            literal := (Escape.unescape (Rune.encode body)).toOption.map .string } := by
  obtain ⟨text, htext, -⟩ := Escape.unescape_of_body h
  simp only [Lexeme.ofBody, htext]
  rfl

/-- A number in range has a value. -/
theorem Numeral.exists_ofNumeral (n : Numeral)
    (h : Binary64.ofNumeral n.chars ≠ .error .outOfRange) :
    ∃ x, Binary64.ofNumeral n.chars = .ok x := by
  rw [n.ofNumeral_chars] at h ⊢
  generalize n.decimal.toBinary64? = o at h ⊢
  cases o with
  | none => exact absurd rfl h
  | some x => exact ⟨x, rfl⟩

theorem Lexeme.ofNumeral_chars {n : Numeral} (h : Binary64.ofNumeral n.chars ≠ .error .outOfRange) :
    Lexeme.ofNumeral (n.chars.map .valid) =
      .ok { kind := .number
            runes := n.chars.map .valid
            literal := (Binary64.ofNumeral n.chars).toOption.map .number } := by
  obtain ⟨x, hx⟩ := n.exists_ofNumeral h
  rw [Lexeme.ofNumeral, map_char_valid, hx]
  rfl

theorem Lexeme.inRange_of_ofNumeral {n : Numeral} {l : Lexeme}
    (h : Lexeme.ofNumeral (n.chars.map .valid) = .ok l) :
    Binary64.ofNumeral n.chars ≠ .error .outOfRange := by
  intro hrange
  rw [Lexeme.ofNumeral, map_char_valid, hrange] at h
  cases h

/-- What holds of digits, of the letters of exponents and of the other characters of numbers holds of
    all characters of a number. -/
structure NumeralClass (p : Char → Prop) : Prop where
  digit : ∀ c, c.isDigit → p c
  letter : ∀ c, isExponentLetter c → p c
  mark : ∀ c ∈ ['-', '+', '.'], p c

section

variable {p : Char → Prop} {c : Char}

theorem Digits.forall_mem (hp : NumeralClass p) {ds : Digits} (hc : c ∈ ds.chars) : p c :=
  hp.digit c (ds.isDigit c hc)

theorem Exponent.forall_mem (hp : NumeralClass p) {e : Exponent}
    (hc : c ∈ e.letter :: (e.sign ++ e.digits.chars)) : p c := by
  rw [List.mem_cons, List.mem_append] at hc
  rcases hc with rfl | hc | hc
  · exact hp.letter _ e.isLetter
  · rcases e.sign_eq with h | h | h <;> rw [h] at hc
    · cases hc
    · exact hp.mark c (by simp [List.mem_singleton.mp hc])
    · exact hp.mark c (by simp [List.mem_singleton.mp hc])
  · exact Digits.forall_mem hp hc

theorem Numeral.forall_mem_chars (hp : NumeralClass p) {n : Numeral} (hc : c ∈ n.chars) : p c := by
  rw [chars, List.mem_append, List.mem_append, List.mem_append] at hc
  rcases hc with hc | hc | hc | hc
  · unfold minusChars at hc
    split at hc
    · exact hp.mark c (by simp [List.mem_singleton.mp hc])
    · cases hc
  · exact Digits.forall_mem hp hc
  · cases hf : n.fraction with
    | none =>
      rw [hf] at hc
      cases hc
    | some f =>
      rw [hf] at hc
      rcases List.mem_cons.mp hc with rfl | hc
      · exact hp.mark _ (by simp)
      · exact Digits.forall_mem hp hc
  · cases he : n.exponent with
    | none =>
      rw [he] at hc
      cases hc
    | some e =>
      rw [he] at hc
      exact Exponent.forall_mem hp hc

end

theorem NumeralClass.ascii : NumeralClass (·.toNat < 128) where
  digit _ := lt_of_isDigit
  letter _ := lt_of_isExponentLetter
  mark := by simp

theorem Numeral.lt_of_mem_chars {n : Numeral} {c : Char} (hc : c ∈ n.chars) : c.toNat < 128 :=
  Numeral.forall_mem_chars .ascii hc

theorem Numeral.exists_cons (n : Numeral) : ∃ c cs, n.chars = c :: cs ∧ (c = '-' ∨ c.isDigit) := by
  obtain ⟨c, cs, hchars, hc⟩ := n.whole.exists_cons
  unfold chars minusChars
  split
  · exact ⟨'-', _, rfl, .inl rfl⟩
  · exact ⟨c, _, by rw [hchars]; rfl, .inr hc⟩

theorem Name.lt_of_mem_chars {n : Name} {c : Char} (hc : c ∈ n.chars) : c.toNat < 128 := by
  rcases List.mem_cons.mp hc with rfl | hc
  · exact lt_of_isNameStart n.isNameStart
  · exact lt_of_isNameChar (n.isNameChar c hc)

theorem Name.stops_iff {rest : Bytes} :
    Rune.Stops Lexeme.isNameChar (Rune.decode rest) ↔ ¬ rest.StartsWith Lexeme.isNameChar :=
  Rune.stops_decode_iff fun _ => lt_of_isNameChar

/-- The reader takes exactly the word in front of `rest`. -/
def Word.IsRead (d : Dialect) (w : Word) (rest : Bytes) : Prop :=
  ∃ r rs, Rune.decode w.text = r :: rs ∧
    Rune.decode (w.text ++ rest) = r :: rs ++ Rune.decode rest ∧
    Piece.read d r (rs ++ Rune.decode rest) =
      .ok (.lexeme { kind := w.kind, runes := r :: rs, literal := w.literal })

theorem Word.isRead_of_ascii {d : Dialect} {kind : Kind} {literal : Option Literal} {c : Char}
    {cs : List Char} {rest : Bytes} (hascii : ∀ x ∈ c :: cs, x.toNat < 128)
    (h : Piece.read d (.valid c) (cs.map .valid ++ Rune.decode rest) =
      .ok (.lexeme { kind, runes := (c :: cs).map .valid, literal })) :
    Word.IsRead d { kind, text := Bytes.ofAscii (c :: cs), literal } rest := by
  exact ⟨.valid c, cs.map .valid, Rune.decode_ofAscii hascii, Rune.decode_ofAscii_append hascii rest,
    h⟩

/-- The reader takes every word, up to where the word ends. -/
theorem IsWord.read {d : Dialect} {w : Word} {rest : Bytes} (h : IsWord d w rest) :
    w.IsRead d rest := by
  cases h with
  | @punctuation c kind _ hkind =>
    have hascii := Piece.lt_of_punctuation? hkind
    exact @Word.isRead_of_ascii d kind none c [] rest (by simpa using hascii)
      (Piece.read_punctuation hkind _)
  | @string mark body _ hmark hbody =>
    have hascii := mark.char_lt
    have hclose : ∀ bs : Bytes, Rune.decode (body ++ mark.char.ascii :: bs) =
        Rune.decode body ++ .valid mark.char :: Rune.decode bs := by
      intro bs
      rw [Rune.decode_append body (Bytes.startsAscii_cons hascii bs), Rune.decode_ascii_cons hascii]
    refine ⟨.valid mark.char, Rune.decode body ++ [.valid mark.char], ?_, ?_, ?_⟩
    · rw [Rune.decode_ascii_cons hascii, hclose, Rune.decode_nil]
    · rw [List.cons_append, List.append_assoc, List.singleton_append,
        Rune.decode_ascii_cons hascii, hclose, List.cons_append, List.append_assoc,
        List.singleton_append]
    · have hencode : StringBody d mark (Rune.encode (Rune.decode body)) := by
        rwa [Rune.encode_decode]
      rw [Piece.read_quote hmark, List.append_assoc, List.singleton_append,
        Lexeme.string_append hbody, Lexeme.string_close, List.append_nil, List.reverse_reverse,
        Lexeme.ofBody_of_body hencode, Rune.encode_decode]
      rfl
  | @number n _ hrange hends =>
    obtain ⟨c, cs, hchars, hc⟩ := n.exists_cons
    have hread := Lexeme.number_of_numeral (Numeral.endsBeforeRunes_decode_iff.mpr hends)
    rw [Lexeme.ofNumeral_chars hrange] at hread
    rw [hchars, List.map_cons, List.cons_append] at hread
    rw [hchars]
    refine Word.isRead_of_ascii (fun x hx => Numeral.lt_of_mem_chars (hchars ▸ hx)) ?_
    rw [Piece.read_number hc, hread]
    rfl
  | @keyword n kind _ hkind hends =>
    have hread := Lexeme.name_of_name n (Name.stops_iff.mpr hends) d
    refine Word.isRead_of_ascii (fun x hx => Name.lt_of_mem_chars hx) ?_
    rw [Piece.read_name n.isNameStart]
    refine (congrArg (Except.map Piece.lexeme) hread).trans ?_
    simp only [Lexeme.ofName, hkind]
    rfl
  | @identifier n _ hd hkind hends =>
    have hread := Lexeme.name_of_name n (Name.stops_iff.mpr hends) d
    refine Word.isRead_of_ascii (fun x hx => Name.lt_of_mem_chars hx) ?_
    rw [Piece.read_name n.isNameStart]
    refine (congrArg (Except.map Piece.lexeme) hread).trans ?_
    simp only [Lexeme.ofName, hkind, hd, ↓reduceIte]
    rfl

theorem Rune.encode_valid_ascii {cs : List Char} (hcs : ∀ c ∈ cs, c.toNat < 128) :
    Rune.encode (cs.map .valid) = Bytes.ofAscii cs := by
  rw [encode_map_valid, ofChars_of_ascii hcs]

/-- What the reader takes for a lexeme is a word. -/
theorem IsWord.of_read {d : Dialect} {bs : Bytes} {r : Rune} {rs : List Rune} {l : Lexeme}
    (hbs : Rune.decode bs = r :: rs) (h : Piece.read d r rs = .ok (.lexeme l)) :
    ∃ rest, bs = Rune.encode l.runes ++ rest ∧ r :: rs = l.runes ++ Rune.decode rest ∧
      IsWord d { kind := l.kind, text := Rune.encode l.runes, literal := l.literal } rest := by
  have hread : ∀ x ∈ rs, x.IsRead :=
    fun x hx => Rune.isRead_of_mem_decode (hbs ▸ List.mem_cons_of_mem r hx)
  obtain ⟨c, out, rfl, hform, hout⟩ := Piece.exists_readAs h
  cases hform with
  | space _ => cases hout
  | unexpected _ => cases hout
  | comment _ =>
    obtain ⟨taken, -, hlexeme⟩ := Piece.exists_of_map_eq_ok hout
    cases hlexeme
  | punctuation hkind =>
    cases hout
    have hsplit : Rune.decode bs = [.valid c] ++ rs := hbs
    obtain ⟨rest, rfl, rfl⟩ := Rune.decode_eq_append hsplit
    refine ⟨rest, rfl, rfl, ?_⟩
    rw [Rune.encode_cons, Rune.bytes, utf8_of_ascii (Piece.lt_of_punctuation? hkind)]
    exact .punctuation hkind
  | @string mark hmark =>
    obtain ⟨l', hstring, hlexeme⟩ := Piece.exists_of_map_eq_ok hout
    cases hlexeme
    obtain ⟨body, runes, rfl, hbody, hl⟩ := Lexeme.body_of_string hread hstring
    rw [List.reverse_nil, List.nil_append, Lexeme.ofBody_of_body hbody] at hl
    cases hl
    have hsplit : Rune.decode bs = (.valid mark.char :: body ++ [.valid mark.char]) ++ runes := by
      rw [hbs]
      simp
    obtain ⟨rest, rfl, rfl⟩ := Rune.decode_eq_append hsplit
    refine ⟨rest, rfl, by simp, ?_⟩
    have htext : Rune.encode (.valid mark.char :: body ++ [.valid mark.char]) =
        mark.char.ascii :: (Rune.encode body ++ [mark.char.ascii]) := by
      simp [Rune.bytes, utf8_of_ascii mark.char_lt]
    rw [htext]
    exact .string hmark hbody
  | number hstart =>
    obtain ⟨l', hnumber, hlexeme⟩ := Piece.exists_of_map_eq_ok hout
    cases hlexeme
    obtain ⟨n, runes, hruns, hl, hends⟩ := Lexeme.numeral_of_number hstart hnumber
    obtain ⟨rest, rfl, rfl⟩ := Rune.decode_eq_append (hbs.trans hruns)
    have hrange := Lexeme.inRange_of_ofNumeral hl
    rw [Lexeme.ofNumeral_chars hrange] at hl
    cases hl
    refine ⟨rest, rfl, hruns, ?_⟩
    rw [Rune.encode_valid_ascii fun c => Numeral.lt_of_mem_chars]
    exact .number hrange (Numeral.endsBeforeRunes_decode_iff.mp hends)
  | name hstart =>
    obtain ⟨l', hname, hlexeme⟩ := Piece.exists_of_map_eq_ok hout
    cases hlexeme
    obtain ⟨n, runes, hruns, hl, hends⟩ := Lexeme.exists_name hstart rs d
    obtain ⟨rest, rfl, rfl⟩ := Rune.decode_eq_append (hbs.trans hruns)
    rw [hname, Lexeme.ofName] at hl
    have hnot := Name.stops_iff.mp hends
    cases hkind : Lexeme.keyword? n.chars with
    | some kind =>
      simp only [hkind] at hl
      cases hl
      refine ⟨rest, rfl, hruns, ?_⟩
      rw [Rune.encode_valid_ascii fun c => Name.lt_of_mem_chars]
      exact .keyword hkind hnot
    | none =>
      simp only [hkind] at hl
      split at hl
      · rename_i hd
        cases hl
        refine ⟨rest, rfl, hruns, ?_⟩
        rw [Rune.encode_valid_ascii fun c => Name.lt_of_mem_chars]
        exact .identifier hd hkind hnot
      · cases hl

end RelaxedJson
