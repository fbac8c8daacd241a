-- SUMMARY: The faults of a text that is not laid out as gaps and words, and where scanning stops.
import RelaxedJson.Proofs.Lexical.Scanning

/-!
# Faults

Where neither a gap nor a word starts, a fault does (`Fault`). Like the grammar, faults are
described byte by byte: the text in front of the offending place, the text from there on, and the
reason. The reader stops at exactly these faults (`Fault.read`, `Fault.of_read`), so a text is either
scanned to its end or up to its first fault (`Scanned.exists_end`), and the fault decides what is
reported (`Token.scan_of_fault`).
-/

namespace RelaxedJson

/-- What is wrong with the text `front ++ rest`. The offending place is where `rest` starts. -/
inductive Fault (d : Dialect) : (front rest : Bytes) → SyntaxReason → Prop where
  /-- Nothing starts with the first rune. -/
  | unexpected {b : UInt8} {bs : Bytes} : (∀ c, Rune.first b bs = .valid c → ¬ d.Starts c) →
      Fault d [] (b :: bs) (.unexpectedRune (Rune.first b bs))
  /-- A slash that starts no comment. -/
  | stray {rest : Bytes} : d.comments → ¬ rest.StartsWith Lexeme.isCommentMark →
      Fault d [] ('/'.ascii :: rest) (.unexpectedRune (.valid '/'))
  | comment {rest : Bytes} : d.comments →
      (∀ body more : Bytes, rest = body ++ more → ¬ BlockBody 0 body) →
      Fault d [] ('/'.ascii :: '*'.ascii :: rest) .unterminatedComment
  /-- A string that does not end before the text does, perhaps behind a backslash. -/
  | quote {mark : QuoteMark} {body tail : Bytes} : (mark = .single → d.singleQuotes) →
      StringBody d mark body → tail = [] ∨ tail = ['\\'.ascii] →
      Fault d [] (mark.char.ascii :: (body ++ tail)) .unclosedQuote
  | control {mark : QuoteMark} {body rest : Bytes} {c : Char} : (mark = .single → d.singleQuotes) →
      StringBody d mark body → c.toNat < 0x20 →
      Fault d (mark.char.ascii :: body) (c.ascii :: rest) (.unescapedControl c)
  /-- A rune behind a backslash that makes no escape with it. -/
  | escape {mark : QuoteMark} {body : Bytes} {b : UInt8} {bs : Bytes} :
      (mark = .single → d.singleQuotes) → StringBody d mark body →
      (∀ c, Rune.first b bs = .valid c → ¬ d.EscapeLetter c) → Rune.first b bs ≠ .valid 'u' →
      Fault d (mark.char.ascii :: (body ++ ['\\'.ascii])) (b :: bs)
        (.invalidEscape (Rune.first b bs))
  | unicode {mark : QuoteMark} {body rest : Bytes} : (mark = .single → d.singleQuotes) →
      StringBody d mark body → ¬ rest.StartsHex →
      Fault d (mark.char.ascii :: (body ++ ['\\'.ascii])) ('u'.ascii :: rest) .invalidUnicodeEscape
  | minus {rest : Bytes} : ¬ rest.StartsWith Char.isDigit →
      Fault d [] ('-'.ascii :: rest) .missingDigitAfterMinus
  | exponent {n : Numeral} {letter : Char} {sign : List Char} {rest : Bytes} :
      n.BreaksOff letter sign rest →
      Fault d (Bytes.ofAscii (n.chars ++ letter :: sign)) rest .missingExponentDigits
  | range {n : Numeral} {rest : Bytes} : Binary64.ofNumeral n.chars = .error .outOfRange →
      n.EndsBefore rest →
      Fault d [] (Bytes.ofAscii n.chars ++ rest) (.numberOutOfRange (Bytes.ofAscii n.chars))
  | identifier {name : Name} {rest : Bytes} : d.unquotedKeys = false →
      Lexeme.keyword? name.chars = none → ¬ rest.StartsWith Lexeme.isNameChar →
      Fault d [] (Bytes.ofAscii name.chars ++ rest)
        (.unquotedIdentifier (Bytes.ofAscii name.chars))

/-! ## Faults are met -/

theorem Piece.read_body {d : Dialect} {mark : QuoteMark} {body : Bytes}
    (hmark : mark = .single → d.singleQuotes) (hbody : StringBody d mark body) (rest : List Rune) :
    Piece.read d (.valid mark.char) (Rune.decode body ++ rest) =
      (Lexeme.string d mark (Rune.decode body).reverse rest).map .lexeme := by
  rw [Piece.read_quote hmark, Lexeme.string_append hbody, List.append_nil]

theorem Lexeme.ofNumeral_outOfRange {n : Numeral}
    (h : Binary64.ofNumeral n.chars = .error .outOfRange) :
    Lexeme.ofNumeral (n.chars.map .valid) =
      .error ⟨[], .numberOutOfRange (Bytes.ofAscii n.chars)⟩ := by
  rw [Lexeme.ofNumeral, map_char_valid, h, Rune.encode_valid_ascii fun c => Numeral.lt_of_mem_chars]

theorem Numeral.BreaksOff.lt_of_mem {n : Numeral} {letter : Char} {sign : List Char} {rest : Bytes}
    (h : n.BreaksOff letter sign rest) {c : Char} (hc : c ∈ n.chars ++ letter :: sign) :
    c.toNat < 128 := by
  rw [List.mem_append, List.mem_cons] at hc
  rcases hc with hc | rfl | hc
  · exact lt_of_mem_chars hc
  · exact lt_of_isExponentLetter h.isLetter
  · rcases h.sign_eq with rfl | rfl | rfl
    · cases hc
    · cases List.mem_singleton.mp hc
      decide
    · cases List.mem_singleton.mp hc
      decide

theorem escapeFault?_of_not_startsHex {d : Dialect} {bs : Bytes} (h : ¬ bs.StartsHex) :
    Lexeme.escapeFault? d (.valid 'u') (Rune.decode bs) = some .invalidUnicodeEscape := by
  rw [← Rune.encode_decode bs, Bytes.StartsHex,
    hexDigits_encode_iff fun r => Rune.isRead_of_mem_decode] at h
  simp only [Lexeme.escapeFault?, if_neg h]

theorem decode_backslash (mark : QuoteMark) (body : Bytes) :
    Rune.decode (mark.char.ascii :: (body ++ ['\\'.ascii])) =
      .valid mark.char :: Rune.decode body ++ [.valid '\\'] := by
  rw [Rune.decode_ascii_cons mark.char_lt,
    Rune.decode_append body (Bytes.startsAscii_cons (by decide) []),
    Rune.decode_ascii_cons (by decide), Rune.decode_nil]
  rfl

namespace Fault

variable {d : Dialect} {front rest : Bytes} {reason : SyntaxReason}

/-- The reader stops at every fault, and at the offending place. -/
theorem read (h : Fault d front rest reason) :
    ∃ r rs, Rune.decode (front ++ rest) = r :: rs ∧
      Piece.read d r rs = .error ⟨Rune.decode front, reason⟩ := by
  cases h with
  | @unexpected b bs hstarts =>
    refine ⟨_, _, Rune.decode_cons b bs, ?_⟩
    rw [Piece.read_unexpected hstarts, Rune.decode_nil]
  | @stray rest hd hstray =>
    refine ⟨_, _, Rune.decode_ascii_cons (by decide) rest, ?_⟩
    have hstops := (Rune.stops_decode_iff fun c => Lexeme.lt_of_isCommentMark).mpr hstray
    rw [Piece.read_comment hd, Lexeme.comment_of_stray hstops, Rune.decode_nil]
    rfl
  | @comment rest hd hbody =>
    refine ⟨_, _, Rune.decode_ascii_cons (by decide) ('*'.ascii :: rest), ?_⟩
    rw [Piece.read_comment hd, Rune.decode_ascii_cons (by decide),
      Lexeme.comment_of_unterminated hbody, Rune.decode_nil]
    rfl
  | @quote mark body tail hmark hbody htail =>
    refine ⟨_, _, Rune.decode_ascii_cons mark.char_lt (body ++ tail), ?_⟩
    rcases htail with rfl | rfl
    · rw [List.append_nil, ← List.append_nil (Rune.decode body), Piece.read_body hmark hbody,
        Rune.decode_nil]
      rfl
    · rw [Rune.decode_append body (Bytes.startsAscii_cons (by decide) []),
        Rune.decode_ascii_cons (by decide), Rune.decode_nil, Piece.read_body hmark hbody,
        Lexeme.string_backslash]
      rfl
  | @control mark body rest c hmark hbody hc =>
    have hascii : c.toNat < 128 := by omega
    refine ⟨_, _, Rune.decode_ascii_cons mark.char_lt (body ++ c.ascii :: rest), ?_⟩
    rw [Rune.decode_append body (Bytes.startsAscii_cons hascii rest),
      Rune.decode_ascii_cons hascii, Piece.read_body hmark hbody, Lexeme.string_control hc,
      List.reverse_reverse, Rune.decode_ascii_cons mark.char_lt]
    rfl
  | @escape mark body b bs hmark hbody hletter hu =>
    have hsplit : mark.char.ascii :: (body ++ ['\\'.ascii]) ++ b :: bs =
        mark.char.ascii :: (body ++ '\\'.ascii :: b :: bs) := by simp
    rw [hsplit]
    refine ⟨_, _, Rune.decode_ascii_cons mark.char_lt (body ++ '\\'.ascii :: b :: bs), ?_⟩
    rw [Rune.decode_append body (Bytes.startsAscii_cons (by decide) _),
      Rune.decode_ascii_cons (by decide), Rune.decode_cons, Piece.read_body hmark hbody,
      Lexeme.string_badEscape (escapeFault?_of_not_letter hletter hu _), List.reverse_reverse,
      decode_backslash]
    rfl
  | @unicode mark body rest hmark hbody hhex =>
    have hsplit : mark.char.ascii :: (body ++ ['\\'.ascii]) ++ 'u'.ascii :: rest =
        mark.char.ascii :: (body ++ '\\'.ascii :: 'u'.ascii :: rest) := by simp
    rw [hsplit]
    refine ⟨_, _, Rune.decode_ascii_cons mark.char_lt (body ++ '\\'.ascii :: 'u'.ascii :: rest), ?_⟩
    rw [Rune.decode_append body (Bytes.startsAscii_cons (by decide) _),
      Rune.decode_ascii_cons (by decide), Rune.decode_ascii_cons (by decide),
      Piece.read_body hmark hbody, Lexeme.string_badEscape (escapeFault?_of_not_startsHex hhex),
      List.reverse_reverse, decode_backslash]
    rfl
  | @minus rest hdigit =>
    refine ⟨_, _, Rune.decode_ascii_cons (by decide) rest, ?_⟩
    have hstops := (Rune.stops_decode_iff fun c => lt_of_isDigit).mpr hdigit
    rw [Piece.read_number (.inl rfl), Lexeme.number_of_minus hstops, Rune.decode_nil]
    rfl
  | @exponent n letter sign _ hbreak =>
    have hread := Lexeme.number_of_breaksOff (Numeral.breaksOffRunes_decode_iff.mpr hbreak)
    obtain ⟨c, cs, hchars, hc⟩ := n.exists_cons
    have hfront : Rune.decode (Bytes.ofAscii (n.chars ++ letter :: sign)) =
        n.chars.map .valid ++ .valid letter :: sign.map .valid := by
      rw [Rune.decode_ofAscii fun c => hbreak.lt_of_mem]
      simp
    refine ⟨.valid c, cs.map .valid ++ .valid letter :: (sign.map .valid ++ Rune.decode rest),
      ?_, ?_⟩
    · rw [Rune.decode_ofAscii_append fun c => hbreak.lt_of_mem, hchars]
      simp
    · rw [hchars, List.map_cons, List.cons_append, List.cons_append] at hread
      rw [Piece.read_number hc, hread, hfront, hchars]
      rfl
  | @range n rest hrange hends =>
    have hread := Lexeme.number_of_numeral (Numeral.endsBeforeRunes_decode_iff.mpr hends)
    obtain ⟨c, cs, hchars, hc⟩ := n.exists_cons
    refine ⟨.valid c, cs.map .valid ++ Rune.decode rest, ?_, ?_⟩
    · rw [List.nil_append, Rune.decode_ofAscii_append fun c => Numeral.lt_of_mem_chars, hchars]
      rfl
    · rw [Lexeme.ofNumeral_outOfRange hrange] at hread
      rw [hchars, List.map_cons, List.cons_append] at hread
      rw [Piece.read_number hc, hread, Rune.decode_nil, hchars]
      rfl
  | @identifier name rest hd hkind hends =>
    refine ⟨.valid name.first, name.others.map .valid ++ Rune.decode rest, ?_, ?_⟩
    · exact Rune.decode_ofAscii_append (fun c => Name.lt_of_mem_chars) rest
    · have hread := Lexeme.name_of_name name (Name.stops_iff.mpr hends) d
      rw [Piece.read_name name.isNameStart, Rune.decode_nil]
      refine (congrArg (Except.map Piece.lexeme) hread).trans ?_
      simp only [Lexeme.ofName, hkind, hd, Bool.false_eq_true, ↓reduceIte]
      rw [Rune.encode_valid_ascii fun c => Name.lt_of_mem_chars]
      rfl

/-! ## What is met is a fault -/

/-- A string that cannot be read has a fault. -/
theorem of_string {mark : QuoteMark} (hmark : mark = .single → d.singleQuotes) {bs : Bytes}
    {f : LexicalFault} (h : Lexeme.string d mark [] (Rune.decode bs) = .error f) :
    ∃ front rest reason, mark.char.ascii :: bs = front ++ rest ∧ Fault d front rest reason := by
  obtain ⟨body, runes, hsplit, hbody, hstop, heq⟩ :=
    @Lexeme.exists_body d mark [] (Rune.decode bs) fun r => Rune.isRead_of_mem_decode
  obtain ⟨rest, rfl, hrest⟩ := Rune.decode_eq_append hsplit
  cases hstop with
  | nil =>
    cases Rune.eq_nil_of_decode_eq_nil hrest
    exact ⟨[], _, _, rfl, .quote hmark hbody (.inl rfl)⟩
  | backslash =>
    obtain ⟨cs, rfl, hcs⟩ := Rune.decode_eq_ascii_cons (by decide) hrest
    cases Rune.eq_nil_of_decode_eq_nil hcs
    exact ⟨[], _, _, rfl, .quote hmark hbody (.inr rfl)⟩
  | close =>
    rw [heq, Lexeme.string_close, List.append_nil, List.reverse_reverse,
      Lexeme.ofBody_of_body hbody] at h
    cases h
  | @escape r runes reason hfault =>
    obtain ⟨cs, rfl, hcs⟩ := Rune.decode_eq_ascii_cons (by decide) hrest
    by_cases hu : r = .valid 'u'
    · subst hu
      obtain ⟨hex, rfl, rfl⟩ := Rune.decode_eq_ascii_cons (by decide) hcs
      have hdigits : ¬ Bytes.StartsHex hex := by
        intro hhex
        rw [← Rune.encode_decode hex, ← escapeFault?_unicode_eq_none_iff
          fun r => Rune.isRead_of_mem_decode, hfault] at hhex
        cases hhex
      refine ⟨_, _, _, ?_, .unicode hmark hbody hdigits⟩
      simp
    · obtain ⟨b, bs, rfl, rfl⟩ := Rune.exists_first_of_decode hcs
      have hnone : ∀ c, Rune.first b bs = .valid c → ¬ d.EscapeLetter c := by
        intro c hc hletter
        rw [hc, escapeFault?_of_letter hletter] at hfault
        cases hfault
      refine ⟨_, _, _, ?_, .escape hmark hbody hnone hu⟩
      simp
  | @control c runes hc =>
    obtain ⟨cs, rfl, -⟩ := Rune.decode_eq_ascii_cons (by omega) hrest
    exact ⟨_, _, _, rfl, .control hmark hbody hc⟩

/-- A number that cannot be read has a fault. -/
theorem of_number {c : Char} (hc : c = '-' ∨ c.isDigit) {bs : Bytes} {rs : List Rune}
    (hbs : Rune.decode bs = .valid c :: rs) {f : LexicalFault}
    (h : Lexeme.number (.valid c :: rs) = .error f) :
    ∃ front rest reason, bs = front ++ rest ∧ Fault d front rest reason := by
  rcases Lexeme.number_cases hc rs with
    ⟨rfl, hstops⟩ | ⟨n, letter, sign, runes, hbreak, hsplit⟩ | ⟨n, runes, hends, hsplit⟩
  · obtain ⟨rest, rfl, rfl⟩ := Rune.decode_eq_ascii_cons (by decide) hbs
    refine ⟨[], _, _, rfl, .minus ?_⟩
    exact (Rune.stops_decode_iff fun c => lt_of_isDigit).mp hstops
  · have hruns : Rune.decode bs = (n.chars ++ letter :: sign).map .valid ++ runes := by
      rw [hbs, hsplit]
      simp
    obtain ⟨rest, rfl, rfl⟩ := Rune.decode_eq_append hruns
    have hbytes := Numeral.breaksOffRunes_decode_iff.mp hbreak
    rw [Rune.encode_valid_ascii fun c => hbytes.lt_of_mem]
    exact ⟨_, rest, _, rfl, .exponent hbytes⟩
  · obtain ⟨rest, rfl, rfl⟩ := Rune.decode_eq_append (hbs.trans hsplit)
    rw [Rune.encode_valid_ascii fun c => Numeral.lt_of_mem_chars]
    refine ⟨[], _, _, rfl, .range ?_ (Numeral.endsBeforeRunes_decode_iff.mp hends)⟩
    by_contra hrange
    rw [hsplit, Lexeme.number_of_numeral hends, Lexeme.ofNumeral_chars hrange] at h
    cases h

/-- What the reader stops at is a fault. -/
theorem of_read {bs : Bytes} {r : Rune} {rs : List Rune} {f : LexicalFault}
    (hbs : Rune.decode bs = r :: rs) (h : Piece.read d r rs = .error f) :
    ∃ front rest reason, bs = front ++ rest ∧ Fault d front rest reason := by
  cases r with
  | invalid b =>
    obtain ⟨b', bs', rfl, hfirst⟩ := Rune.exists_first_of_decode hbs
    refine ⟨[], _, _, rfl, .unexpected fun c hc => ?_⟩
    rw [hfirst] at hc
    cases hc
  | valid c =>
    obtain ⟨out, hread, hform⟩ :
        ∃ out, Piece.read d (.valid c) rs = out ∧ Piece.ReadAs d rs c out :=
      ⟨_, rfl, Piece.readAs_read c rs⟩
    rw [hread] at h
    cases hform with
    | punctuation _ => cases h
    | space _ => cases h
    | @string mark hmark =>
      obtain ⟨cs, rfl, rfl⟩ := Rune.decode_eq_ascii_cons mark.char_lt hbs
      exact of_string hmark (Piece.eq_error_of_map_eq_error h)
    | comment hd =>
      obtain ⟨cs, rfl, rfl⟩ := Rune.decode_eq_ascii_cons (by decide) hbs
      rcases Lexeme.comment_fault (Piece.eq_error_of_map_eq_error h) with
        ⟨rest, rfl, hbody, -⟩ | ⟨hstray, -⟩
      · exact ⟨[], _, _, rfl, .comment hd hbody⟩
      · exact ⟨[], _, _, rfl, .stray hd hstray⟩
    | number hc => exact of_number hc hbs (Piece.eq_error_of_map_eq_error h)
    | name hstart =>
      obtain ⟨n, runes, hsplit, hname, hends⟩ := Lexeme.exists_name hstart rs d
      obtain ⟨rest, rfl, rfl⟩ := Rune.decode_eq_append (hbs.trans hsplit)
      rw [Piece.eq_error_of_map_eq_error h, Lexeme.ofName] at hname
      rw [Rune.encode_valid_ascii fun c => Name.lt_of_mem_chars]
      cases hkind : Lexeme.keyword? n.chars with
      | some kind =>
        simp only [hkind] at hname
        cases hname
      | none =>
        simp only [hkind] at hname
        split at hname
        · cases hname
        · rename_i hd
          refine ⟨[], _, _, rfl, .identifier ?_ hkind (Name.stops_iff.mp hends)⟩
          exact Bool.eq_false_iff.mpr hd
    | unexpected hstarts =>
      obtain ⟨b, bs', rfl, hfirst⟩ := Rune.exists_first_of_decode hbs
      refine ⟨[], _, _, rfl, .unexpected fun c' hc' => ?_⟩
      rw [hfirst] at hc'
      cases hc'
      exact hstarts

theorem startsAscii (h : Fault d front rest reason) : front.StartsAscii := by
  cases h with
  | @control mark _ _ _ _ _ _ => exact Bytes.startsAscii_cons mark.char_lt _
  | @escape mark _ _ _ _ _ _ _ => exact Bytes.startsAscii_cons mark.char_lt _
  | @unicode mark _ _ _ _ _ => exact Bytes.startsAscii_cons mark.char_lt _
  | exponent hbreak => exact Bytes.startsAscii_ofAscii fun c => hbreak.lt_of_mem
  | _ => exact nofun

end Fault

/-! ## Whole texts -/

/-- The text `before` is a sequence of gaps and words, each in front of what follows it up to the
    end of `rest`. -/
inductive Scanned (d : Dialect) : (before rest : Bytes) → Prop where
  | nil {rest : Bytes} : Scanned d [] rest
  | gap {before piece rest : Bytes} : Scanned d before (piece ++ rest) → GapPiece d piece rest →
      Scanned d (before ++ piece) rest
  | word {before rest : Bytes} {w : Word} : Scanned d before (w.text ++ rest) → IsWord d w rest →
      Scanned d (before ++ w.text) rest

namespace Scanned

variable {d : Dialect} {before rest : Bytes}

/-- The scanner gets through gaps and words. -/
theorem scan_eq (h : Scanned d before rest) :
    ∃ found, Token.scan d (before ++ rest) =
      Token.scanFrom d (.behind d before) found (Rune.decode rest) := by
  induction h with
  | nil => exact ⟨[], by rw [Place.behind_nil]; rfl⟩
  | @gap before piece rest _ hpiece ih =>
    obtain ⟨found, hfound⟩ := ih
    rw [Token.scanFrom_gapPiece hpiece] at hfound
    exact ⟨found, by rw [List.append_assoc, hfound]⟩
  | @word before rest w _ hword ih =>
    obtain ⟨found, hfound⟩ := ih
    rw [Token.scanFrom_word hword] at hfound
    exact ⟨_, by rw [List.append_assoc, hfound]⟩

/-- From any place that gaps and words lead to, further ones lead to the end of the text or to a
    fault. -/
theorem exists_end (h : Scanned d before rest) :
    ∃ before' rest', before ++ rest = before' ++ rest' ∧ Scanned d before' rest' ∧
      (rest' = [] ∨ ∃ front more reason, rest' = front ++ more ∧ Fault d front more reason) := by
  induction hn : rest.length using Nat.strongRecOn generalizing before rest with
  | ind n ih =>
    cases hruns : Rune.decode rest with
    | nil =>
      cases Rune.eq_nil_of_decode_eq_nil hruns
      exact ⟨before, [], rfl, h, .inl rfl⟩
    | cons r rs =>
      cases hread : Piece.read d r rs with
      | error f => exact ⟨before, rest, rfl, h, .inr (Fault.of_read hruns hread)⟩
      | ok p =>
        cases p with
        | gap taken =>
          obtain ⟨rest, rfl, -, hpiece⟩ := GapPiece.of_read hruns hread
          rw [← List.append_assoc]
          exact ih _ (hn ▸ hpiece.length_lt) (h.gap hpiece) rfl
        | lexeme l =>
          obtain ⟨rest, rfl, -, hword⟩ := IsWord.of_read hruns hread
          rw [← List.append_assoc]
          exact ih _ (hn ▸ hword.length_lt) (h.word hword) rfl

end Scanned

namespace Token

variable {d : Dialect}

/-- The scanner reports the first fault, at the offending place. -/
theorem scan_of_fault {before front rest : Bytes} {reason : SyntaxReason}
    (hbefore : Scanned d before (front ++ rest)) (h : Fault d front rest reason) :
    scan d (before ++ (front ++ rest)) =
      .error ⟨Layout.positionBehind d (before ++ front), reason⟩ := by
  obtain ⟨found, hfound⟩ := hbefore.scan_eq
  obtain ⟨r, rs, hdecode, hread⟩ := h.read
  rw [hfound, hdecode, scanFrom, hread]
  simp only [LexicalFault.toError, Place.advance_behind d before h.startsAscii]
  rfl

/-- The scanner fails exactly at faults. -/
theorem scan_eq_error_iff_fault {text : Bytes} {e : SyntaxError} :
    scan d text = .error e ↔
      ∃ before front rest, text = before ++ (front ++ rest) ∧ Scanned d before (front ++ rest) ∧
        Fault d front rest e.reason ∧ e.position = Layout.positionBehind d (before ++ front) := by
  constructor
  · intro h
    have hstart : Scanned d [] text := .nil
    obtain ⟨before, rest, htext, hbefore, hrest⟩ := hstart.exists_end
    rw [List.nil_append] at htext
    subst htext
    rcases hrest with rfl | ⟨front, more, reason, rfl, hfault⟩
    · obtain ⟨found, hfound⟩ := hbefore.scan_eq
      rw [hfound, Rune.decode_nil, scanFrom] at h
      cases h
    · rw [scan_of_fault hbefore hfault] at h
      cases h
      exact ⟨before, front, more, rfl, hbefore, hfault, rfl⟩
  · rintro ⟨before, front, rest, rfl, hbefore, hfault, hposition⟩
    rw [scan_of_fault hbefore hfault, ← hposition]

end Token

end RelaxedJson
