-- SUMMARY: Scanning accepts exactly the texts of the lexical grammar, and loses nothing of them.
import RelaxedJson.Proofs.Lexical.Pieces

/-!
# Scanning

The scanner goes over a text piece by piece. Over a piece of a gap it moves on
(`scanFrom_gapPiece`), over a word it also notes the token (`scanFrom_word`). So it gets through
exactly the texts that are laid out as gaps and words, and its tokens are the words with their
places.
-/

namespace RelaxedJson

/-! ## Places -/

/-- The place behind the text `before`. -/
def Place.behind (d : Dialect) (before : Bytes) : Place :=
  ⟨before.length, Layout.positionBehind d before⟩

theorem Place.behind_nil (d : Dialect) : Place.behind d [] = Place.start := by
  simp [behind, start, Layout.positionBehind]

theorem Place.advance_behind (d : Dialect) (before : Bytes) {piece : Bytes} (h : piece.StartsAscii) :
    (Place.behind d before).advance d (Rune.decode piece) = Place.behind d (before ++ piece) := by
  simp only [behind, advance, Layout.positionBehind, Rune.decode_append before h,
    Position.advanceAll_append, List.length_append, Rune.foldl_width, Rune.encode_decode]

theorem Bytes.startsAscii_ofAscii {cs : List Char} (hcs : ∀ c ∈ cs, c.toNat < 128) :
    Bytes.StartsAscii (Bytes.ofAscii cs) := by
  cases cs with
  | nil => nofun
  | cons c cs => exact startsAscii_cons (hcs c List.mem_cons_self) _

theorem GapPiece.startsAscii {d : Dialect} {piece rest : Bytes} (h : GapPiece d piece rest) :
    piece.StartsAscii := by
  cases h with
  | space hc => exact Bytes.startsAscii_cons (Piece.lt_of_isSpace hc) _
  | line _ _ _ => exact Bytes.startsAscii_cons (by decide) _
  | block _ _ => exact Bytes.startsAscii_cons (by decide) _

theorem IsWord.startsAscii {d : Dialect} {w : Word} {rest : Bytes} (h : IsWord d w rest) :
    w.text.StartsAscii := by
  cases h with
  | punctuation hkind => exact Bytes.startsAscii_cons (Piece.lt_of_punctuation? hkind) _
  | @string mark _ _ _ _ => exact Bytes.startsAscii_cons mark.char_lt _
  | number _ _ => exact Bytes.startsAscii_ofAscii fun c => Numeral.lt_of_mem_chars
  | keyword _ _ => exact Bytes.startsAscii_ofAscii fun c => Name.lt_of_mem_chars
  | identifier _ _ _ => exact Bytes.startsAscii_ofAscii fun c => Name.lt_of_mem_chars

theorem GapPiece.length_lt {d : Dialect} {piece rest : Bytes} (h : GapPiece d piece rest) :
    rest.length < (piece ++ rest).length := by
  have hpos : 0 < piece.length := by cases h <;> exact Nat.succ_pos _
  rw [List.length_append]
  omega

theorem IsWord.length_lt {d : Dialect} {w : Word} {rest : Bytes} (h : IsWord d w rest) :
    rest.length < (w.text ++ rest).length := by
  obtain ⟨r, rs, htext, -⟩ := h.read
  obtain ⟨b, bs, hbytes, -⟩ := Rune.exists_first_of_decode htext
  rw [hbytes, List.length_append, List.length_cons]
  omega

theorem IsWord.kind_ne_end {d : Dialect} {w : Word} {rest : Bytes} (h : IsWord d w rest) :
    w.kind ≠ .endOfInput := by
  cases h with
  | punctuation hkind => exact ne_of_mem_of_not_mem (Piece.kind_of_punctuation? hkind) (by decide)
  | keyword hkind _ => exact ne_of_mem_of_not_mem (Piece.kind_of_keyword? hkind) (by decide)
  | string _ _ | number _ _ | identifier _ _ _ => exact Kind.noConfusion

/-! ## Bytes of words -/

theorem printable_of_isDigit {c : Char} (h : c.isDigit) : 0x20 ≤ c.toNat :=
  forall_ascii (P := fun c => c.isDigit → 0x20 ≤ c.toNat) (by decide) (lt_of_isDigit h) h

theorem printable_of_isNameChar {c : Char} (h : Lexeme.isNameChar c) : 0x20 ≤ c.toNat :=
  forall_ascii (P := fun c => Lexeme.isNameChar c → 0x20 ≤ c.toNat) (by decide)
    (lt_of_isNameChar h) h

theorem NumeralClass.printable : NumeralClass (0x20 ≤ ·.toNat) where
  digit _ := printable_of_isDigit
  letter c hc := forall_ascii (P := fun c => isExponentLetter c → 0x20 ≤ c.toNat) (by decide)
    (lt_of_isExponentLetter hc) hc
  mark := by simp

theorem Name.printable {n : Name} {c : Char} (hc : c ∈ n.chars) : 0x20 ≤ c.toNat := by
  rcases List.mem_cons.mp hc with rfl | hc
  · exact printable_of_isNameChar (Lexeme.isNameChar_of_isNameStart n.isNameStart)
  · exact printable_of_isNameChar (n.isNameChar c hc)

theorem Bytes.printable_ofAscii {cs : List Char} (hcs : ∀ c ∈ cs, c.toNat < 128)
    (h : ∀ c ∈ cs, 0x20 ≤ c.toNat) : ∀ b ∈ Bytes.ofAscii cs, 0x20 ≤ b.toNat := by
  intro b hb
  obtain ⟨c, hc, rfl⟩ := List.mem_map.mp hb
  rw [ascii_toNat (hcs c hc)]
  exact h c hc

/-- A word holds no control byte. -/
theorem IsWord.printable {d : Dialect} {w : Word} {rest : Bytes} (h : IsWord d w rest) :
    ∀ b ∈ w.text, 0x20 ≤ b.toNat := by
  cases h with
  | @punctuation c kind _ hkind =>
    intro b hb
    rw [List.mem_singleton.mp hb, ascii_toNat (Piece.lt_of_punctuation? hkind)]
    exact forall_ascii (P := fun c => (Lexeme.punctuation? c).isSome → 0x20 ≤ c.toNat) (by decide)
      (Piece.lt_of_punctuation? hkind) (by simp [hkind])
  | @string mark body _ _ hbody =>
    have hmark : 0x20 ≤ mark.char.ascii.toNat := by cases mark <;> decide
    have hclose : ∀ b ∈ body ++ [mark.char.ascii], 0x20 ≤ b.toNat :=
      List.forall_mem_append.mpr ⟨hbody.printable, List.forall_mem_singleton.mpr hmark⟩
    exact List.forall_mem_cons.mpr ⟨hmark, hclose⟩
  | number _ _ =>
    exact Bytes.printable_ofAscii (fun c => Numeral.lt_of_mem_chars)
      fun c => Numeral.forall_mem_chars .printable
  | keyword _ _ | identifier _ _ _ =>
    exact Bytes.printable_ofAscii (fun c => Name.lt_of_mem_chars) fun c => Name.printable

theorem GapPiece.isUtf8_rest {d : Dialect} {piece rest : Bytes} (h : GapPiece d piece rest)
    (htext : Bytes.isUtf8 (piece ++ rest)) : rest.isUtf8 := by
  obtain ⟨r, rs, hdecode, hcut, -⟩ := h.read
  exact (Bytes.isUtf8_of_cut (by rw [hcut, hdecode]) htext).2

theorem IsWord.isUtf8 {d : Dialect} {w : Word} {rest : Bytes} (hw : IsWord d w rest)
    (h : Bytes.isUtf8 (w.text ++ rest)) : w.text.isUtf8 ∧ rest.isUtf8 := by
  obtain ⟨r, rs, hdecode, hcut, -⟩ := hw.read
  exact Bytes.isUtf8_of_cut (by rw [hcut, hdecode]) h

/-! ## One piece -/

namespace Token

variable {d : Dialect}

theorem scanFrom_gapPiece {piece rest : Bytes} (h : GapPiece d piece rest) (before : Bytes)
    (found : List Token) :
    scanFrom d (.behind d before) found (Rune.decode (piece ++ rest)) =
      scanFrom d (.behind d (before ++ piece)) found (Rune.decode rest) := by
  obtain ⟨r, rs, hpiece, hdecode, hread⟩ := h.read
  have hplace := Place.advance_behind d before h.startsAscii
  rw [hpiece] at hplace
  rw [hdecode, List.cons_append, scanFrom, hread]
  simp only [hplace, List.length_cons, Nat.add_sub_cancel, List.drop_left]

/-- The lexeme that a word is read as becomes the token of the word. -/
theorem toToken_word {w : Word} {rest : Bytes} (h : IsWord d w rest) (before : Bytes) {r : Rune}
    {rs : List Rune} (htext : Rune.decode w.text = r :: rs) :
    Lexeme.toToken d (.behind d before) { kind := w.kind, runes := r :: rs, literal := w.literal } =
      Layout.token d before w := by
  have hplace := Place.advance_behind d before h.startsAscii
  rw [htext] at hplace
  have hbytes : Rune.encode (r :: rs) = w.text := by rw [← htext, Rune.encode_decode]
  have hlocate : (Place.behind d before).locate d (r :: rs) =
      ⟨⟨before.length, before.length + w.text.length⟩, Layout.positionBehind d before⟩ := by
    rw [Place.locate, hplace]
    simp [Place.behind]
  simp only [Lexeme.toToken, Layout.token, hbytes, hlocate]

theorem scanFrom_word {w : Word} {rest : Bytes} (h : IsWord d w rest) (before : Bytes)
    (found : List Token) :
    scanFrom d (.behind d before) found (Rune.decode (w.text ++ rest)) =
      scanFrom d (.behind d (before ++ w.text)) (Layout.token d before w :: found)
        (Rune.decode rest) := by
  obtain ⟨r, rs, htext, hdecode, hread⟩ := h.read
  have hplace := Place.advance_behind d before h.startsAscii
  rw [htext] at hplace
  rw [hdecode, List.cons_append, scanFrom, hread]
  simp only [hplace, toToken_word h before htext, List.length_cons, Nat.add_sub_cancel,
    List.drop_left]

/-! ## Whole texts -/

theorem scanFrom_gap {gap rest : Bytes} (h : Gap d gap rest) (before : Bytes)
    (found : List Token) :
    scanFrom d (.behind d before) found (Rune.decode (gap ++ rest)) =
      scanFrom d (.behind d (before ++ gap)) found (Rune.decode rest) := by
  induction h generalizing before with
  | nil => simp
  | cons hpiece _ ih =>
    rw [List.append_assoc, scanFrom_gapPiece hpiece, ih, List.append_assoc]

theorem atEnd_behind (before : Bytes) :
    atEnd (.behind d before) = Layout.token d before { kind := .endOfInput, text := [] } := by
  simp [atEnd, Layout.token, Place.behind]

/-- The scanner gets through every text that is laid out as gaps and words. -/
theorem scanFrom_words {words : List (Word × Bytes)} (h : Layout.WordsFit d words) (before : Bytes)
    (found : List Token) :
    scanFrom d (.behind d before) found (Rune.decode (Word.spell words)) =
      .ok (found.reverse ++ Layout.tokensFrom d before words) := by
  induction words generalizing before found with
  | nil =>
    rw [Word.spell, Rune.decode_nil, scanFrom, atEnd_behind, List.reverse_cons]
    rfl
  | cons w words ih =>
    obtain ⟨hword, hgap, hwords⟩ := h
    rw [Word.spell, scanFrom_word hword, scanFrom_gap hgap, ih hwords, List.append_assoc]
    simp [Layout.tokensFrom]

theorem scanFrom_layout {L : Layout} (h : L.Fits d) (before : Bytes) (found : List Token) :
    scanFrom d (.behind d before) found (Rune.decode L.text) =
      .ok (found.reverse ++ Layout.tokensFrom d (before ++ L.lead) L.words) := by
  rw [Layout.text, scanFrom_gap h.lead, scanFrom_words h.words]

/-- A text that the scanner gets through is laid out as gaps and words. -/
theorem layout_of_scanFrom {bs before : Bytes} {found ts : List Token}
    (h : scanFrom d (.behind d before) found (Rune.decode bs) = .ok ts) :
    ∃ L : Layout, L.Fits d ∧ L.text = bs := by
  induction hn : bs.length using Nat.strongRecOn generalizing bs before found with
  | ind n ih =>
    cases hruns : Rune.decode bs with
    | nil =>
      cases Rune.eq_nil_of_decode_eq_nil hruns
      exact ⟨⟨[], []⟩, ⟨.nil, trivial⟩, rfl⟩
    | cons r rs =>
      cases hread : Piece.read d r rs with
      | error fault =>
        rw [hruns, scanFrom, hread] at h
        cases h
      | ok p =>
        cases p with
        | gap taken =>
          obtain ⟨rest, rfl, -, hpiece⟩ := GapPiece.of_read hruns hread
          rw [scanFrom_gapPiece hpiece] at h
          obtain ⟨L, hL, rfl⟩ := ih _ (hn ▸ hpiece.length_lt) h rfl
          exact ⟨⟨Rune.encode taken ++ L.lead, L.words⟩, ⟨.cons hpiece hL.lead, hL.words⟩,
            List.append_assoc _ _ _⟩
        | lexeme l =>
          obtain ⟨rest, rfl, -, hword⟩ := IsWord.of_read hruns hread
          rw [scanFrom_word hword] at h
          obtain ⟨L, hL, rfl⟩ := ih _ (hn ▸ hword.length_lt) h rfl
          exact ⟨⟨[], (_, L.lead) :: L.words⟩, ⟨.nil, hword, hL.lead, hL.words⟩, rfl⟩

theorem scan_of_layout {L : Layout} (h : L.Fits d) : scan d L.text = .ok (L.tokens d) := by
  rw [scan, ← Place.behind_nil d, scanFrom_layout h]
  rfl

theorem layout_of_scan {text : Bytes} {ts : List Token} (h : scan d text = .ok ts) :
    ∃ L : Layout, L.Fits d ∧ L.text = text ∧ L.tokens d = ts := by
  have hscan := h
  rw [scan, ← Place.behind_nil d] at hscan
  obtain ⟨L, hL, rfl⟩ := layout_of_scanFrom hscan
  rw [scan_of_layout hL] at h
  exact ⟨L, hL, rfl, Except.ok.inj h⟩

/-! ## Single tokens -/

theorem exists_of_mem_tokensFrom {words : List (Word × Bytes)} (h : Layout.WordsFit d words)
    {before : Bytes} {t : Token} (ht : t ∈ Layout.tokensFrom d before words) :
    ∃ (front : Bytes) (w : Word) (rest : Bytes), Word.spell words = front ++ (w.text ++ rest) ∧
      t = Layout.token d (before ++ front) w ∧
      (IsWord d w rest ∨ w = { kind := .endOfInput, text := [] } ∧ rest = []) := by
  induction words generalizing before with
  | nil =>
    rw [Layout.tokensFrom, List.mem_singleton] at ht
    exact ⟨[], _, [], rfl, by rw [ht, List.append_nil], .inr ⟨rfl, rfl⟩⟩
  | cons w words ih =>
    obtain ⟨hword, hgap, hwords⟩ := h
    rw [Layout.tokensFrom] at ht
    rcases List.mem_cons.mp ht with rfl | ht
    · exact ⟨[], w.1, _, rfl, by rw [List.append_nil], .inl hword⟩
    · obtain ⟨front, w', rest, hspell, rfl, hw'⟩ := ih hwords ht
      refine ⟨w.1.text ++ (w.2 ++ front), w', rest, ?_, ?_, hw'⟩
      · rw [Word.spell, hspell]
        simp only [List.append_assoc]
      · simp only [List.append_assoc]

/-- Each token of a text is a word of the text, at its place, or the end of input. -/
theorem exists_of_mem_scan {text : Bytes} {ts : List Token} (h : scan d text = .ok ts) {t : Token}
    (ht : t ∈ ts) :
    ∃ (before : Bytes) (w : Word) (rest : Bytes), text = before ++ (w.text ++ rest) ∧
      t = Layout.token d before w ∧
      (IsWord d w rest ∨ w = { kind := .endOfInput, text := [] } ∧ rest = []) := by
  obtain ⟨L, hL, rfl, rfl⟩ := layout_of_scan h
  obtain ⟨front, w, rest, hspell, rfl, hw⟩ := exists_of_mem_tokensFrom hL.words ht
  exact ⟨L.lead ++ front, w, rest, by rw [Layout.text, hspell, List.append_assoc], rfl, hw⟩

/-- No token of a text holds a control byte. -/
theorem printable_of_mem_scan {text : Bytes} {ts : List Token} (h : scan d text = .ok ts) {t : Token}
    (ht : t ∈ ts) : ∀ b ∈ t.lexeme, 0x20 ≤ b.toNat := by
  obtain ⟨before, w, rest, -, rfl, hw | ⟨rfl, -⟩⟩ := exists_of_mem_scan h ht
  · exact hw.printable
  · exact List.forall_mem_nil _

/-- The end of input has no text. -/
theorem lexeme_of_mem_scan {text : Bytes} {ts : List Token} (h : scan d text = .ok ts) {t : Token}
    (ht : t ∈ ts) (hkind : t.kind = .endOfInput) : t.lexeme = [] := by
  obtain ⟨before, w, rest, -, rfl, hw | ⟨rfl, -⟩⟩ := exists_of_mem_scan h ht
  · exact absurd hkind hw.kind_ne_end
  · rfl

/-- Among the tokens of a text the end of input comes last, and only there. -/
theorem kind_of_tokensFrom {words : List (Word × Bytes)} (h : Layout.WordsFit d words)
    {before : Bytes} {ts : List Token} {last : Token}
    (htokens : Layout.tokensFrom d before words = ts ++ [last]) :
    (∀ t ∈ ts, t.kind ≠ .endOfInput) ∧ last.kind = .endOfInput := by
  induction words generalizing before ts with
  | nil =>
    cases ts with
    | nil =>
      cases htokens
      exact ⟨List.forall_mem_nil _, rfl⟩
    | cons t ts => simp [Layout.tokensFrom] at htokens
  | cons w words ih =>
    obtain ⟨hword, -, hwords⟩ := h
    cases ts with
    | nil => cases words <;> simp [Layout.tokensFrom] at htokens
    | cons t ts =>
      injection htokens with ht htokens
      obtain ⟨hts, hlast⟩ := ih hwords htokens
      refine ⟨List.forall_mem_cons.mpr ⟨?_, hts⟩, hlast⟩
      rw [← ht]
      exact hword.kind_ne_end

theorem kind_of_scan {text : Bytes} {ts : List Token} {last : Token}
    (h : scan d text = .ok (ts ++ [last])) :
    (∀ t ∈ ts, t.kind ≠ .endOfInput) ∧ last.kind = .endOfInput := by
  obtain ⟨L, hL, -, htokens⟩ := layout_of_scan h
  exact kind_of_tokensFrom hL.words htokens

/-- A successful scan ends with the end of input. -/
theorem exists_concat_of_scan {text : Bytes} {us : List Token} (h : scan d text = .ok us) :
    ∃ ts last, us = ts ++ [last] := by
  obtain ⟨L, -, -, rfl⟩ := layout_of_scan h
  have hne : L.tokens d ≠ [] := by
    unfold Layout.tokens
    cases L.words <;> simp [Layout.tokensFrom]
  exact ⟨_, _, (List.dropLast_append_getLast hne).symm⟩

/-- Scanning succeeds exactly on the texts that are laid out as gaps and words of the dialect, and
    yields the words, each with its text, place and literal, and the end of input. -/
theorem scan_eq_ok_iff (d : Dialect) (text : Bytes) (ts : List Token) :
    scan d text = .ok ts ↔ ∃ L : Layout, L.Fits d ∧ L.text = text ∧ L.tokens d = ts := by
  constructor
  · exact layout_of_scan
  · rintro ⟨L, hL, rfl, rfl⟩
    exact scan_of_layout hL

end Token

end RelaxedJson
