-- SUMMARY: Unquoting undoes quoting, and a quoted text is clean and a token of its own.
import RelaxedJson.Proofs.Lexical.Scanning

/-!
# Quoting

`Escape.quote` writes every byte string as a string body between two marks. So the literal is read as
one word, and what it stands for is the byte string with U+FFFD for all that is no UTF-8
(`quote_reads_back`).
-/

namespace RelaxedJson

/-! ## Bare bytes -/

/-- The bytes that do not stand behind a backslash, each backslash taken with the byte behind it. -/
def Bytes.bare : Bytes → Bytes
  | b :: c :: bs => if b = '\\'.ascii then b :: bare bs else b :: bare (c :: bs)
  | bs           => bs

namespace Bytes

theorem bare_of_ne {b : UInt8} (hb : b ≠ '\\'.ascii) (bs : Bytes) : bare (b :: bs) = b :: bare bs := by
  cases bs with
  | nil => rfl
  | cons c bs => rw [bare, if_neg hb]

theorem bare_backslash (c : UInt8) (bs : Bytes) :
    bare ('\\'.ascii :: c :: bs) = '\\'.ascii :: bare bs := by
  rw [bare, if_pos rfl]

end Bytes

/-- A body has no bare mark. -/
theorem StringBody.mark_not_mem_bare {d : Dialect} {mark : QuoteMark} {body : Bytes}
    (h : StringBody d mark body) : mark.char.ascii ∉ body.bare := by
  induction h with
  | nil => exact List.not_mem_nil
  | plain hmark hbackslash _ _ ih =>
    rw [Bytes.bare_of_ne hbackslash]
    exact List.not_mem_cons_of_ne_of_not_mem hmark.symm ih
  | escape _ _ ih =>
    rw [Bytes.bare_backslash]
    exact List.not_mem_cons_of_ne_of_not_mem mark.ascii_ne_backslash ih
  | unicode _ _ ih =>
    rw [Bytes.bare_backslash]
    exact List.not_mem_cons_of_ne_of_not_mem mark.ascii_ne_backslash ih

namespace Escape

variable (mark : QuoteMark)

/-! ## Literals -/

theorem isUtf8_quoteChar (c : Char) : (quoteChar mark c).isUtf8 := by
  rcases quoteChar_cases mark c with ⟨h, -⟩ | ⟨x, hx, h, -⟩ | ⟨h, -⟩
  · rw [h]
    exact Bytes.isUtf8_utf8 c
  · have hlt : x.toNat < 128 := (hx .permissive fun _ => rfl).lt
    rw [h]
    refine Bytes.isUtf8_of_ascii (List.forall_mem_cons.mpr ⟨by decide, ?_⟩)
    exact List.forall_mem_singleton.mpr (by rwa [ascii_toNat hlt])
  · have hmarks : "\\u".utf8 = ['\\'.ascii, 'u'.ascii] := by decide
    have hdigits : ∀ b ∈ hexDigits hexDigit 4 c.toNat, b.toNat < 128 :=
      fun b hb => (toNat_of_hexValue? (isSome_of_mem_hexDigits hb)).2
    rw [h, unicodeEscape, hmarks]
    exact Bytes.isUtf8_of_ascii
      (List.forall_mem_cons.mpr ⟨by decide, List.forall_mem_cons.mpr ⟨by decide, hdigits⟩⟩)

theorem isUtf8_quote (bs : Bytes) : (quote mark bs).isUtf8 := by
  have hmark : Bytes.isUtf8 [mark.char.ascii] :=
    Bytes.isUtf8_of_ascii (List.forall_mem_singleton.mpr (by cases mark <;> decide))
  have hbody : Bytes.isUtf8 (bs.chars.flatMap (quoteChar mark)) :=
    Bytes.isUtf8_flatMap fun c _ => isUtf8_quoteChar mark c
  rw [quote, ← List.singleton_append]
  exact Bytes.isUtf8_append (Bytes.isUtf8_append hmark hbody) hmark

end Escape

/-- A word by itself is a text of one token. -/
theorem Token.scan_word {d : Dialect} {w : Word} (hw : IsWord d w []) :
    scan d w.text =
      .ok [Layout.token d [] w, Layout.token d w.text { kind := .endOfInput, text := [] }] := by
  have hfits : (Layout.mk [] [(w, [])]).Fits d := ⟨.nil, hw, .nil, trivial⟩
  have htext : (Layout.mk [] [(w, [])]).text = w.text := List.append_nil _
  rw [← htext, scan_of_layout hfits, htext]
  simp [Layout.tokens, Layout.tokensFrom]

/-- Whatever is quoted, in whichever marks: the literal is well-formed and has no control byte and
    no bare mark inside. It reads back as what was quoted, up to the bytes that are no UTF-8, by
    itself and as the only token of a text. -/
theorem Escape.quote_reads_back (mark : QuoteMark) (bs : Bytes) :
    (quote mark bs).isUtf8 ∧ (∀ b ∈ quote mark bs, 0x20 ≤ b.toNat) ∧
    (∃ body : Bytes, quote mark bs = mark.char.ascii :: (body ++ [mark.char.ascii]) ∧
      mark.char.ascii ∉ body.bare) ∧
    unquote (quote mark bs) = .ok bs.sanitise ∧ (bs.isUtf8 → unquote (quote mark bs) = .ok bs) ∧
    ∀ d : Dialect, (mark = .single → d.singleQuotes) →
      ∃ t last, Token.scan d (quote mark bs) = .ok [t, last] ∧ t.kind = .string ∧
        t.lexeme = quote mark bs ∧ t.literal = some (.string bs.sanitise) ∧
        last.kind = .endOfInput := by
  have hbody : ∀ d : Dialect, (mark = .single → d.singleQuotes) →
      StringBody d mark (bs.chars.flatMap (quoteChar mark)) :=
    fun d hmark => StringBody.quoteChars hmark bs.chars
  have hpermissive : mark = .single → Dialect.permissive.singleQuotes := fun _ => rfl
  have htext : unescape (bs.chars.flatMap (quoteChar mark)) = .ok bs.sanitise :=
    unescape_quoteChars mark bs.chars
  have hunquote : unquote (quote mark bs) = .ok bs.sanitise := by
    rw [quote, List.cons_append, unquote_marks, htext]
  refine ⟨isUtf8_quote mark bs, ?_, ?_, hunquote, fun h => ?_, fun d hmark => ?_⟩
  · have hword : IsWord .permissive _ [] := .string hpermissive (hbody .permissive hpermissive)
    exact hword.printable
  · exact ⟨_, rfl, (hbody .permissive hpermissive).mark_not_mem_bare⟩
  · rw [hunquote, Bytes.sanitise_of_isUtf8 h]
  · have hscan := Token.scan_word (.string hmark (hbody d hmark))
    rw [htext] at hscan
    exact ⟨_, _, hscan, rfl, rfl, rfl, rfl⟩

/-- Both marks, a backslash, control characters with and without a letter, the line separator and
    U+FFFD inside apostrophes; and a byte that is no UTF-8 in front of an apostrophe. -/
theorem Escape.quote_reads_back_single :
    unquote (quote .single "'\"\\\x01\n\u2028\uFFFD".utf8) = .ok "'\"\\\x01\n\u2028\uFFFD".utf8 ∧
    ∃ t last, Token.scan .permissive (quote .single [0xFF, '\''.ascii]) = .ok [t, last] ∧
      t.literal = some (.string ("\uFFFD".utf8 ++ ['\''.ascii])) := by
  have hutf8 : Bytes.isUtf8 "'\"\\\x01\n\u2028\uFFFD".utf8 :=
    Bytes.isUtf8_iff.mpr ⟨['\'', '"', '\\', '\x01', '\n', '\u2028', '\uFFFD'], by decide⟩
  have hsanitise : Bytes.sanitise [0xFF, '\''.ascii] = "\uFFFD".utf8 ++ ['\''.ascii] := by cbv
  obtain ⟨t, last, hscan, -, -, hliteral, -⟩ :=
    (quote_reads_back .single [0xFF, '\''.ascii]).2.2.2.2.2 .permissive fun _ => rfl
  exact ⟨(quote_reads_back .single _).2.2.2.2.1 hutf8, t, last, hscan, hsanitise ▸ hliteral⟩

end RelaxedJson
