-- SUMMARY: The constructs of a text that need a relaxation, and that a dialect reads the rest alike.
import RelaxedJson.Proofs.Lexical.Scanning

/-!
# Relaxed constructs

Each relaxation has its own constructs, which can be told from the words and gaps of a text
(`Layout.Has`). Take a text as it is laid out under all relaxations. It is laid out in the same way
under fewer relaxations, unless it has a construct of one that is missing (`Layout.fits_iff`). And
there is one way only to lay out a text (`Layout.eq_of_text_eq`).
-/

namespace RelaxedJson

/-- The relaxations of strict JSON. -/
inductive Relaxation where
  | unquotedKeys
  | trailingCommas
  | singleQuotes
  | comments
  deriving DecidableEq, Repr

namespace Dialect

/-- Whether a relaxation is accepted. -/
def enables (d : Dialect) : Relaxation → Bool
  | .unquotedKeys   => d.unquotedKeys
  | .trailingCommas => d.trailingCommas
  | .singleQuotes   => d.singleQuotes
  | .comments       => d.comments

/-- The dialect with all relaxations and the same limits. -/
def relaxed (d : Dialect) : Dialect :=
  { d with unquotedKeys := true, trailingCommas := true, singleQuotes := true, comments := true }

end Dialect

/-! ## Constructs -/

/-- The bytes that stand behind a backslash in a string, each backslash taken with the byte behind
    it. -/
def Bytes.escaped : Bytes → Bytes
  | b :: c :: bs => if b = '\\'.ascii then c :: escaped bs else escaped (c :: bs)
  | _            => []

/-- White space only. -/
def Bytes.IsBlank (bs : Bytes) : Prop :=
  ∀ b ∈ bs, ∃ c : Char, Lexeme.isSpace c ∧ b = c.ascii

/-- The constructs of a single word. -/
inductive Word.Has (w : Word) : Relaxation → Prop where
  | identifier : w.kind = .identifier → w.Has .unquotedKeys
  | singleQuoted : w.kind = .string → w.text.head? = some '\''.ascii → w.Has .singleQuotes
  /-- A backslash in front of an apostrophe, whatever encloses the string. -/
  | apostrophe : w.kind = .string → '\''.ascii ∈ w.text.escaped → w.Has .singleQuotes

namespace Layout

/-- The gaps from first to last. -/
def gaps (L : Layout) : List Bytes :=
  L.lead :: L.words.map Prod.snd

/-- The constructs of a text that is laid out. -/
inductive Has (L : Layout) : Relaxation → Prop where
  | word {w : Word} {r : Relaxation} : w ∈ L.words.map Prod.fst → w.Has r → L.Has r
  /-- What is not white space in a gap is a comment. -/
  | comment {gap : Bytes} : gap ∈ L.gaps → ¬ gap.IsBlank → L.Has .comments
  /-- A comma directly in front of a closing bracket. -/
  | trailingComma {closing : Kind} : closing = .rightBrace ∨ closing = .rightBracket →
      [.comma, closing] <:+: L.words.map (·.1.kind) → L.Has .trailingCommas

end Layout

/-- A text has a construct of the relaxation, the way the dialect reads it. -/
def Dialect.Finds (d : Dialect) (text : Bytes) (r : Relaxation) : Prop :=
  ∃ L : Layout, L.Fits d ∧ L.text = text ∧ L.Has r

variable {d : Dialect}

/-! ## Strings -/

namespace Bytes

theorem escaped_of_ne {b : UInt8} (hb : b ≠ '\\'.ascii) (bs : Bytes) :
    escaped (b :: bs) = escaped bs := by
  cases bs with
  | nil => rfl
  | cons c bs => rw [escaped, if_neg hb]

theorem escaped_backslash (c : UInt8) (bs : Bytes) :
    escaped ('\\'.ascii :: c :: bs) = c :: escaped bs := by
  rw [escaped, if_pos rfl]

end Bytes

/-- The marks around a string escape nothing and are not escaped. -/
theorem StringBody.escaped_marks {mark : QuoteMark} {body : Bytes} (h : StringBody d mark body) :
    Bytes.escaped (mark.char.ascii :: (body ++ [mark.char.ascii])) = Bytes.escaped body := by
  rw [Bytes.escaped_of_ne mark.ascii_ne_backslash]
  induction h with
  | nil => rfl
  | plain _ hb _ _ ih => rw [List.cons_append, Bytes.escaped_of_ne hb, Bytes.escaped_of_ne hb, ih]
  | escape _ _ ih =>
    rw [List.cons_append, List.cons_append, Bytes.escaped_backslash, Bytes.escaped_backslash, ih]
  | unicode _ _ ih =>
    rw [List.cons_append, List.cons_append, Bytes.escaped_backslash, Bytes.escaped_backslash, ih]

/-- An apostrophe is the only escape that depends on the dialect. -/
theorem Dialect.escapeLetter_iff {c : Char} :
    d.EscapeLetter c ↔ d.relaxed.EscapeLetter c ∧ ('\''.ascii = c.ascii → d.singleQuotes) := by
  constructor
  · rintro (hc | ⟨rfl, hquotes⟩)
    · refine ⟨.inl hc, fun heq => ?_⟩
      cases (ascii_inj (by decide) (EscapeLetter.lt (d := d) (.inl hc))).mp heq
      simp at hc
    · exact ⟨.inr ⟨rfl, rfl⟩, fun _ => hquotes⟩
  · rintro ⟨hc | ⟨rfl, -⟩, hquotes⟩
    · exact .inl hc
    · exact .inr ⟨rfl, hquotes rfl⟩

theorem StringBody.iff_relaxed {mark : QuoteMark} {body : Bytes} :
    StringBody d mark body ↔
      StringBody d.relaxed mark body ∧ ('\''.ascii ∈ body.escaped → d.singleQuotes) := by
  constructor
  · intro h
    induction h with
    | nil => exact ⟨.nil, nofun⟩
    | plain hmark hb hcontrol _ ih =>
      rw [Bytes.escaped_of_ne hb]
      exact ⟨.plain hmark hb hcontrol ih.1, ih.2⟩
    | escape hc _ ih =>
      obtain ⟨hletter, hquotes⟩ := Dialect.escapeLetter_iff.mp hc
      rw [Bytes.escaped_backslash]
      exact ⟨.escape hletter ih.1, fun hmem => (List.mem_cons.mp hmem).elim hquotes ih.2⟩
    | unicode hhex _ ih =>
      rw [Bytes.escaped_backslash]
      exact ⟨.unicode hhex ih.1, fun hmem => ih.2 (List.mem_of_ne_of_mem (by decide) hmem)⟩
  · rintro ⟨h, hquotes⟩
    induction h with
    | nil => exact .nil
    | plain hmark hb hcontrol _ ih =>
      rw [Bytes.escaped_of_ne hb] at hquotes
      exact .plain hmark hb hcontrol (ih hquotes)
    | escape hc _ ih =>
      rw [Bytes.escaped_backslash] at hquotes
      have hletter := Dialect.escapeLetter_iff.mpr
        ⟨hc, fun heq => hquotes (List.mem_cons.mpr (.inl heq))⟩
      exact .escape hletter (ih fun hmem => hquotes (List.mem_cons_of_mem _ hmem))
    | unicode hhex _ ih =>
      rw [Bytes.escaped_backslash] at hquotes
      exact .unicode hhex (ih fun hmem => hquotes (List.mem_cons_of_mem _ hmem))

/-! ## Words -/

theorem Word.Has.ne_trailingCommas {w : Word} {r : Relaxation} (h : w.Has r) :
    r ≠ .trailingCommas := by
  cases h <;> nofun

/-- A word other than a string or an identifier is read by all dialects. -/
theorem Word.not_has {w : Word} (hkind : w.kind ≠ .identifier ∧ w.kind ≠ .string)
    (r : Relaxation) : ¬ w.Has r := by
  intro h
  cases h with
  | identifier h => exact hkind.1 h
  | singleQuoted h _ => exact hkind.2 h
  | apostrophe h _ => exact hkind.2 h

/-- What a string demands of a dialect. -/
theorem Word.string_enables_iff {mark : QuoteMark} {body : Bytes} {literal : Option Literal}
    (hbody : StringBody d.relaxed mark body) :
    (∀ r, (Word.mk .string (mark.char.ascii :: (body ++ [mark.char.ascii])) literal).Has r →
        d.enables r) ↔
      (mark = .single → d.singleQuotes) ∧ ('\''.ascii ∈ body.escaped → d.singleQuotes) := by
  have hescaped := hbody.escaped_marks
  constructor
  · intro h
    refine ⟨?_, fun hmem => ?_⟩
    · rintro rfl
      exact h _ (.singleQuoted rfl rfl)
    · exact h _ (.apostrophe rfl (by rwa [hescaped]))
  · rintro ⟨hmark, hquotes⟩ r hr
    cases hr with
    | identifier hkind => cases hkind
    | singleQuoted _ hhead =>
      cases mark with
      | single => exact hmark rfl
      | double =>
        have heq : '"'.ascii = '\''.ascii := Option.some.inj hhead
        exact absurd heq (by decide)
    | apostrophe _ hmem => exact hquotes (by rwa [hescaped] at hmem)

/-- A dialect has the words of the relaxed one that are no construct of a missing relaxation. -/
theorem IsWord.iff_relaxed {w : Word} {rest : Bytes} :
    IsWord d w rest ↔ IsWord d.relaxed w rest ∧ ∀ r, w.Has r → d.enables r := by
  constructor
  · intro h
    cases h with
    | punctuation hkind =>
      refine ⟨.punctuation hkind, fun r hr => absurd hr (Word.not_has ?_ r)⟩
      have hmem := Piece.kind_of_punctuation? hkind
      exact ⟨ne_of_mem_of_not_mem hmem (by decide), ne_of_mem_of_not_mem hmem (by decide)⟩
    | string hmark hbody =>
      obtain ⟨hbody', hquotes⟩ := StringBody.iff_relaxed.mp hbody
      exact ⟨.string (fun _ => rfl) hbody', (Word.string_enables_iff hbody').mpr ⟨hmark, hquotes⟩⟩
    | number hrange hends =>
      refine ⟨.number hrange hends, fun r hr => absurd hr (Word.not_has ?_ r)⟩
      exact ⟨Kind.noConfusion, Kind.noConfusion⟩
    | keyword hkind hends =>
      refine ⟨.keyword hkind hends, fun r hr => absurd hr (Word.not_has ?_ r)⟩
      have hmem := Piece.kind_of_keyword? hkind
      exact ⟨ne_of_mem_of_not_mem hmem (by decide), ne_of_mem_of_not_mem hmem (by decide)⟩
    | identifier hkeys hname hends =>
      refine ⟨.identifier rfl hname hends, fun r hr => ?_⟩
      cases hr with
      | identifier _ => exact hkeys
      | singleQuoted hkind _ => cases hkind
      | apostrophe hkind _ => cases hkind
  · rintro ⟨h, henables⟩
    cases h with
    | punctuation hkind => exact .punctuation hkind
    | string _ hbody =>
      obtain ⟨hmark, hquotes⟩ := (Word.string_enables_iff hbody).mp henables
      exact .string hmark (StringBody.iff_relaxed.mpr ⟨hbody, hquotes⟩)
    | number hrange hends => exact .number hrange hends
    | keyword hkind hends => exact .keyword hkind hends
    | identifier _ hname hends => exact .identifier (henables _ (.identifier rfl)) hname hends

/-! ## Gaps -/

theorem Bytes.isBlank_append {bs bs' : Bytes} :
    Bytes.IsBlank (bs ++ bs') ↔ Bytes.IsBlank bs ∧ Bytes.IsBlank bs' :=
  List.forall_mem_append

theorem Bytes.not_isBlank_slash (bs : Bytes) : ¬ Bytes.IsBlank ('/'.ascii :: bs) := by
  intro h
  obtain ⟨c, hc, heq⟩ := h _ List.mem_cons_self
  cases (ascii_inj (by decide) (Piece.lt_of_isSpace hc)).mp heq
  cases hc

theorem GapPiece.iff_relaxed {piece rest : Bytes} :
    GapPiece d piece rest ↔ GapPiece d.relaxed piece rest ∧ (¬ piece.IsBlank → d.comments) := by
  constructor
  · intro h
    cases h with
    | @space c _ hc =>
      have hblank : Bytes.IsBlank [c.ascii] := by
        intro b hb
        exact ⟨c, hc, List.mem_singleton.mp hb⟩
      exact ⟨.space hc, fun hnot => absurd hblank hnot⟩
    | line hd hbody hrest => exact ⟨.line rfl hbody hrest, fun _ => hd⟩
    | block hd hbody => exact ⟨.block rfl hbody, fun _ => hd⟩
  · rintro ⟨h, hcomments⟩
    cases h with
    | space hc => exact .space hc
    | line _ hbody hrest => exact .line (hcomments (Bytes.not_isBlank_slash _)) hbody hrest
    | block _ hbody => exact .block (hcomments (Bytes.not_isBlank_slash _)) hbody

theorem Gap.iff_relaxed {gap rest : Bytes} :
    Gap d gap rest ↔ Gap d.relaxed gap rest ∧ (¬ gap.IsBlank → d.comments) := by
  constructor
  · intro h
    induction h with
    | nil => exact ⟨.nil, fun hnot => absurd nofun hnot⟩
    | cons hpiece _ ih =>
      obtain ⟨hpiece', hcomments⟩ := GapPiece.iff_relaxed.mp hpiece
      refine ⟨.cons hpiece' ih.1, fun hnot => ?_⟩
      rw [Bytes.isBlank_append, not_and_or] at hnot
      exact hnot.elim hcomments ih.2
  · rintro ⟨h, hcomments⟩
    induction h with
    | nil => exact .nil
    | cons hpiece _ ih =>
      rw [Bytes.isBlank_append, not_and_or] at hcomments
      exact .cons (GapPiece.iff_relaxed.mpr ⟨hpiece, fun hnot => hcomments (.inl hnot)⟩)
        (ih fun hnot => hcomments (.inr hnot))

/-! ## Layouts -/

namespace Layout

theorem wordsFit_iff_relaxed {words : List (Word × Bytes)} :
    WordsFit d words ↔
      WordsFit d.relaxed words ∧ (∀ w ∈ words.map Prod.fst, ∀ r, w.Has r → d.enables r) ∧
        ∀ gap ∈ words.map Prod.snd, ¬ gap.IsBlank → d.comments := by
  induction words with
  | nil => simp [WordsFit]
  | cons w words ih =>
    obtain ⟨w, gap⟩ := w
    rw [WordsFit, ih, IsWord.iff_relaxed, Gap.iff_relaxed, WordsFit, List.map_cons, List.map_cons,
      List.forall_mem_cons, List.forall_mem_cons]
    tauto

/-- A dialect has the layouts of the relaxed one that have no construct of a missing relaxation.
    Trailing commas do not matter: they are made of words that all dialects have. -/
theorem fits_iff {L : Layout} :
    L.Fits d ↔ L.Fits d.relaxed ∧ ∀ r, r ≠ .trailingCommas → L.Has r → d.enables r := by
  constructor
  · rintro ⟨hlead, hwords⟩
    obtain ⟨hlead', hleadComments⟩ := Gap.iff_relaxed.mp hlead
    obtain ⟨hwords', henables, hcomments⟩ := wordsFit_iff_relaxed.mp hwords
    refine ⟨⟨hlead', hwords'⟩, fun r hr hhas => ?_⟩
    cases hhas with
    | word hw hhas => exact henables _ hw r hhas
    | comment hgap hblank =>
      rcases List.mem_cons.mp hgap with rfl | hgap
      · exact hleadComments hblank
      · exact hcomments _ hgap hblank
    | trailingComma _ _ => exact absurd rfl hr
  · rintro ⟨⟨hlead, hwords⟩, henables⟩
    have hcomments : ∀ gap ∈ L.gaps, ¬ gap.IsBlank → d.comments := by
      intro gap hgap hblank
      exact henables .comments (by decide) (.comment hgap hblank)
    refine ⟨Gap.iff_relaxed.mpr ⟨hlead, hcomments _ List.mem_cons_self⟩,
      wordsFit_iff_relaxed.mpr ⟨hwords, ?_, ?_⟩⟩
    · intro w hw r hhas
      exact henables r hhas.ne_trailingCommas (.word hw hhas)
    · intro gap hgap
      exact hcomments gap (List.mem_cons_of_mem _ hgap)

/-! ## Uniqueness -/

theorem length_tokensFrom (d : Dialect) (before : Bytes) (words : List (Word × Bytes)) :
    (tokensFrom d before words).length = words.length + 1 := by
  induction words generalizing before with
  | nil => rfl
  | cons w words ih => rw [tokensFrom, List.length_cons, ih, List.length_cons]

/-- The places of the tokens tell how a text is laid out. -/
theorem tokensFrom_inj {before before' : Bytes} {words words' : List (Word × Bytes)}
    (htokens : tokensFrom d before words = tokensFrom d before' words')
    (htext : before ++ Word.spell words = before' ++ Word.spell words') :
    before = before' ∧ words = words' := by
  have hlength := congrArg List.length htokens
  rw [length_tokensFrom, length_tokensFrom] at hlength
  induction words generalizing before before' words' with
  | nil =>
    cases words' with
    | nil => simpa [Word.spell] using htext
    | cons w' words' => simp at hlength
  | cons w words ih =>
    cases words' with
    | nil => simp at hlength
    | cons w' words' =>
      obtain ⟨⟨kind, text, literal⟩, gap⟩ := w
      obtain ⟨⟨kind', text', literal'⟩, gap'⟩ := w'
      simp only [tokensFrom, List.cons.injEq] at htokens
      obtain ⟨htoken, hmore⟩ := htokens
      simp only [token, Token.mk.injEq, Location.mk.injEq, Span.mk.injEq] at htoken
      -- The offset of a token fixes the text in front of it, and so the gap behind the word before.
      obtain ⟨rfl, rfl, ⟨⟨hbefore, -⟩, -⟩, rfl⟩ := htoken
      obtain ⟨hfront, rfl⟩ := ih hmore (by simpa [Word.spell] using htext) (by simpa using hlength)
      obtain ⟨rfl, hgap⟩ := List.append_inj hfront (Int.ofNat.inj hbefore)
      cases List.append_cancel_left hgap
      exact ⟨rfl, rfl⟩

/-- A text is laid out in one way only. -/
theorem eq_of_text_eq {L L' : Layout} (hL : L.Fits d) (hL' : L'.Fits d) (htext : L.text = L'.text) :
    L = L' := by
  have htokens : L.tokens d = L'.tokens d := by
    have hscan := Token.scan_of_layout hL
    rw [htext, Token.scan_of_layout hL'] at hscan
    exact (Except.ok.inj hscan).symm
  obtain ⟨lead, words⟩ := L
  obtain ⟨lead', words'⟩ := L'
  obtain ⟨rfl, rfl⟩ := tokensFrom_inj htokens htext
  rfl

theorem tokensFrom_relaxed (before : Bytes) (words : List (Word × Bytes)) :
    tokensFrom d.relaxed before words = tokensFrom d before words := by
  induction words generalizing before with
  | nil => rfl
  | cons w words ih =>
    rw [tokensFrom, tokensFrom, ih]
    rfl

/-- Relaxations do not move the tokens. -/
theorem tokens_relaxed (L : Layout) : L.tokens d.relaxed = L.tokens d :=
  tokensFrom_relaxed L.lead L.words

end Layout

end RelaxedJson
