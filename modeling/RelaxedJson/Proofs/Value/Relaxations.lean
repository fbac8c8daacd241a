-- SUMMARY: Each relaxation admits its own constructs and changes nothing else.
import RelaxedJson.Proofs.Grammar.Acceptance
import RelaxedJson.Proofs.Lexical.Relaxations
import Mathlib.Data.List.Chain

/-!
# Relaxations

A dialect gives a text the value that it has under all relaxations, provided that it has the
relaxations of all constructs of the text, and no value otherwise (`Value.parse_eq_ok_iff_relaxed`).
Trailing commas are the one construct that the scanner lets pass. They are found again in the
derivation of the value: a comma is trailing there exactly if a closing bracket is the next token
(`Tree.hasTrailingComma_iff`).
-/

namespace RelaxedJson

/-! ## Trailing commas -/

/-- A kind of token may follow another without a trailing comma. -/
def Kind.MayPrecede (k k' : Kind) : Prop :=
  ¬ (k = .comma ∧ (k' = .rightBrace ∨ k' = .rightBracket))

namespace Kind

theorem isChain_cons_of_ne {k : Kind} (hk : k ≠ .comma) (ks : List Kind) :
    (k :: ks).IsChain MayPrecede ↔ ks.IsChain MayPrecede := by
  rw [List.isChain_cons]
  exact and_iff_right fun _ _ hcomma => hk hcomma.1

theorem isChain_comma_cons {k : Kind} (hk : k ≠ .rightBrace ∧ k ≠ .rightBracket) (ks : List Kind) :
    (.comma :: k :: ks).IsChain MayPrecede ↔ (k :: ks).IsChain MayPrecede := by
  rw [List.isChain_cons_cons]
  exact and_iff_right fun hcomma => hcomma.2.elim hk.1 hk.2

theorem not_isChain_iff {ks : List Kind} :
    ¬ ks.IsChain MayPrecede ↔
      ∃ closing, (closing = .rightBrace ∨ closing = .rightBracket) ∧ [.comma, closing] <:+: ks := by
  rw [List.isChain_iff_forall_rel_of_append_cons_cons]
  constructor
  · intro h
    simp only [not_forall, MayPrecede, not_not] at h
    obtain ⟨_, closing, front, rest, rfl, rfl, hclosing⟩ := h
    exact ⟨closing, hclosing, front, rest, by simp⟩
  · rintro ⟨closing, hclosing, front, rest, rfl⟩ h
    have hks : front ++ [.comma, closing] ++ rest = front ++ .comma :: closing :: rest := by simp
    exact h hks ⟨rfl, hclosing⟩

end Kind

/-- A derivation does not start with a closing bracket. -/
theorem Tree.exists_first (T : Tree) :
    ∃ t ts, T.tokens = t :: ts ∧ t.kind ≠ .rightBrace ∧ t.kind ≠ .rightBracket := by
  cases T with
  | scalar s => exact ⟨s.token, [], rfl, s.kind_ne fun _ => rfl, s.kind_ne fun _ => rfl⟩
  | emptyArray l r => exact ⟨l, _, rfl, by simp [l.property]⟩
  | array l first rest r => exact ⟨l, _, rfl, by simp [l.property]⟩
  | emptyObject l r => exact ⟨l, _, rfl, by simp [l.property]⟩
  | object l key colon first rest r => exact ⟨l, _, rfl, by simp [l.property]⟩

/-- A derivation does not end with a comma. -/
theorem Tree.exists_last (T : Tree) : ∃ ts t, T.tokens = ts ++ [t] ∧ t.kind ≠ .comma := by
  cases T with
  | scalar s => exact ⟨[], s.token, rfl, s.kind_ne fun _ => rfl⟩
  | emptyArray l r => exact ⟨[l.val], r, rfl, by simp [r.property]⟩
  | array l first rest r =>
    exact ⟨l :: (first.tokens ++ rest.tokens), r, by simp [Tree.tokens], by simp [r.property]⟩
  | emptyObject l r => exact ⟨[l.val], r, rfl, by simp [r.property]⟩
  | object l key colon first rest r =>
    exact ⟨l :: key.token :: colon :: (first.tokens ++ rest.tokens), r, by simp [Tree.tokens],
      by simp [r.property]⟩

/-- No comma is trailing in a token sequence. -/
def Token.Separated (ts : List Token) : Prop :=
  (ts.map Token.kind).IsChain Kind.MayPrecede

namespace Token

theorem separated_terminal_cons {k : Kind} (hk : k ≠ .comma) (t : Terminal k) (ts : List Token) :
    Separated (t :: ts) ↔ Separated ts := by
  refine Kind.isChain_cons_of_ne ?_ _
  rw [t.property]
  exact hk

theorem separated_key_cons (key : Key) (ts : List Token) :
    Separated (key.token :: ts) ↔ Separated ts :=
  Kind.isChain_cons_of_ne (key.kind_ne (by decide) (by decide)) _

/-- A comma is not trailing in front of a token that is no closing bracket. -/
theorem separated_comma_cons (comma : Terminal .comma) {t : Token}
    (ht : t.kind ≠ .rightBrace ∧ t.kind ≠ .rightBracket) (ts : List Token) :
    Separated (comma :: t :: ts) ↔ Separated (t :: ts) := by
  simp only [Separated, List.map_cons, comma.property]
  exact Kind.isChain_comma_cons ht _

theorem separated_comma_tree (comma : Terminal .comma) (T : Tree) (ts : List Token) :
    Separated (comma :: (T.tokens ++ ts)) ↔ Separated (T.tokens ++ ts) := by
  obtain ⟨t, ts', htokens, ht⟩ := T.exists_first
  rw [htokens]
  exact separated_comma_cons comma ht _

theorem separated_tree_append (T : Tree) (ts : List Token) :
    Separated (T.tokens ++ ts) ↔ Separated T.tokens ∧ Separated ts := by
  obtain ⟨ts', t, htokens, ht⟩ := T.exists_last
  unfold Separated
  rw [List.map_append, List.isChain_append]
  refine and_congr_right fun _ => and_iff_left fun k hk k' _ hcomma => ht ?_
  rw [htokens, List.map_append, List.map_singleton, List.getLast?_concat] at hk
  rw [Option.some.inj hk]
  exact hcomma.1

end Token

-- A tail is taken together with the closing bracket: without it a trailing comma does not show.
mutual

theorem Tree.separated_iff (T : Tree) :
    Token.Separated T.tokens ↔ T.hasTrailingComma = false := by
  cases T with
  | scalar s => simp [Tree.tokens, Tree.hasTrailingComma, Token.Separated]
  | emptyArray l r =>
    rw [Tree.tokens, Token.separated_terminal_cons (by decide)]
    simp [Tree.hasTrailingComma, Token.Separated]
  | array l first rest r =>
    rw [Tree.tokens, Token.separated_terminal_cons (by decide), Token.separated_tree_append,
      Tree.separated_iff first, ElementsTail.separated_iff rest r, Tree.hasTrailingComma,
      Bool.or_eq_false_iff]
  | emptyObject l r =>
    rw [Tree.tokens, Token.separated_terminal_cons (by decide)]
    simp [Tree.hasTrailingComma, Token.Separated]
  | object l key colon first rest r =>
    rw [Tree.tokens, Token.separated_terminal_cons (by decide), Token.separated_key_cons,
      Token.separated_terminal_cons (by decide), Token.separated_tree_append,
      Tree.separated_iff first, MembersTail.separated_iff rest r, Tree.hasTrailingComma,
      Bool.or_eq_false_iff]

theorem ElementsTail.separated_iff (E : ElementsTail) (r : Terminal .rightBracket) :
    Token.Separated (E.tokens ++ [r.val]) ↔ E.hasTrailingComma = false := by
  cases E with
  | done => simp [ElementsTail.tokens, ElementsTail.hasTrailingComma, Token.Separated]
  | trailing comma =>
    simp [ElementsTail.tokens, ElementsTail.hasTrailingComma, Token.Separated, Kind.MayPrecede,
      comma.property, r.property]
  | next comma element rest =>
    rw [ElementsTail.tokens, List.cons_append, List.append_assoc, Token.separated_comma_tree,
      Token.separated_tree_append, Tree.separated_iff element, ElementsTail.separated_iff rest r,
      ElementsTail.hasTrailingComma, Bool.or_eq_false_iff]

theorem MembersTail.separated_iff (M : MembersTail) (r : Terminal .rightBrace) :
    Token.Separated (M.tokens ++ [r.val]) ↔ M.hasTrailingComma = false := by
  cases M with
  | done => simp [MembersTail.tokens, MembersTail.hasTrailingComma, Token.Separated]
  | trailing comma =>
    simp [MembersTail.tokens, MembersTail.hasTrailingComma, Token.Separated, Kind.MayPrecede,
      comma.property, r.property]
  | next comma key colon value rest =>
    have hkey : key.token.kind ≠ .rightBrace ∧ key.token.kind ≠ .rightBracket :=
      ⟨key.kind_ne (by decide) (by decide), key.kind_ne (by decide) (by decide)⟩
    rw [MembersTail.tokens, List.cons_append, List.cons_append, List.cons_append,
      List.append_assoc, Token.separated_comma_cons comma hkey, Token.separated_key_cons,
      Token.separated_terminal_cons (by decide), Token.separated_tree_append,
      Tree.separated_iff value, MembersTail.separated_iff rest r,
      MembersTail.hasTrailingComma, Bool.or_eq_false_iff]

end

/-- A comma is trailing exactly if a closing bracket is the next token. -/
theorem Tree.hasTrailingComma_iff (T : Tree) :
    T.hasTrailingComma = true ↔
      ∃ closing, (closing = .rightBrace ∨ closing = .rightBracket) ∧
        [.comma, closing] <:+: T.tokens.map Token.kind := by
  rw [← Kind.not_isChain_iff, ← Bool.not_eq_false, ← T.separated_iff]
  rfl

/-! ## Texts -/

variable {d : Dialect}

/-- The tokens in front of the end of input are the words. -/
theorem Layout.map_kind_body {L : Layout} (hL : L.Fits d) :
    (Token.body (L.tokens d)).map Token.kind = L.words.map (·.1.kind) := by
  obtain ⟨lead, words⟩ := L
  have hwords := hL.words
  simp only [tokens] at hwords ⊢
  clear hL
  induction words generalizing lead with
  | nil => rfl
  | cons w words ih =>
    obtain ⟨hw, -, hmore⟩ := hwords
    have hkind : (token d lead w.1).kind ≠ .endOfInput := hw.kind_ne_end
    rw [tokensFrom, Token.body, List.takeWhile_cons_of_pos (by simpa using hkind), List.map_cons,
      List.map_cons, ← Token.body, ih _ hmore]
    rfl

/-- A parsed text is laid out in the dialect, and its words have an acceptable derivation. -/
theorem Value.parse_iff_layout {text : Bytes} {v : Value} :
    parse d text = .ok v ↔
      ∃ (L : Layout) (T : Tree), L.Fits d ∧ L.text = text ∧ T.Accepted d ∧
        T.tokens = Token.body (L.tokens d) ∧ T.value = v := by
  constructor
  · intro h
    obtain ⟨ts, T, hscan, hT, hbody, hvalue⟩ := tree_of_parse h
    obtain ⟨L, hL, htext, rfl⟩ := Token.layout_of_scan hscan
    exact ⟨L, T, hL, htext, hT, hbody, hvalue⟩
  · rintro ⟨L, T, hL, rfl, hT, hbody, rfl⟩
    exact parse_of_tree (Token.scan_of_layout hL) hT hbody

theorem Tree.accepted_iff_relaxed {T : Tree} :
    T.Accepted d ↔ T.Accepted d.relaxed ∧ (T.hasTrailingComma → d.trailingCommas) := by
  constructor
  · rintro ⟨htrailing, hkeys, hdepth⟩
    exact ⟨⟨fun _ => rfl, hkeys, hdepth⟩, htrailing⟩
  · rintro ⟨⟨-, hkeys, hdepth⟩, htrailing⟩
    exact ⟨htrailing, hkeys, hdepth⟩

/-- Trailing commas among the words of a text are those of its derivation. -/
theorem Layout.has_trailingCommas_iff {L : Layout} {T : Tree} (hL : L.Fits d)
    (hbody : T.tokens = Token.body (L.tokens d)) :
    L.Has .trailingCommas ↔ T.hasTrailingComma = true := by
  rw [T.hasTrailingComma_iff, hbody, map_kind_body hL]
  constructor
  · intro h
    cases h with
    | word _ hw => exact absurd rfl hw.ne_trailingCommas
    | trailingComma hclosing hinfix => exact ⟨_, hclosing, hinfix⟩
  · rintro ⟨closing, hclosing, hinfix⟩
    exact .trailingComma hclosing hinfix

/-- A dialect takes a text and its derivation if the relaxed one does and it has the relaxations of
    all constructs. -/
theorem Layout.fits_and_accepted_iff {L : Layout} {T : Tree}
    (hbody : T.tokens = Token.body (L.tokens d)) :
    L.Fits d ∧ T.Accepted d ↔
      (L.Fits d.relaxed ∧ T.Accepted d.relaxed) ∧ ∀ r, L.Has r → d.enables r := by
  rw [← L.tokens_relaxed] at hbody
  rw [fits_iff, Tree.accepted_iff_relaxed]
  constructor
  · rintro ⟨⟨hL, hlexical⟩, hT, htrailing⟩
    refine ⟨⟨hL, hT⟩, fun r hr => ?_⟩
    by_cases hcomma : r = .trailingCommas
    · subst hcomma
      exact htrailing ((has_trailingCommas_iff hL hbody).mp hr)
    · exact hlexical r hcomma hr
  · rintro ⟨⟨hL, hT⟩, henables⟩
    refine ⟨⟨hL, fun r _ => henables r⟩, hT, fun htrailing => ?_⟩
    exact henables .trailingCommas ((has_trailingCommas_iff hL hbody).mpr htrailing)

namespace Value

/-- A text has a value if it has the value under all relaxations, and the dialect has the
    relaxations of all constructs of the text. -/
theorem parse_eq_ok_iff_relaxed (d : Dialect) (text : Bytes) (v : Value) :
    parse d text = .ok v ↔
      parse d.relaxed text = .ok v ∧ ∀ r, d.relaxed.Finds text r → d.enables r := by
  rw [parse_iff_layout, parse_iff_layout]
  constructor
  · rintro ⟨L, T, hL, htext, hT, hbody, hvalue⟩
    obtain ⟨⟨hL', hT'⟩, henables⟩ := (Layout.fits_and_accepted_iff hbody).mp ⟨hL, hT⟩
    refine ⟨⟨L, T, hL', htext, hT', by rw [hbody, L.tokens_relaxed], hvalue⟩, ?_⟩
    -- The construct is found in some layout of the text, but there is only one.
    rintro r ⟨L', hfits, htext', hr⟩
    cases Layout.eq_of_text_eq hfits hL' (htext'.trans htext.symm)
    exact henables r hr
  · rintro ⟨⟨L, T, hL, htext, hT, hbody, hvalue⟩, henables⟩
    rw [L.tokens_relaxed] at hbody
    obtain ⟨hL', hT'⟩ := (Layout.fits_and_accepted_iff hbody).mpr
      ⟨⟨hL, hT⟩, fun r hr => henables r ⟨L, hL, htext, hr⟩⟩
    exact ⟨L, T, hL', htext, hT', hbody, hvalue⟩

/-- Each relaxation admits its own constructs and nothing else. So a dialect with more relaxations
    and the same limits takes more texts, and gives those that it took before the same values. -/
theorem parse_relaxations (d : Dialect) (text : Bytes) (v : Value) :
    (parse d text = .ok v ↔
      parse d.relaxed text = .ok v ∧ ∀ r, d.relaxed.Finds text r → d.enables r) ∧
    ∀ d' : Dialect, d'.relaxed = d.relaxed → (∀ r, d.enables r → d'.enables r) →
      parse d text = .ok v → parse d' text = .ok v := by
  refine ⟨parse_eq_ok_iff_relaxed d text v, fun d' hlimits hmore h => ?_⟩
  obtain ⟨hvalue, henables⟩ := (parse_eq_ok_iff_relaxed d text v).mp h
  rw [parse_eq_ok_iff_relaxed, hlimits]
  exact ⟨hvalue, fun r hr => hmore r (henables r hr)⟩

/-- The comma is the only relaxed construct of the text: the slashes and the apostrophe stand in a
    string. -/
theorem parse_relaxations_trailingComma :
    let text := "[\"//'\",]".utf8
    let v : Value := .array [.string "//'".utf8]
    let d : Dialect := { Dialect.strict with trailingCommas := true }
    parse d text = .ok v ∧ parse .permissive text = .ok v ∧
      ∀ r, d.relaxed.Finds text r ↔ r = .trailingCommas := by
  intro text v d
  have hvalue : parse d text = .ok v := by cbv
  have hstrict : parse .strict text ≠ .ok v := by
    cbv
    simp
  obtain ⟨hiff, hmore⟩ := parse_relaxations d text v
  have hpermissive : parse .permissive text = .ok v := by
    refine hmore .permissive rfl (fun r _ => ?_) hvalue
    cases r <;> rfl
  have honly : ∀ r, d.relaxed.Finds text r → r = .trailingCommas := by
    intro r hr
    have henables := (hiff.mp hvalue).2 r hr
    cases r with
    | trailingCommas => rfl
    | unquotedKeys | singleQuotes | comments => cases henables
  -- Strict JSON refuses the text, so there is a construct to be found.
  refine ⟨hvalue, hpermissive, fun r => ⟨honly r, ?_⟩⟩
  rintro rfl
  by_contra hnone
  refine hstrict ((parse_relaxations .strict text v).1.mpr ⟨hpermissive, fun r hr => ?_⟩)
  exact absurd (honly r hr ▸ hr) hnone

end Value

end RelaxedJson
