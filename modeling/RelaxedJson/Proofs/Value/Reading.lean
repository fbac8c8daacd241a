-- SUMMARY: What is read from a text: finite numbers, and well-formed strings and keys if the text is so.
import RelaxedJson.Proofs.Grammar.Tree
import RelaxedJson.Proofs.Lexical.Scanning
import RelaxedJson.Proofs.Number.Rounding

/-!
# Reading values

The numbers of a text are finite. A well-formed text stays well-formed where it is cut into gaps and
words, and so do the texts that its strings stand for. So all that ends up in the value of a
derivation can be written again (`Tree.all_writable`).
-/

namespace RelaxedJson

/-! ## Tokens -/

/-- The text and the literal of a token are well-formed and finite. -/
structure Token.Clean (t : Token) : Prop where
  lexeme : t.lexeme.isUtf8
  string : ∀ s, t.literal = some (.string s) → s.isUtf8
  number : ∀ x, t.literal = some (.number x) → x.isFinite

theorem Gap.isUtf8_rest {d : Dialect} {gap rest : Bytes} (hgap : Gap d gap rest)
    (h : Bytes.isUtf8 (gap ++ rest)) : rest.isUtf8 := by
  induction hgap with
  | nil => exact h
  | cons hpiece _ ih =>
    rw [List.append_assoc] at h
    exact ih (hpiece.isUtf8_rest h)

theorem Binary64.isFinite_of_ofNumeral {n : Numeral} {x : Binary64}
    (h : Binary64.ofNumeral n.chars = .ok x) : x.isFinite := by
  rw [n.ofNumeral_chars] at h
  cases hvalue : n.decimal.toBinary64? with
  | none =>
    rw [hvalue] at h
    cases h
  | some y =>
    rw [hvalue] at h
    cases h
    exact Decimal.isFinite_of_toBinary64? hvalue

theorem Token.Clean.of_literal_none {t : Token} (h : t.lexeme.isUtf8) (hnone : t.literal = none) :
    t.Clean := by
  constructor
  · exact h
  · intro s hs
    rw [hnone] at hs
    cases hs
  · intro x hx
    rw [hnone] at hx
    cases hx

/-- A number that the token carries is finite. -/
def Token.FiniteLiteral (t : Token) : Prop :=
  ∀ x, t.literal = some (.number x) → x.isFinite

theorem IsWord.finiteLiteral {d : Dialect} {w : Word} {rest : Bytes} (hw : IsWord d w rest)
    (before : Bytes) : (Layout.token d before w).FiniteLiteral := by
  intro x hx
  cases hw with
  | punctuation _ => cases hx
  | keyword _ _ => cases hx
  | identifier _ _ _ => cases hx
  | @string mark body _ _ hbody =>
    obtain ⟨text, htext, -⟩ := Escape.unescape_of_body hbody
    simp only [Layout.token, htext, Except.toOption, Option.map_some] at hx
    cases hx
  | @number n _ _ _ =>
    cases hvalue : Binary64.ofNumeral n.chars with
    | error e => simp [Layout.token, hvalue, Except.toOption] at hx
    | ok y =>
      simp only [Layout.token, hvalue, Except.toOption, Option.map_some, Option.some.injEq,
        Literal.number.injEq] at hx
      exact hx ▸ Binary64.isFinite_of_ofNumeral hvalue

/-- A word of a well-formed text is a clean token. -/
theorem IsWord.clean {d : Dialect} {w : Word} {rest : Bytes} (hw : IsWord d w rest)
    (h : w.text.isUtf8) (before : Bytes) : (Layout.token d before w).Clean := by
  refine ⟨h, fun s hs => ?_, hw.finiteLiteral before⟩
  cases hw with
  | punctuation _ => cases hs
  | keyword _ _ => cases hs
  | identifier _ _ _ => cases hs
  | @string mark body _ _ hbody =>
    obtain ⟨text, htext, hutf8⟩ := Escape.unescape_of_body hbody
    simp only [Layout.token, htext, Except.toOption, Option.map_some] at hs
    cases hs
    exact hutf8 (Escape.isUtf8_of_marks h)
  | @number n _ _ _ =>
    cases hvalue : Binary64.ofNumeral n.chars with
    | error e => simp [Layout.token, hvalue, Except.toOption] at hs
    | ok y => simp [Layout.token, hvalue, Except.toOption] at hs

theorem Layout.clean_of_mem_tokensFrom {d : Dialect} {words : List (Word × Bytes)}
    (hfit : Layout.WordsFit d words) (h : (Word.spell words).isUtf8) (before : Bytes) {t : Token}
    (ht : t ∈ Layout.tokensFrom d before words) : t.Clean := by
  induction words generalizing before with
  | nil =>
    rw [tokensFrom, List.mem_singleton] at ht
    rw [ht]
    exact .of_literal_none h rfl
  | cons w words ih =>
    obtain ⟨hword, hgap, hwords⟩ := hfit
    obtain ⟨htext, hrest⟩ := hword.isUtf8 h
    rw [tokensFrom] at ht
    rcases List.mem_cons.mp ht with rfl | ht
    · exact hword.clean htext before
    · exact ih hwords (hgap.isUtf8_rest hrest) _ ht

/-- The tokens of a well-formed text are clean. -/
theorem Token.clean_of_mem_scan {d : Dialect} {text : Bytes} {ts : List Token} (h : text.isUtf8)
    (hscan : Token.scan d text = .ok ts) {t : Token} (ht : t ∈ ts) : t.Clean := by
  obtain ⟨L, hL, rfl, rfl⟩ := layout_of_scan hscan
  exact Layout.clean_of_mem_tokensFrom hL.words (hL.lead.isUtf8_rest h) L.lead ht

/-- The tokens of any text carry finite numbers. -/
theorem Token.finiteLiteral_of_mem_scan {d : Dialect} {text : Bytes} {ts : List Token}
    (hscan : Token.scan d text = .ok ts) {t : Token} (ht : t ∈ ts) : t.FiniteLiteral := by
  obtain ⟨before, w, rest, -, rfl, hw | ⟨rfl, -⟩⟩ := exists_of_mem_scan hscan ht
  · exact hw.finiteLiteral before
  · exact nofun

/-! ## Derivations -/

theorem Scalar.all_writable (s : Scalar) (h : s.token.Clean) : s.value.All Value.Writable := by
  obtain ⟨t, v, hv⟩ := s
  unfold Token.value? at hv
  split at hv
  · cases hv
    exact ⟨trivial, trivial⟩
  · cases hv
    exact ⟨trivial, trivial⟩
  · cases hv
    exact ⟨trivial, trivial⟩
  · rename_i hliteral
    cases hv
    exact ⟨trivial, h.string _ hliteral⟩
  · rename_i hliteral
    cases hv
    exact ⟨h.number _ hliteral, trivial⟩
  · cases hv

theorem Scalar.all_finiteNumber (s : Scalar) (h : s.token.FiniteLiteral) :
    s.value.All Value.FiniteNumber := by
  obtain ⟨t, v, hv⟩ := s
  unfold Token.value? at hv
  split at hv
  · cases hv
    trivial
  · cases hv
    trivial
  · cases hv
    trivial
  · cases hv
    trivial
  · rename_i hliteral
    cases hv
    exact h _ hliteral
  · cases hv

theorem Key.isUtf8_text (k : Key) (h : k.token.Clean) : k.text.isUtf8 := by
  obtain ⟨t, text, hk⟩ := k
  unfold Token.key? at hk
  split at hk
  · cases hk
    exact h.lexeme
  · rename_i hliteral
    cases hk
    exact h.string _ hliteral
  · cases hk

mutual

/-- What holds of the scalars and keys among the tokens of a derivation holds everywhere in its
    value. -/
theorem Tree.all_of_tokens {p : Value → Prop} {q : Bytes → Prop} (harray : ∀ vs, p (.array vs))
    (hobject : ∀ ms : List (Bytes × Value), (∀ m ∈ ms, q m.1) → p (.object ms)) (T : Tree)
    (hscalar : ∀ s : Scalar, s.token ∈ T.tokens → s.value.All p)
    (hkey : ∀ k : Key, k.token ∈ T.tokens → q k.text) : T.value.All p := by
  match T with
  | .scalar s => exact hscalar s List.mem_cons_self
  | .emptyArray _ _ => exact ⟨harray [], trivial⟩
  | .emptyObject _ _ => exact ⟨hobject [] nofun, trivial⟩
  | .array _ first rest _ =>
    simp only [Tree.tokens, List.mem_cons, List.mem_append] at hscalar hkey
    refine ⟨harray _, first.all_of_tokens harray hobject ?_ ?_,
      rest.all_of_tokens harray hobject ?_ ?_⟩
    · exact fun s hs => hscalar s (.inr (.inl hs))
    · exact fun k hk => hkey k (.inr (.inl hk))
    · exact fun s hs => hscalar s (.inr (.inr (.inl hs)))
    · exact fun k hk => hkey k (.inr (.inr (.inl hk)))
  | .object _ key _ first rest _ =>
    simp only [Tree.tokens, List.mem_cons, List.mem_append] at hscalar hkey
    have hfirst := first.all_of_tokens harray hobject
      (fun s hs => hscalar s (.inr (.inr (.inr (.inl hs)))))
      (fun k hk => hkey k (.inr (.inr (.inr (.inl hk)))))
    have hrest := rest.all_of_tokens harray hobject
      (fun s hs => hscalar s (.inr (.inr (.inr (.inr (.inl hs))))))
      (fun k hk => hkey k (.inr (.inr (.inr (.inr (.inl hk))))))
    exact ⟨hobject _ (List.forall_mem_cons.mpr ⟨hkey key (.inr (.inl rfl)), hrest.1⟩), hfirst,
      hrest.2⟩

theorem ElementsTail.all_of_tokens {p : Value → Prop} {q : Bytes → Prop}
    (harray : ∀ vs, p (.array vs))
    (hobject : ∀ ms : List (Bytes × Value), (∀ m ∈ ms, q m.1) → p (.object ms)) (E : ElementsTail)
    (hscalar : ∀ s : Scalar, s.token ∈ E.tokens → s.value.All p)
    (hkey : ∀ k : Key, k.token ∈ E.tokens → q k.text) : Value.AllElements p E.values := by
  match E with
  | .done => trivial
  | .trailing _ => trivial
  | .next _ element rest =>
    simp only [ElementsTail.tokens, List.mem_cons, List.mem_append] at hscalar hkey
    refine ⟨element.all_of_tokens harray hobject ?_ ?_, rest.all_of_tokens harray hobject ?_ ?_⟩
    · exact fun s hs => hscalar s (.inr (.inl hs))
    · exact fun k hk => hkey k (.inr (.inl hk))
    · exact fun s hs => hscalar s (.inr (.inr hs))
    · exact fun k hk => hkey k (.inr (.inr hk))

theorem MembersTail.all_of_tokens {p : Value → Prop} {q : Bytes → Prop}
    (harray : ∀ vs, p (.array vs))
    (hobject : ∀ ms : List (Bytes × Value), (∀ m ∈ ms, q m.1) → p (.object ms)) (M : MembersTail)
    (hscalar : ∀ s : Scalar, s.token ∈ M.tokens → s.value.All p)
    (hkey : ∀ k : Key, k.token ∈ M.tokens → q k.text) :
    (∀ m ∈ M.members, q m.1) ∧ Value.AllMembers p M.members := by
  match M with
  | .done => exact ⟨nofun, trivial⟩
  | .trailing _ => exact ⟨nofun, trivial⟩
  | .next _ key _ value rest =>
    simp only [MembersTail.tokens, List.mem_cons, List.mem_append] at hscalar hkey
    have hvalue := value.all_of_tokens harray hobject
      (fun s hs => hscalar s (.inr (.inr (.inr (.inl hs)))))
      (fun k hk => hkey k (.inr (.inr (.inr (.inl hk)))))
    have hrest := rest.all_of_tokens harray hobject
      (fun s hs => hscalar s (.inr (.inr (.inr (.inr hs)))))
      (fun k hk => hkey k (.inr (.inr (.inr (.inr hk)))))
    exact ⟨List.forall_mem_cons.mpr ⟨hkey key (.inr (.inl rfl)), hrest.1⟩, hvalue, hrest.2⟩

end

/-- All that a derivation takes from clean tokens can be written again. -/
theorem Tree.all_writable (T : Tree) (h : ∀ t ∈ T.tokens, t.Clean) : T.value.All Value.Writable := by
  apply T.all_of_tokens (q := fun k => k.isUtf8)
  · exact fun vs => ⟨trivial, trivial⟩
  · exact fun ms hkeys => ⟨trivial, hkeys⟩
  · exact fun s hs => s.all_writable (h _ hs)
  · exact fun k hk => k.isUtf8_text (h _ hk)

/-- A derivation takes finite numbers from tokens with finite literals. -/
theorem Tree.all_finiteNumber (T : Tree) (h : ∀ t ∈ T.tokens, t.FiniteLiteral) :
    T.value.All Value.FiniteNumber := by
  apply T.all_of_tokens (q := fun _ => True)
  · exact fun vs => trivial
  · exact fun ms _ => trivial
  · exact fun s hs => s.all_finiteNumber (h _ hs)
  · exact fun k _ => trivial

end RelaxedJson
