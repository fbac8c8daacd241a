-- SUMMARY: The ways to read a text agree, and all their failures are syntax errors.
import RelaxedJson.Proofs.Grammar.Building
import RelaxedJson.Proofs.Grammar.Prefix
import RelaxedJson.Proofs.Lexical.Faults

/-!
# Entry points

A text is valid exactly if it has a value (`Value.valid_iff`), and exactly if reading all its values
yields one (`Value.parse_iff_parseAll`). When there is none, the failure is a syntax error: a builder
never refuses an event of a parser (`Parser.run_malformed`), and the tokens of a text carry the
literals that their kinds promise (`Token.carriesLiteral_of_mem_scan`).
-/

namespace RelaxedJson

/-! ## Reasons -/

/-- A reason that a text can give: not a string or number that has the right form and no value, nor
    a token without its literal. -/
def SyntaxReason.OfText : SyntaxReason → Prop
  | .unreadableString _ | .unreadableNumber _ | .malformedToken _ _ => False
  | _ => True

theorem Fault.ofText {d : Dialect} {front rest : Bytes} {reason : SyntaxReason}
    (h : Fault d front rest reason) : reason.OfText := by
  cases h <;> trivial

/-- A string or number token has a literal of its kind. -/
def Token.CarriesLiteral (t : Token) : Prop :=
  t.kind = .string ∨ t.kind = .number → t.hasLiteral

theorem IsWord.carriesLiteral {d : Dialect} {w : Word} {rest : Bytes} (hw : IsWord d w rest)
    (before : Bytes) : (Layout.token d before w).CarriesLiteral := by
  intro hkind
  cases hw with
  | punctuation hpunctuation =>
    have hmem := Piece.kind_of_punctuation? hpunctuation
    rcases hkind with rfl | rfl <;> simp at hmem
  | @string mark body _ _ hbody =>
    obtain ⟨text, htext, -⟩ := Escape.unescape_of_body hbody
    simp [Layout.token, Token.hasLiteral, htext, Except.toOption]
  | @number n _ hrange _ =>
    obtain ⟨x, hx⟩ := n.exists_ofNumeral hrange
    simp [Layout.token, Token.hasLiteral, hx, Except.toOption]
  | keyword hkeyword _ =>
    have hmem := Piece.kind_of_keyword? hkeyword
    rcases hkind with rfl | rfl <;> simp at hmem
  | identifier _ _ _ => simp [Layout.token] at hkind

/-- The strings and numbers of a text have their literals. -/
theorem Token.carriesLiteral_of_mem_scan {d : Dialect} {text : Bytes} {ts : List Token}
    (hscan : Token.scan d text = .ok ts) {t : Token} (ht : t ∈ ts) : t.CarriesLiteral := by
  obtain ⟨before, w, rest, -, rfl, hw | ⟨rfl, -⟩⟩ := exists_of_mem_scan hscan ht
  · exact hw.carriesLiteral before
  · intro hkind
    simp [Layout.token] at hkind

namespace Control

variable {d : Dialect} {c : Control} {p : Position} {t : Token} {e : SyntaxError}

theorem value_ofText {depth : Nat} {cs : List Context} (ht : t.CarriesLiteral)
    (h : (value d depth cs t).error? = some e) : e.reason.OfText := by
  unfold value at h
  split at h
  · unfold opening at h
    split at h <;> cases h
    trivial
  · unfold opening at h
    split at h <;> cases h
    trivial
  · cases h
  · cases h
  · cases h
  · rename_i hkind
    rw [if_pos (ht (.inl hkind))] at h
    cases h
  · rename_i hkind
    rw [if_pos (ht (.inr hkind))] at h
    cases h
  · cases h
    trivial

/-- What the automaton finds wrong with a token that has its literal. -/
theorem move_ofText (ht : t.CarriesLiteral) (h : (c.move d p t).verdict.error? = some e) :
    e.reason.OfText := by
  obtain ⟨depth, goal, cs⟩ := c
  cases goal with
  | value => exact value_ofText ht h
  | member keys comma =>
    simp only [move] at h
    split at h
    · unfold Control.key at h
      split at h
      · cases h
        trivial
      · split at h <;> cases h
        trivial
    · split at h <;> cases h
      trivial
  | colon keys =>
    simp only [move] at h
    split at h <;> cases h
    trivial
  | memberEnd keys =>
    simp only [move] at h
    split at h <;> cases h
    trivial
  | element comma =>
    simp only [move] at h
    split at h
    · exact value_ofText ht h
    · split at h <;> cases h
      trivial
  | elementEnd =>
    simp only [move] at h
    split at h <;> cases h
    trivial
  | complete =>
    cases h
    trivial

theorem halt_ofText (c : Control) (t : Token) : (c.halt t).2.OfText := by
  obtain ⟨depth, goal, cs⟩ := c
  cases goal <;> trivial

end Control

namespace Parser

variable {σ ε : Type} {d : Dialect} {h : Handler σ ε}

theorem halt_ofText {c : Control} {consumed rest : List Token} {t : Token} {s : σ} {e : SyntaxError}
    (he : (halt h c consumed rest t s).result = .error (.malformed e)) : e.reason.OfText := by
  unfold halt at he
  split at he
  · cases he
  · cases he
    exact c.halt_ofText t

/-- What a parser finds wrong with tokens that have their literals. -/
theorem run_ofText {c : Control} {consumed ts : List Token} {s : σ} {e : SyntaxError}
    (hts : ∀ t ∈ ts, t.CarriesLiteral)
    (he : (run d h c consumed s ts).result = .error (.malformed e)) : e.reason.OfText := by
  -- A run fails on the token at hand (cases 4 and 5), in front of the end, or later on.
  fun_induction run d h c consumed s ts with
  | case1 => exact halt_ofText he
  | case2 => exact halt_ofText he
  | case4 c consumed s t rest _ _ _ _ e' hverdict =>
    cases he
    exact Control.move_ofText (hts t List.mem_cons_self) (by rw [hverdict]; rfl)
  | case5 c consumed s t rest _ _ _ next _ e' hverdict =>
    cases he
    exact Control.move_ofText (hts t List.mem_cons_self) (by rw [hverdict]; rfl)
  | case8 c consumed s t rest _ _ _ _ _ _ _ _ _ ih =>
    exact ih (fun t ht => hts t (List.mem_cons_of_mem _ ht)) he
  | _ => cases he

/-! ## One value -/

/-- A parser that reports to a builder reads a derivation and leaves its value with the builder, or
    it meets a syntax error. -/
theorem value_cases (d : Dialect) (p : Parser) :
    (∃ (T : Tree) (rest : List Token), T.Allowed d p.depth ∧ p.rest = T.tokens ++ rest ∧
      p.value d Builder.handle [] =
        { parser := { consumed := T.tokens.reverse ++ p.consumed, rest, depth := p.depth },
          state := [.finished (.ofValue T.value)], result := .ok () }) ∨
    ∃ e, (p.value d Builder.handle []).result = .error (.malformed e) ∧
      ((∀ t ∈ p.rest, t.CarriesLiteral) → e.reason.OfText) := by
  have hfits : Builder.Fits { depth := p.depth } [] := rfl
  rcases run_malformed (d := d) hfits p.consumed p.rest with hok | ⟨e, he⟩
  · obtain ⟨T, rest, s', hT, hrest, -⟩ := tree_of_value (p := p) hok
    exact .inl ⟨T, rest, hT, hrest, value_of_tree hT hrest (T.feed_events [])⟩
  · exact .inr ⟨e, he, fun hts => run_ofText hts he⟩

end Parser

theorem Handler.feed_discard (es : List Event) : Handler.discard.feed es () = ((), none) := by
  induction es with
  | nil => rfl
  | cons e es ih => exact ih

namespace Value

/-- A token sequence has a value or a syntax error. -/
theorem ofTokens_cases (d : Dialect) (ts : List Token) :
    (∃ v, ofTokens d ts = .ok v) ∨
    ∃ e, ofTokens d ts = .error (.malformed e) ∧
      ((∀ t ∈ ts, t.CarriesLiteral) → e.reason.OfText) := by
  rcases Parser.value_cases d (.ofTokens ts) with ⟨T, rest, hT, hrest, hvalue⟩ | ⟨e, he, htext⟩
  · by_cases hend : Token.AtEnd rest
    · refine .inl ⟨T.value, ?_⟩
      rw [ofTokens, Parser.parse_of_value hvalue hend]
      rfl
    · refine .inr ?_
      simp only [ofTokens, Parser.parse_of_value_of_more hvalue hend]
      exact ⟨_, rfl, fun _ => trivial⟩
  · refine .inr ⟨e, ?_, htext⟩
    simp only [ofTokens, Parser.parse, he]

/-- Whether a token sequence is accepted does not depend on what becomes of the events. -/
theorem parse_discard_ok_iff (d : Dialect) (ts : List Token) :
    ((Parser.ofTokens ts).parse d Handler.discard ()).result = .ok () ↔
      ∃ v, ofTokens d ts = .ok v := by
  rw [Parser.parse_ofTokens_ok_iff]
  constructor
  · rintro ⟨T, -, hT, hbody, -⟩
    exact ⟨T.value, ofTokens_of_tree hT hbody⟩
  · rintro ⟨v, hv⟩
    obtain ⟨T, hT, hbody, -⟩ := tree_of_ofTokens hv
    exact ⟨T, (), hT, hbody, Handler.feed_discard T.events⟩

theorem valid_iff (d : Dialect) (text : Bytes) :
    valid d text = true ↔ ∃ v, parse d text = .ok v := by
  cases hscan : Token.scan d text with
  | error e => simp [valid, parse, hscan]
  | ok ts =>
    simp only [valid, parse, hscan]
    rw [← parse_discard_ok_iff]
    cases ((Parser.ofTokens ts).parse d Handler.discard ()).result <;> simp

/-! ## All values -/

section

variable {d : Dialect} {p : Parser}

/-- The equation of `readAll` without the proof of progress. -/
theorem readAll_eq (d : Dialect) (p : Parser) (found : List Value) :
    readAll d p found =
      match (p.parseOne d Builder.handle []).result with
      | .error .exhausted => (found.reverse, none)
      | .error e          => (found.reverse, some e)
      | .ok () =>
        match (p.parseOne d Builder.handle []).state.value with
        | .error e => (found.reverse, some (.refused e))
        | .ok v    => readAll d (p.parseOne d Builder.handle []).parser (v :: found) := by
  rw [readAll]
  split
  · simp only [*]
  · simp only [*]
  · rename_i hok
    cases hvalue : (p.parseOne d Builder.handle []).state.value with
    | error e => simp only [hok]
    | ok v => simp only [hok]

theorem readAll_of_atEnd (hend : Token.AtEnd p.rest) (found : List Value) :
    readAll d p found = (found.reverse, none) := by
  rw [readAll_eq, Parser.parseOne, if_pos ((Parser.peek_kind_eq_iff p).mpr hend)]

theorem parseOne_of_more (hmore : ¬Token.AtEnd p.rest) :
    p.parseOne d Builder.handle [] = p.value d Builder.handle [] := by
  rw [Parser.parseOne, if_neg (fun hend => hmore ((Parser.peek_kind_eq_iff p).mp hend))]

theorem readAll_of_malformed {e : SyntaxError} (hmore : ¬Token.AtEnd p.rest)
    (he : (p.value d Builder.handle []).result = .error (.malformed e)) (found : List Value) :
    readAll d p found = (found.reverse, some (.malformed e)) := by
  rw [readAll_eq, parseOne_of_more hmore, he]

/-- A derivation in front of the parser is read, and its value is found. -/
theorem readAll_of_tree {T : Tree} {rest : List Token} (hT : T.Allowed d p.depth)
    (hrest : p.rest = T.tokens ++ rest) (found : List Value) :
    readAll d p found =
      readAll d { consumed := T.tokens.reverse ++ p.consumed, rest, depth := p.depth }
        (T.value :: found) := by
  have hmore : ¬Token.AtEnd p.rest := by
    rw [hrest]
    exact T.not_atEnd rest
  rw [readAll_eq, parseOne_of_more hmore, Parser.value_of_tree hT hrest (T.feed_events [])]
  rfl

end

/-- What is read one after the other: derivations, up to the end of input or a syntax error. -/
theorem readAll_spec (d : Dialect) (p : Parser) (found : List Value) :
    ∃ (Ts : List Tree) (rest : List Token), (∀ T ∈ Ts, T.Allowed d p.depth) ∧
      p.rest = Ts.flatMap Tree.tokens ++ rest ∧
      (readAll d p found).1 = found.reverse ++ Ts.map Tree.value ∧
      ((readAll d p found).2 = none ∧ Token.AtEnd rest ∨
        ∃ e, (readAll d p found).2 = some (.malformed e) ∧
          ((∀ t ∈ p.rest, t.CarriesLiteral) → e.reason.OfText)) := by
  -- On the tokens that are left: a derivation uses up at least one of them.
  generalize hlength : p.rest.length = n
  induction n using Nat.strong_induction_on generalizing p found with
  | _ n ih =>
    by_cases hend : Token.AtEnd p.rest
    · refine ⟨[], p.rest, by simp, by simp, ?_⟩
      rw [readAll_of_atEnd hend]
      exact ⟨by simp, .inl ⟨rfl, hend⟩⟩
    · rcases Parser.value_cases d p with ⟨T, rest, hT, hrest, -⟩ | ⟨e, he, htext⟩
      · have hshorter : rest.length < n := by
          have := List.length_pos_iff.mpr T.tokens_ne_nil
          rw [← hlength, hrest, List.length_append]
          omega
        obtain ⟨Ts, rest', hTs, hrest', hfound, hstop⟩ :=
          ih rest.length hshorter
            { consumed := T.tokens.reverse ++ p.consumed, rest, depth := p.depth }
            (T.value :: found) rfl
        simp only at hTs hrest' hstop
        rw [← readAll_of_tree hT hrest] at hfound hstop
        refine ⟨T :: Ts, rest', by simpa using ⟨hT, hTs⟩, ?_, ?_, ?_⟩
        · rw [hrest, hrest', List.flatMap_cons, List.append_assoc]
        · simpa using hfound
        · refine hstop.imp_right ?_
          rintro ⟨e, he, htext⟩
          refine ⟨e, he, fun hts => htext fun t ht => hts t ?_⟩
          rw [hrest]
          exact List.mem_append_right _ ht
      · refine ⟨[], p.rest, by simp, by simp, ?_⟩
        rw [readAll_of_malformed hend he]
        exact ⟨by simp, .inr ⟨e, rfl, htext⟩⟩

/-- A token sequence is a single value exactly if that is all there is to read. -/
theorem ofTokens_iff_readAll (d : Dialect) (ts : List Token) (v : Value) :
    ofTokens d ts = .ok v ↔ readAll d (.ofTokens ts) [] = ([v], none) := by
  constructor
  · intro hv
    obtain ⟨T, hT, hbody, rfl⟩ := tree_of_ofTokens hv
    obtain ⟨rest, hrest, hend⟩ := Token.body_append_rest ts
    rw [← hbody] at hrest
    rw [readAll_of_tree (p := .ofTokens ts) (Tree.allowed_iff.mpr hT) hrest]
    exact readAll_of_atEnd hend [T.value]
  · intro hall
    obtain ⟨Ts, rest, hTs, hrest, hfound, hstop⟩ := readAll_spec d (.ofTokens ts) []
    rw [hall] at hfound hstop
    obtain ⟨T, rfl, rfl⟩ := List.map_eq_singleton_iff.mp hfound.symm
    have hend : Token.AtEnd rest := by
      obtain ⟨-, hend⟩ | ⟨e, he, -⟩ := hstop
      · exact hend
      · cases he
    have hts : ts = T.tokens ++ rest := by simpa using (show ts = _ from hrest)
    refine ofTokens_of_tree (Tree.allowed_iff.mp (hTs T (by simp))) ?_
    rw [hts, Token.body_append T.kind_ne_end hend]

/-! ## Texts -/

theorem parse_iff_parseAll (d : Dialect) (text : Bytes) (v : Value) :
    parse d text = .ok v ↔ parseAll d text = ([v], none) := by
  cases hscan : Token.scan d text with
  | error e => simp [parse, parseAll, hscan]
  | ok ts =>
    simp only [parse, parseAll, hscan]
    exact ofTokens_iff_readAll d ts v

theorem scan_ofText {d : Dialect} {text : Bytes} {e : SyntaxError}
    (hscan : Token.scan d text = .error e) : e.reason.OfText := by
  obtain ⟨_, _, _, _, _, hfault, _⟩ := Token.scan_eq_error_iff_fault.mp hscan
  exact hfault.ofText

theorem parse_eq_error {d : Dialect} {text : Bytes} {f : ReadFailure}
    (h : parse d text = .error f) : ∃ e, f = .malformed e ∧ e.reason.OfText := by
  cases hscan : Token.scan d text with
  | error e =>
    simp only [parse, hscan] at h
    cases h
    exact ⟨e, rfl, scan_ofText hscan⟩
  | ok ts =>
    simp only [parse, hscan] at h
    rcases ofTokens_cases d ts with ⟨v, hv⟩ | ⟨e, he, htext⟩
    · rw [hv] at h
      cases h
    · rw [he] at h
      cases h
      exact ⟨e, rfl, htext fun t ht => Token.carriesLiteral_of_mem_scan hscan ht⟩

theorem parseAll_eq_error {d : Dialect} {text : Bytes} {f : ReadFailure}
    (h : (parseAll d text).2 = some f) : ∃ e, f = .malformed e ∧ e.reason.OfText := by
  cases hscan : Token.scan d text with
  | error e =>
    simp only [parseAll, hscan] at h
    cases h
    exact ⟨e, rfl, scan_ofText hscan⟩
  | ok ts =>
    simp only [parseAll, hscan] at h
    obtain ⟨-, -, -, -, -, ⟨hnone, -⟩ | ⟨e, he, htext⟩⟩ := readAll_spec d (.ofTokens ts) []
    · rw [hnone] at h
      cases h
    · rw [he] at h
      cases h
      exact ⟨e, rfl, htext fun t ht => Token.carriesLiteral_of_mem_scan hscan ht⟩

/-- The ways to read a text agree: it is valid if it has a value, and it has a value if that is all
    there is to read. All failures are syntax errors, of the kinds that a text can have. A token
    sequence that comes from no text has a value or a syntax error too. -/
theorem entry_points (d : Dialect) :
    (∀ text,
      (valid d text = true ↔ ∃ v, parse d text = .ok v) ∧
      (∀ v, parse d text = .ok v ↔ parseAll d text = ([v], none)) ∧
      ∀ f, parse d text = .error f ∨ (parseAll d text).2 = some f →
        ∃ e, f = .malformed e ∧ e.reason.OfText) ∧
    ∀ ts, (∃ v, ofTokens d ts = .ok v) ∨ ∃ e, ofTokens d ts = .error (.malformed e) := by
  refine ⟨fun text => ⟨valid_iff d text, parse_iff_parseAll d text, ?_⟩, fun ts => ?_⟩
  · rintro f (h | h)
    · exact parse_eq_error h
    · exact parseAll_eq_error h
  · exact (ofTokens_cases d ts).imp_right fun ⟨e, he, _⟩ => ⟨e, he⟩

end Value

end RelaxedJson
