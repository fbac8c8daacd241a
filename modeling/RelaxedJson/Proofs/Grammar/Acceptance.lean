-- SUMMARY: A token sequence has a value exactly if it has an acceptable derivation, and then just one.
import RelaxedJson.Proofs.Grammar.Parsing

/-!
# Acceptance

The tokens in front of the end of input are parsed if and only if they have a derivation that the
dialect accepts, and what comes out is the value of the derivation (`Value.ofTokens_of_tree`,
`Value.tree_of_ofTokens`). A token sequence has at most one derivation. A text is parsed by way of
its tokens (`Value.parse_of_tree`, `Value.tree_of_parse`).
-/

namespace RelaxedJson

/-- The tokens in front of the first end of input. -/
def Token.body (ts : List Token) : List Token :=
  ts.takeWhile fun t => t.kind ≠ .endOfInput

/-- The next token of a sequence is the end of input, or there is none. -/
def Token.AtEnd (ts : List Token) : Prop :=
  ∀ t ∈ ts.head?, t.kind = .endOfInput

namespace Token

theorem body_append_rest (ts : List Token) : ∃ rest, ts = body ts ++ rest ∧ AtEnd rest := by
  refine ⟨ts.dropWhile fun t => t.kind ≠ .endOfInput, List.takeWhile_append_dropWhile.symm, ?_⟩
  intro t ht
  have hstop := List.head?_dropWhile_not (fun t : Token => t.kind ≠ .endOfInput) ts
  rw [Option.mem_def.mp ht] at hstop
  simpa using hstop

theorem mem_of_mem_body {ts : List Token} {t : Token} (ht : t ∈ body ts) : t ∈ ts :=
  (List.takeWhile_sublist _).mem ht

theorem body_append {ts rest : List Token} (hts : ∀ t ∈ ts, t.kind ≠ .endOfInput)
    (hrest : AtEnd rest) : body (ts ++ rest) = ts := by
  unfold body
  rw [List.takeWhile_append_of_pos (by simpa using hts)]
  cases rest with
  | nil => simp
  | cons t rest => simp [hrest t rfl]

theorem body_eq_self {ts : List Token} (hts : ∀ t ∈ ts, t.kind ≠ .endOfInput) : body ts = ts :=
  List.takeWhile_eq_self_iff.mpr (by simpa using hts)

end Token

/-- A derivation is not empty, so what comes first is not the end of input. -/
theorem Tree.not_atEnd (T : Tree) (rest : List Token) : ¬Token.AtEnd (T.tokens ++ rest) := by
  intro hend
  obtain ⟨t, ts, hts⟩ := List.exists_cons_of_ne_nil T.tokens_ne_nil
  have ht : t ∈ T.tokens := by simp [hts]
  exact T.kind_ne_end t ht (hend t (by simp [hts]))

namespace Parser

variable {σ ε : Type} {d : Dialect} {h : Handler σ ε}

theorem peek_kind_eq_iff (p : Parser) : p.peek.kind = .endOfInput ↔ Token.AtEnd p.rest := by
  unfold peek Token.AtEnd
  cases p.rest with
  | nil => cases hc : p.consumed <;> simp [endBehind]
  | cons t rest => simp

/-- A parser in front of an acceptable derivation reads it. -/
theorem value_of_tree {T : Tree} {p : Parser} {rest : List Token} {s s' : σ}
    (hT : T.Allowed d p.depth) (hrest : p.rest = T.tokens ++ rest)
    (hfeed : h.feed T.events s = (s', none)) :
    p.value d h s =
      { parser := { consumed := T.tokens.reverse ++ p.consumed, rest, depth := p.depth },
        state := s', result := .ok () } := by
  have hread := T.reads d p.depth [] hT
  rw [value, hrest]
  exact run_of_reads hread rfl T.tokens_ne_nil hfeed p.consumed rest

/-- What a parser reads as a value is an acceptable derivation. -/
theorem tree_of_value {p : Parser} {s : σ} (hok : (p.value d h s).result = .ok ()) :
    ∃ (T : Tree) (rest : List Token) (s' : σ), T.Allowed d p.depth ∧ p.rest = T.tokens ++ rest ∧
      h.feed T.events s = (s', none) := by
  obtain ⟨used, rest, es, last, s', hrest, -, hread, hlast, hfeed⟩ := reads_of_run hok
  obtain ⟨T, hT, rfl⟩ := Tree.of_reads hread hlast
  obtain ⟨rfl, -⟩ := hread.unique (T.reads d p.depth [] hT)
  exact ⟨T, rest, s', hT, hrest, hfeed⟩

theorem parse_of_value {p q : Parser} {s s' : σ}
    (hvalue : p.value d h s = { parser := q, state := s', result := .ok () })
    (hend : Token.AtEnd q.rest) :
    p.parse d h s = { parser := q, state := (h (.endOfInput q.peek) s').1, result := .ok () } := by
  simp only [parse, hvalue]
  rw [if_pos ((peek_kind_eq_iff q).mpr hend)]

theorem parse_of_value_of_more {p q : Parser} {s s' : σ}
    (hvalue : p.value d h s = { parser := q, state := s', result := .ok () })
    (hmore : ¬Token.AtEnd q.rest) :
    (p.parse d h s).result =
      .error (.malformed ⟨q.peek.position, .unexpectedAfterValue q.peek.kind⟩) := by
  simp only [parse, hvalue]
  rw [if_neg (fun hend => hmore ((peek_kind_eq_iff q).mp hend))]

/-- What a parser accepts as a single value is one, and the end of input comes next. -/
theorem value_of_parse {p : Parser} {s : σ} (hok : (p.parse d h s).result = .ok ()) :
    (p.value d h s).result = .ok () ∧ Token.AtEnd (p.value d h s).parser.rest := by
  simp only [parse] at hok
  split at hok
  · rename_i herror
    rw [herror] at hok
    cases hok
  · rename_i hvalue
    split at hok
    · rename_i hend
      exact ⟨hvalue, (peek_kind_eq_iff _).mp hend⟩
    · cases hok

/-- A parser accepts a token sequence as a single value exactly if the tokens in front of its end
    have an acceptable derivation and the handler takes the events. -/
theorem parse_ofTokens_ok_iff {ts : List Token} {s : σ} :
    ((ofTokens ts).parse d h s).result = .ok () ↔
      ∃ (T : Tree) (s' : σ), T.Accepted d ∧ T.tokens = Token.body ts ∧
        h.feed T.events s = (s', none) := by
  constructor
  · intro hok
    obtain ⟨hvalue, hend⟩ := value_of_parse hok
    obtain ⟨T, rest, s', hT, hrest, hfeed⟩ := tree_of_value hvalue
    rw [value_of_tree hT hrest hfeed] at hend
    have hts : ts = T.tokens ++ rest := hrest
    refine ⟨T, s', Tree.allowed_iff.mp hT, ?_, hfeed⟩
    rw [hts, Token.body_append T.kind_ne_end hend]
  · rintro ⟨T, s', hT, hbody, hfeed⟩
    obtain ⟨rest, hrest, hend⟩ := Token.body_append_rest ts
    rw [← hbody] at hrest
    have hvalue := value_of_tree (p := ofTokens ts) (Tree.allowed_iff.mpr hT) hrest hfeed
    rw [parse_of_value hvalue hend]

end Parser

namespace Value

variable {d : Dialect} {ts : List Token}

/-- An acceptable derivation is parsed to its value. -/
theorem ofTokens_of_tree {T : Tree} (hT : T.Accepted d) (hts : T.tokens = Token.body ts) :
    ofTokens d ts = .ok T.value := by
  obtain ⟨rest, hrest, hend⟩ := Token.body_append_rest ts
  rw [← hts] at hrest
  have hvalue := Parser.value_of_tree (p := .ofTokens ts) (Tree.allowed_iff.mpr hT) hrest
    (T.feed_events [])
  rw [ofTokens, Parser.parse_of_value hvalue hend]
  rfl

/-- What is parsed has an acceptable derivation. -/
theorem tree_of_ofTokens {v : Value} (h : ofTokens d ts = .ok v) :
    ∃ T : Tree, T.Accepted d ∧ T.tokens = Token.body ts ∧ T.value = v := by
  have hok : ((Parser.ofTokens ts).parse d Builder.handle []).result = .ok () := by
    simp only [ofTokens] at h
    split at h
    · cases h
    · assumption
  obtain ⟨T, -, hT, hbody, -⟩ := Parser.parse_ofTokens_ok_iff.mp hok
  rw [ofTokens_of_tree hT hbody] at h
  cases h
  exact ⟨T, hT, hbody, rfl⟩

/-- What is parsed from a text has an acceptable derivation from the tokens of the text. -/
theorem tree_of_parse {text : Bytes} {v : Value} (h : parse d text = .ok v) :
    ∃ (ts : List Token) (T : Tree), Token.scan d text = .ok ts ∧ T.Accepted d ∧
      T.tokens = Token.body ts ∧ T.value = v := by
  cases hscan : Token.scan d text with
  | error e =>
    simp only [parse, hscan] at h
    cases h
  | ok ts =>
    simp only [parse, hscan] at h
    obtain ⟨T, hT, hbody, hvalue⟩ := tree_of_ofTokens h
    exact ⟨ts, T, rfl, hT, hbody, hvalue⟩

theorem parse_of_tree {text : Bytes} {T : Tree} (hscan : Token.scan d text = .ok ts)
    (hT : T.Accepted d) (hbody : T.tokens = Token.body ts) : parse d text = .ok T.value := by
  simp only [parse, hscan]
  exact ofTokens_of_tree hT hbody

/-- A token sequence has a value exactly if the tokens in front of its end have a derivation that
    the dialect accepts, and it is the value of the derivation. They have at most one derivation. -/
theorem ofTokens_eq_ok_iff (d : Dialect) (ts : List Token) :
    (∀ v, ofTokens d ts = .ok v ↔
      ∃ T : Tree, T.Accepted d ∧ T.tokens = Token.body ts ∧ T.value = v) ∧
    (∀ T T' : Tree, T.tokens = Token.body ts → T'.tokens = Token.body ts →
      T = T' ∧ T.value = T'.value) := by
  refine ⟨fun v => ⟨tree_of_ofTokens, ?_⟩, ?_⟩
  · rintro ⟨T, hT, hts, rfl⟩
    exact ofTokens_of_tree hT hts
  · intro T T' hT hT'
    have htokens : T.tokens ++ [] = T'.tokens ++ [] := by rw [hT, hT']
    obtain ⟨rfl, -⟩ := T.tokens_append_inj T' htokens
    exact ⟨rfl, rfl⟩

end Value

end RelaxedJson
