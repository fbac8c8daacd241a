-- SUMMARY: Trailing commas can be deleted token by token, without a look at the derivation.
import RelaxedJson.Proofs.Grammar.Calls
import RelaxedJson.Proofs.Value.Relaxations

/-!
# Trailing commas

To allow trailing commas is to delete them: a comma goes if it stands between the possible end of a
value and a closing bracket (`Token.strip`). That is decided by its two neighbours alone. A derivation
without its trailing commas has the stripped tokens (`Tree.strip_tokens`), and a derivation of stripped
tokens has room for each comma that was deleted (`Tree.of_strip`). Nothing else is lost, so stripped
tokens have a value exactly if the tokens had it (`Value.ofTokens_strip`).
-/

namespace RelaxedJson

/-! ## Stripping tokens -/

/-- The kinds of tokens that can be the last one of a value. -/
def Kind.endsValue : Kind → Bool
  | .rightBrace | .rightBracket | .string | .number | .null | .true | .false => .true
  | _                                                                        => .false

namespace Token

/-- Whether a token is a comma between the end of a value and a closing bracket, as far as its
    neighbours tell. -/
def isTrailing (previous : Option Token) (t : Token) (next : Option Token) : Bool :=
  t.kind = .comma && previous.any (·.kind.endsValue) && next.any (·.kind.closes)

/-- The tokens behind `previous` without trailing commas. -/
def stripFrom (previous : Option Token) : List Token → List Token
  | []      => []
  | t :: ts =>
    if isTrailing previous t ts.head? then stripFrom (some t) ts
    else t :: stripFrom (some t) ts

/-- The tokens without trailing commas. -/
def strip (ts : List Token) : List Token :=
  stripFrom none ts

variable {previous : Option Token} {t : Token}

theorem ne_comma_of_closes (h : t.kind.closes) : t.kind ≠ .comma := by
  intro hcomma
  rw [hcomma] at h
  cases h

theorem stripFrom_of_ne_comma (h : t.kind ≠ .comma) (ts : List Token) :
    stripFrom previous (t :: ts) = t :: stripFrom (some t) ts := by
  simp [stripFrom, isTrailing, h]

theorem stripFrom_of_not_closes {u : Token} (h : u.kind.closes = false) (ts : List Token) :
    stripFrom previous (t :: u :: ts) = t :: stripFrom (some t) (u :: ts) := by
  simp [stripFrom, isTrailing, h]

theorem stripFrom_trailing {last closing : Token} (hlast : last.kind.endsValue)
    (ht : t.kind = .comma) (hclosing : closing.kind.closes) (ts : List Token) :
    stripFrom (some last) (t :: closing :: ts) = closing :: stripFrom (some closing) ts := by
  have hnext : stripFrom (some t) (closing :: ts) = closing :: stripFrom (some closing) ts :=
    stripFrom_of_ne_comma (ne_comma_of_closes hclosing) ts
  rw [← hnext]
  simp [stripFrom, isTrailing, hlast, ht, hclosing]

/-- Behind a comma that is deleted stands a closing bracket, which stays. -/
theorem exists_of_isTrailing {ts : List Token} (h : isTrailing previous t ts.head?) :
    t.kind = .comma ∧ previous.any (·.kind.endsValue) ∧ ∃ closing ts', closing.kind.closes ∧
      ts = closing :: ts' ∧
      stripFrom (some t) ts = closing :: stripFrom (some closing) ts' := by
  simp only [isTrailing, Bool.and_eq_true, decide_eq_true_eq] at h
  obtain ⟨⟨hcomma, hprevious⟩, hnext⟩ := h
  obtain ⟨closing, hhead, hcloses⟩ := Option.any_eq_true _ _ |>.mp hnext
  obtain ⟨ts', rfl⟩ := List.head?_eq_some_iff.mp hhead
  exact ⟨hcomma, hprevious, closing, ts', hcloses, rfl,
    stripFrom_of_ne_comma (ne_comma_of_closes hcloses) ts'⟩

/-- In front of a token that stays, at most a comma was deleted, and that only between the end of a
    value and a closing bracket. -/
theorem of_stripFrom_cons {us ts : List Token} (h : stripFrom previous us = t :: ts) :
    (∃ us', us = t :: us' ∧ stripFrom (some t) us' = ts) ∨
      ∃ (comma : Terminal .comma) (us' : List Token), previous.any (·.kind.endsValue) ∧
        t.kind.closes ∧ us = comma.val :: t :: us' ∧ stripFrom (some t) us' = ts := by
  cases us with
  | nil => cases h
  | cons u us =>
    rw [stripFrom] at h
    split at h
    · obtain ⟨hcomma, hprevious, closing, us', hcloses, rfl, hstrip⟩ := exists_of_isTrailing ‹_›
      rw [hstrip] at h
      obtain ⟨rfl, hrest⟩ := List.cons.inj h
      exact .inr ⟨⟨u, hcomma⟩, us', hprevious, hcloses, rfl, hrest⟩
    · obtain ⟨rfl, hrest⟩ := List.cons.inj h
      exact .inl ⟨us, rfl, hrest⟩

/-- In front of a token that is no closing bracket, nothing was deleted. -/
theorem of_stripFrom_not_closes {us ts : List Token} (ht : t.kind.closes = false)
    (h : stripFrom previous us = t :: ts) : ∃ us', us = t :: us' ∧ stripFrom (some t) us' = ts := by
  rcases of_stripFrom_cons h with hkept | ⟨-, -, -, hcloses, -⟩
  · exact hkept
  · rw [ht] at hcloses
    cases hcloses

/-- Not all tokens are deleted. -/
theorem of_stripFrom_nil {us : List Token} (h : stripFrom previous us = []) : us = [] := by
  cases us with
  | nil => rfl
  | cons u us =>
    rw [stripFrom] at h
    split at h
    · obtain ⟨-, -, closing, us', -, -, hstrip⟩ := exists_of_isTrailing ‹_›
      rw [hstrip] at h
      cases h
    · cases h

/-- What stands behind the end of input plays no part. -/
theorem body_stripFrom (ts : List Token) :
    body (stripFrom previous ts) = stripFrom previous (body ts) := by
  induction ts generalizing previous with
  | nil => rfl
  | cons t ts ih =>
    by_cases hend : t.kind = .endOfInput
    · have hne : t.kind ≠ .comma := by simp [hend]
      rw [stripFrom_of_ne_comma hne]
      simp [body, hend, stripFrom]
    · have hnext : (body ts).head?.any (·.kind.closes) = ts.head?.any (·.kind.closes) := by
        cases ts with
        | nil => rfl
        | cons u us =>
          by_cases hu : u.kind = .endOfInput <;> simp [body, hu, Kind.closes]
      have hbody : body (t :: ts) = t :: body ts := by simp [body, hend]
      rw [hbody, stripFrom, stripFrom, isTrailing, isTrailing, hnext]
      split
      · exact ih
      · rw [← ih]
        simp [body, hend]

end Token

/-! ## Pruning derivations -/

mutual

/-- A derivation without its trailing commas. -/
def Tree.pruned : Tree → Tree
  | .array l first rest r            => .array l first.pruned rest.pruned r
  | .object l key colon first rest r => .object l key colon first.pruned rest.pruned r
  | T                                => T

def ElementsTail.pruned : ElementsTail → ElementsTail
  | .done                    => .done
  | .trailing _              => .done
  | .next comma element rest => .next comma element.pruned rest.pruned

def MembersTail.pruned : MembersTail → MembersTail
  | .done                            => .done
  | .trailing _                      => .done
  | .next comma key colon value rest => .next comma key colon value.pruned rest.pruned

end

mutual

theorem Tree.pruned_spec (T : Tree) :
    T.pruned.value = T.value ∧ T.pruned.hasTrailingComma = false := by
  cases T with
  | scalar s => exact ⟨rfl, rfl⟩
  | emptyArray l r => exact ⟨rfl, rfl⟩
  | array l first rest r =>
    simp [Tree.pruned, Tree.value, Tree.hasTrailingComma, first.pruned_spec, rest.pruned_spec]
  | emptyObject l r => exact ⟨rfl, rfl⟩
  | object l key colon first rest r =>
    simp [Tree.pruned, Tree.value, Tree.hasTrailingComma, first.pruned_spec, rest.pruned_spec]

theorem ElementsTail.pruned_spec (E : ElementsTail) :
    E.pruned.values = E.values ∧ E.pruned.hasTrailingComma = false := by
  cases E with
  | done => exact ⟨rfl, rfl⟩
  | trailing comma => exact ⟨rfl, rfl⟩
  | next comma element rest =>
    simp [ElementsTail.pruned, ElementsTail.values, ElementsTail.hasTrailingComma,
      element.pruned_spec, rest.pruned_spec]

theorem MembersTail.pruned_spec (M : MembersTail) :
    M.pruned.members = M.members ∧ M.pruned.hasTrailingComma = false := by
  cases M with
  | done => exact ⟨rfl, rfl⟩
  | trailing comma => exact ⟨rfl, rfl⟩
  | next comma key colon value rest =>
    simp [MembersTail.pruned, MembersTail.members, MembersTail.hasTrailingComma,
      value.pruned_spec, rest.pruned_spec]

end

/-! ## Stripping derivations -/

theorem Kind.closes_eq_false {k : Kind} (hbrace : k ≠ .rightBrace) (hbracket : k ≠ .rightBracket) :
    k.closes = .false := by
  unfold closes
  split
  · exact absurd rfl hbrace
  · exact absurd rfl hbracket
  · rfl

theorem Key.not_closes (key : Key) : key.token.kind.closes = false :=
  Kind.closes_eq_false (key.kind_ne (by decide) (by decide)) (key.kind_ne (by decide) (by decide))

theorem Scalar.not_closes (s : Scalar) : s.token.kind.closes = false :=
  Kind.closes_eq_false (s.kind_ne fun _ => rfl) (s.kind_ne fun _ => rfl)

theorem Scalar.endsValue (s : Scalar) : s.token.kind.endsValue := by
  obtain ⟨t, v, hv⟩ := s
  unfold Token.value? at hv
  split at hv
  case h_6 => cases hv
  all_goals
    cases hv
    simp [Kind.endsValue, *]

namespace Token

variable {previous : Option Token}

theorem stripFrom_terminal {k : Kind} (hk : k ≠ .comma) (t : Terminal k) (ts : List Token) :
    stripFrom previous (t :: ts) = t.val :: stripFrom (some t.val) ts :=
  stripFrom_of_ne_comma (by rw [t.property]; exact hk) ts

theorem stripFrom_key (key : Key) (ts : List Token) :
    stripFrom previous (key.token :: ts) = key.token :: stripFrom (some key.token) ts :=
  stripFrom_of_ne_comma (key.kind_ne (by decide) (by decide)) ts

/-- A comma in front of a value stays. -/
theorem stripFrom_comma_tree (comma : Terminal .comma) (T : Tree) (ts : List Token) :
    stripFrom previous (comma :: (T.tokens ++ ts)) =
      comma.val :: stripFrom (some comma.val) (T.tokens ++ ts) := by
  obtain ⟨t, ts', htokens, hbrace, hbracket⟩ := T.exists_first
  rw [htokens]
  exact stripFrom_of_not_closes (Kind.closes_eq_false hbrace hbracket) _

end Token

-- The token in front of a value does not matter, since a value does not start with a comma. What
-- the value hands on to the tokens behind it is that its last token can end a value.
mutual

/-- Stripping the tokens of a derivation gives the tokens of the pruned derivation. -/
theorem Tree.strip_tokens (T : Tree) (previous : Option Token) (ts : List Token) :
    ∃ last : Token, last.kind.endsValue ∧
      Token.stripFrom previous (T.tokens ++ ts) =
        T.pruned.tokens ++ Token.stripFrom (some last) ts := by
  cases T with
  | scalar s =>
    exact ⟨s.token, s.endsValue, Token.stripFrom_of_ne_comma (s.kind_ne fun _ => rfl) ts⟩
  | emptyArray l r =>
    refine ⟨r, by simp [r.property, Kind.endsValue], ?_⟩
    simp only [Tree.tokens, Tree.pruned, List.cons_append, List.nil_append]
    rw [Token.stripFrom_terminal (by decide), Token.stripFrom_terminal (by decide)]
  | array l first rest r =>
    refine ⟨r, by simp [r.property, Kind.endsValue], ?_⟩
    simp only [Tree.tokens, Tree.pruned, List.cons_append, List.append_assoc, List.nil_append]
    rw [Token.stripFrom_terminal (by decide)]
    obtain ⟨last, hlast, hfirst⟩ := first.strip_tokens (some l.val) (rest.tokens ++ r.val :: ts)
    rw [hfirst, rest.strip_tokens hlast]
  | emptyObject l r =>
    refine ⟨r, by simp [r.property, Kind.endsValue], ?_⟩
    simp only [Tree.tokens, Tree.pruned, List.cons_append, List.nil_append]
    rw [Token.stripFrom_terminal (by decide), Token.stripFrom_terminal (by decide)]
  | object l key colon first rest r =>
    refine ⟨r, by simp [r.property, Kind.endsValue], ?_⟩
    simp only [Tree.tokens, Tree.pruned, List.cons_append, List.append_assoc, List.nil_append]
    rw [Token.stripFrom_terminal (by decide), Token.stripFrom_key,
      Token.stripFrom_terminal (by decide)]
    obtain ⟨last, hlast, hfirst⟩ := first.strip_tokens (some colon.val) (rest.tokens ++ r.val :: ts)
    rw [hfirst, rest.strip_tokens hlast]

theorem ElementsTail.strip_tokens (E : ElementsTail) {last : Token} (hlast : last.kind.endsValue)
    (r : Terminal .rightBracket) (ts : List Token) :
    Token.stripFrom (some last) (E.tokens ++ r.val :: ts) =
      E.pruned.tokens ++ r.val :: Token.stripFrom (some r.val) ts := by
  cases E with
  | done => exact Token.stripFrom_terminal (by decide) r ts
  | trailing comma =>
    have hcloses : r.val.kind.closes := by simp [r.property, Kind.closes]
    exact Token.stripFrom_trailing hlast comma.property hcloses ts
  | next comma element rest =>
    simp only [ElementsTail.tokens, ElementsTail.pruned, List.cons_append, List.append_assoc]
    rw [Token.stripFrom_comma_tree]
    obtain ⟨last', hlast', helement⟩ :=
      element.strip_tokens (some comma.val) (rest.tokens ++ r.val :: ts)
    rw [helement, rest.strip_tokens hlast']

theorem MembersTail.strip_tokens (M : MembersTail) {last : Token} (hlast : last.kind.endsValue)
    (r : Terminal .rightBrace) (ts : List Token) :
    Token.stripFrom (some last) (M.tokens ++ r.val :: ts) =
      M.pruned.tokens ++ r.val :: Token.stripFrom (some r.val) ts := by
  cases M with
  | done => exact Token.stripFrom_terminal (by decide) r ts
  | trailing comma =>
    have hcloses : r.val.kind.closes := by simp [r.property, Kind.closes]
    exact Token.stripFrom_trailing hlast comma.property hcloses ts
  | next comma key colon value rest =>
    simp only [MembersTail.tokens, MembersTail.pruned, List.cons_append, List.append_assoc]
    rw [Token.stripFrom_of_not_closes key.not_closes, Token.stripFrom_key,
      Token.stripFrom_terminal (by decide)]
    obtain ⟨last', hlast', hvalue⟩ :=
      value.strip_tokens (some colon.val) (rest.tokens ++ r.val :: ts)
    rw [hvalue, rest.strip_tokens hlast']

end

/-! ## Restoring commas -/

namespace Token

variable {previous : Option Token} {us ts : List Token}

theorem of_stripFrom_terminal {k : Kind} (hk : k.closes = false) {t : Terminal k}
    (h : stripFrom previous us = t.val :: ts) :
    ∃ us', us = t.val :: us' ∧ stripFrom (some t.val) us' = ts :=
  of_stripFrom_not_closes (by rw [t.property]; exact hk) h

/-- Between an opening bracket and what comes next, nothing was deleted. -/
theorem of_stripFrom_opening {k : Kind} (hk : k.endsValue = false) {l : Terminal k} {t : Token}
    (h : stripFrom (some l.val) us = t :: ts) :
    ∃ us', us = t :: us' ∧ stripFrom (some t) us' = ts := by
  rcases of_stripFrom_cons h with hkept | ⟨-, -, hends, -⟩
  · exact hkept
  · rw [Option.any_some, l.property, hk] at hends
    cases hends

end Token

mutual

/-- Tokens that start with a derivation once they are stripped start with a derivation of the same
    value. -/
theorem Tree.of_strip (T : Tree) {previous : Option Token} {us ts : List Token}
    (hstrict : T.hasTrailingComma = false) (h : Token.stripFrom previous us = T.tokens ++ ts) :
    ∃ (T' : Tree) (us' : List Token) (last : Token), T'.value = T.value ∧ us = T'.tokens ++ us' ∧
      Token.stripFrom (some last) us' = ts := by
  cases T with
  | scalar s =>
    obtain ⟨us', rfl, hrest⟩ := Token.of_stripFrom_not_closes s.not_closes h
    exact ⟨.scalar s, us', s.token, rfl, rfl, hrest⟩
  | emptyArray l r =>
    obtain ⟨us₁, rfl, h₁⟩ := Token.of_stripFrom_terminal rfl h
    obtain ⟨us', rfl, hrest⟩ := Token.of_stripFrom_opening rfl h₁
    exact ⟨.emptyArray l r, us', r, rfl, rfl, hrest⟩
  | array l first rest r =>
    simp only [Tree.tokens, List.cons_append, List.append_assoc, List.nil_append] at h
    obtain ⟨hfirst, htail⟩ := Bool.or_eq_false_iff.mp hstrict
    obtain ⟨us₁, rfl, h₁⟩ := Token.of_stripFrom_terminal rfl h
    obtain ⟨first', us₂, last, hvalue, rfl, h₂⟩ := first.of_strip hfirst h₁
    obtain ⟨rest', us', hvalues, rfl, hrest⟩ := rest.of_strip htail h₂
    refine ⟨.array l first' rest' r, us', r, ?_, by simp [Tree.tokens], hrest⟩
    rw [Tree.value, Tree.value, hvalue, hvalues]
  | emptyObject l r =>
    obtain ⟨us₁, rfl, h₁⟩ := Token.of_stripFrom_terminal rfl h
    obtain ⟨us', rfl, hrest⟩ := Token.of_stripFrom_opening rfl h₁
    exact ⟨.emptyObject l r, us', r, rfl, rfl, hrest⟩
  | object l key colon first rest r =>
    simp only [Tree.tokens, List.cons_append, List.append_assoc, List.nil_append] at h
    obtain ⟨hfirst, htail⟩ := Bool.or_eq_false_iff.mp hstrict
    obtain ⟨us₁, rfl, h₁⟩ := Token.of_stripFrom_terminal rfl h
    obtain ⟨us₂, rfl, h₂⟩ := Token.of_stripFrom_not_closes key.not_closes h₁
    obtain ⟨us₃, rfl, h₃⟩ := Token.of_stripFrom_terminal rfl h₂
    obtain ⟨first', us₄, last, hvalue, rfl, h₄⟩ := first.of_strip hfirst h₃
    obtain ⟨rest', us', hmembers, rfl, hrest⟩ := rest.of_strip htail h₄
    refine ⟨.object l key colon first' rest' r, us', r, ?_, by simp [Tree.tokens], hrest⟩
    rw [Tree.value, Tree.value, hvalue, hmembers]

theorem ElementsTail.of_strip (E : ElementsTail) {previous : Option Token} {us ts : List Token}
    {r : Terminal .rightBracket} (hstrict : E.hasTrailingComma = false)
    (h : Token.stripFrom previous us = E.tokens ++ r.val :: ts) :
    ∃ (E' : ElementsTail) (us' : List Token), E'.values = E.values ∧
      us = E'.tokens ++ r.val :: us' ∧ Token.stripFrom (some r.val) us' = ts := by
  cases E with
  | done =>
    rcases Token.of_stripFrom_cons h with ⟨us', rfl, hrest⟩ | ⟨comma, us', -, -, rfl, hrest⟩
    · exact ⟨.done, us', rfl, rfl, hrest⟩
    · exact ⟨.trailing comma, us', rfl, rfl, hrest⟩
  | trailing comma => cases hstrict
  | next comma element rest =>
    simp only [ElementsTail.tokens, List.cons_append, List.append_assoc] at h
    obtain ⟨helement, htail⟩ := Bool.or_eq_false_iff.mp hstrict
    obtain ⟨us₁, rfl, h₁⟩ := Token.of_stripFrom_terminal rfl h
    obtain ⟨element', us₂, last, hvalue, rfl, h₂⟩ := element.of_strip helement h₁
    obtain ⟨rest', us', hvalues, rfl, hrest⟩ := rest.of_strip htail h₂
    refine ⟨.next comma element' rest', us', ?_, by simp [ElementsTail.tokens], hrest⟩
    rw [ElementsTail.values, ElementsTail.values, hvalue, hvalues]

theorem MembersTail.of_strip (M : MembersTail) {previous : Option Token} {us ts : List Token}
    {r : Terminal .rightBrace} (hstrict : M.hasTrailingComma = false)
    (h : Token.stripFrom previous us = M.tokens ++ r.val :: ts) :
    ∃ (M' : MembersTail) (us' : List Token), M'.members = M.members ∧
      us = M'.tokens ++ r.val :: us' ∧ Token.stripFrom (some r.val) us' = ts := by
  cases M with
  | done =>
    rcases Token.of_stripFrom_cons h with ⟨us', rfl, hrest⟩ | ⟨comma, us', -, -, rfl, hrest⟩
    · exact ⟨.done, us', rfl, rfl, hrest⟩
    · exact ⟨.trailing comma, us', rfl, rfl, hrest⟩
  | trailing comma => cases hstrict
  | next comma key colon value rest =>
    simp only [MembersTail.tokens, List.cons_append, List.append_assoc] at h
    obtain ⟨hvalue, htail⟩ := Bool.or_eq_false_iff.mp hstrict
    obtain ⟨us₁, rfl, h₁⟩ := Token.of_stripFrom_terminal rfl h
    obtain ⟨us₂, rfl, h₂⟩ := Token.of_stripFrom_not_closes key.not_closes h₁
    obtain ⟨us₃, rfl, h₃⟩ := Token.of_stripFrom_terminal rfl h₂
    obtain ⟨value', us₄, last, hvalue', rfl, h₄⟩ := value.of_strip hvalue h₃
    obtain ⟨rest', us', hmembers, rfl, hrest⟩ := rest.of_strip htail h₄
    refine ⟨.next comma key colon value' rest', us', ?_, by simp [MembersTail.tokens], hrest⟩
    rw [MembersTail.members, MembersTail.members, hvalue', hmembers]

end

/-! ## Values -/

/-- Apart from trailing commas, the value of a derivation decides whether it is accepted. -/
theorem Tree.Accepted.of_value_eq {d d' : Dialect} {T T' : Tree} (hT : T.Accepted d)
    (hvalue : T'.value = T.value) (hlimit : d'.depthLimit = d.depthLimit)
    (htrailing : T'.hasTrailingComma → d'.trailingCommas) : T'.Accepted d' where
  trailing := htrailing
  keys := by
    rw [hvalue]
    exact hT.keys
  depth := by
    rw [hvalue, hlimit]
    exact hT.depth

namespace Value

/-- Trailing commas are no more than a way of writing: where they are allowed, tokens have the value
    that the stripped tokens have where they are not. -/
theorem ofTokens_strip (d : Dialect) (ts : List Token) (v : Value) :
    ofTokens { d with trailingCommas := true } ts = .ok v ↔
      ofTokens { d with trailingCommas := false } (Token.strip ts) = .ok v := by
  have hbody : Token.body (Token.strip ts) = Token.strip (Token.body ts) := Token.body_stripFrom ts
  constructor
  · intro h
    obtain ⟨T, hT, htokens, rfl⟩ := tree_of_ofTokens h
    obtain ⟨last, -, hstrip⟩ := T.strip_tokens none []
    obtain ⟨hvalue, hstrict⟩ := T.pruned_spec
    have hpruned : T.pruned.tokens = Token.body (Token.strip ts) := by
      rw [hbody, ← htokens, Token.strip, ← T.tokens.append_nil, hstrip]
      simp [Token.stripFrom]
    rw [← hvalue]
    exact ofTokens_of_tree (hT.of_value_eq hvalue rfl (by simp [hstrict])) hpruned
  · intro h
    obtain ⟨T, hT, htokens, rfl⟩ := tree_of_ofTokens h
    have hstrict : T.hasTrailingComma = false := by
      rw [← Bool.not_eq_true]
      intro htrailing
      cases hT.trailing htrailing
    have hstrip : Token.stripFrom none (Token.body ts) = T.tokens ++ [] := by
      rw [List.append_nil, htokens, hbody]
      rfl
    obtain ⟨T', us, last, hvalue, hts, hnil⟩ := T.of_strip hstrict hstrip
    cases Token.of_stripFrom_nil hnil
    rw [List.append_nil] at hts
    rw [← hvalue]
    exact ofTokens_of_tree (hT.of_value_eq hvalue rfl fun _ => rfl) hts.symm

end Value

-- Neighbours do not tell a key from a value: behind a key the comma goes too, but without a colon
-- there is no value before or after.
example :
    (Token.strip ([.leftBrace, .string, .comma, .rightBrace].map fun k => { kind := k })).map
      Token.kind = [.leftBrace, .string, .rightBrace] := by decide

end RelaxedJson
