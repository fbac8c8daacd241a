-- SUMMARY: Reading all values of a text is reading one value after the other.
import RelaxedJson.Proofs.Value.EntryPoints

/-!
# Sequences of values

No token sequence with a value is the start of another one, so tokens can be divided into values in
just one way (`Value.IsDivision.unique`). That is how all values of a text are read
(`Value.readAll_of_division`). A parser that goes on behind a value knows nothing of it: what has
been read shows only in the place of a trailing comma, and there is none before the value starts
(`Parser.run_result_congr`). So the first fault is the one that a fresh parser finds in the rest
(`Value.parseAll_divided`).
-/

namespace RelaxedJson

/-! ## What has been read before -/

/-- Where the token read last is matters only if it was a comma. -/
theorem Control.move_congr {d : Dialect} {c : Control} {p q : Position} (h : c.afterComma → p = q)
    (t : Token) : c.move d p t = c.move d q t := by
  obtain ⟨depth, goal, cs⟩ := c
  cases goal with
  | member keys comma =>
    cases comma with
    | false => simp [move]
    | true => rw [h rfl]
  | element comma =>
    cases comma with
    | false => simp [move]
    | true => rw [h rfl]
  | _ => rfl

namespace Parser

variable {σ ε : Type} {d : Dialect} {h : Handler σ ε}

theorem halt_result_congr (c : Control) (consumed consumed' rest : List Token) (t : Token) (s : σ) :
    (halt h c consumed rest t s).result = (halt h c consumed' rest t s).result := by
  unfold halt
  split <;> rfl

/-- What comes of tokens up to the end of input does not depend on the tokens in front of them. -/
theorem run_result_congr {c : Control} {consumed consumed' : List Token}
    (hc : c.afterComma → previous consumed = previous consumed') {ts : List Token}
    (hend : ∃ t ∈ ts, t.kind = .endOfInput) (s : σ) :
    (run d h c consumed s ts).result = (run d h c consumed' s ts).result := by
  induction ts generalizing c consumed consumed' s with
  | nil => simp at hend
  | cons t rest ih =>
    by_cases ht : t.kind = .endOfInput
    · rw [run, run, if_pos ht, if_pos ht]
      exact halt_result_congr c consumed consumed' (t :: rest) t s
    · have hrest : ∃ t ∈ rest, t.kind = .endOfInput := by simpa [ht] using hend
      rw [run, run, if_neg ht, if_neg ht, Control.move_congr hc t]
      rcases h.deliver (c.move d (previous consumed') t).before s with ⟨s₁, _ | failure⟩
      · cases (c.move d (previous consumed') t).verdict with
        | refuse e => rfl
        | take next report =>
          cases report with
          | error e => rfl
          | ok event =>
            dsimp only
            rcases h.deliver event s₁ with ⟨s₂, _ | failure⟩
            · dsimp only
              split
              · rfl
              · have hread : previous (t :: consumed) = previous (t :: consumed') := rfl
                exact ih (fun _ => hread) hrest s₂
            · rfl
      · rfl

end Parser

/-! ## Divisions -/

namespace Value

variable {d : Dialect}

/-- The tokens are divided into parts that have a value each, as far as that is possible. -/
structure IsDivision (d : Dialect) (ts : List Token) (parts : List (List Token))
    (rest : List Token) : Prop where
  join : parts.flatten ++ rest = ts
  values : ∀ part ∈ parts, ∃ v, ofTokens d part = .ok v
  stuck : ∀ front, front <+: rest → ¬ ∃ v, ofTokens d front = .ok v

theorem tree_of_part {part : List Token} {v : Value} (hpart : ∀ t ∈ part, t.kind ≠ .endOfInput)
    (h : ofTokens d part = .ok v) : ∃ T : Tree, T.Accepted d ∧ T.tokens = part ∧ T.value = v := by
  obtain ⟨T, hT, hbody, hvalue⟩ := tree_of_ofTokens h
  rw [Token.body_eq_self hpart] at hbody
  exact ⟨T, hT, hbody, hvalue⟩

theorem ofTokens_tokens {T : Tree} (hT : T.Accepted d) : ofTokens d T.tokens = .ok T.value :=
  ofTokens_of_tree hT (Token.body_eq_self T.kind_ne_end).symm

/-- Without the part in front, a division divides the tokens behind it. -/
theorem IsDivision.tail {ts part rest : List Token} {parts : List (List Token)}
    (h : IsDivision d ts (part :: parts) rest) :
    ∃ v more, ofTokens d part = .ok v ∧ ts = part ++ more ∧ IsDivision d more parts rest := by
  obtain ⟨v, hv⟩ := h.values part List.mem_cons_self
  refine ⟨v, parts.flatten ++ rest, hv, ?_, rfl, ?_, h.stuck⟩
  · rw [← h.join, List.flatten_cons, List.append_assoc]
  · intro part hpart
    exact h.values part (List.mem_cons_of_mem _ hpart)

theorem IsDivision.cons {part more rest : List Token} {parts : List (List Token)} {v : Value}
    (hv : ofTokens d part = .ok v) (h : IsDivision d more parts rest) :
    IsDivision d (part ++ more) (part :: parts) rest where
  join := by rw [List.flatten_cons, List.append_assoc, h.join]
  values := List.forall_mem_cons.mpr ⟨⟨v, hv⟩, h.values⟩
  stuck := h.stuck

/-- Tokens can be divided into values. -/
theorem exists_isDivision (d : Dialect) (ts : List Token) :
    ∃ parts rest, IsDivision d ts parts rest := by
  induction hlength : ts.length using Nat.strong_induction_on generalizing ts with
  | _ n ih =>
    by_cases hfront : ∃ front, front <+: ts ∧ ∃ v, ofTokens d front = .ok v
    · obtain ⟨front, ⟨more, rfl⟩, v, hv⟩ := hfront
      have hne : front ≠ [] := by
        rintro rfl
        cases hv
      have hshorter : more.length < n := by
        have := List.length_pos_iff.mpr hne
        rw [← hlength, List.length_append]
        omega
      obtain ⟨parts, rest, hmore⟩ := ih more.length hshorter more rfl
      exact ⟨front :: parts, rest, hmore.cons hv⟩
    · refine ⟨[], ts, rfl, List.forall_mem_nil _, ?_⟩
      intro front hprefix hv
      exact hfront ⟨front, hprefix, hv⟩

/-- In front of the end of input, tokens can be divided into values in one way only. -/
theorem IsDivision.unique {ts rest rest' : List Token} {parts parts' : List (List Token)}
    (hts : ∀ t ∈ ts, t.kind ≠ .endOfInput) (h : IsDivision d ts parts rest)
    (h' : IsDivision d ts parts' rest') : parts = parts' ∧ rest = rest' := by
  induction parts generalizing ts parts' with
  | nil =>
    have hrest : rest = ts := h.join
    cases parts' with
    | nil => exact ⟨rfl, hrest.trans h'.join.symm⟩
    | cons part' parts' =>
      obtain ⟨v', more', hv', rfl, -⟩ := h'.tail
      refine absurd ⟨v', hv'⟩ (h.stuck part' ?_)
      rw [hrest]
      exact List.prefix_append part' more'
  | cons part parts ih =>
    obtain ⟨v, more, hv, rfl, htail⟩ := h.tail
    cases parts' with
    | nil =>
      have hrest' : rest' = part ++ more := h'.join
      refine absurd ⟨v, hv⟩ (h'.stuck part ?_)
      rw [hrest']
      exact List.prefix_append part more
    | cons part' parts' =>
      obtain ⟨v', more', hv', hsplit, htail'⟩ := h'.tail
      have hpart : ∀ t ∈ part, t.kind ≠ .endOfInput := fun t ht =>
        hts t (List.mem_append_left _ ht)
      have hpart' : ∀ t ∈ part', t.kind ≠ .endOfInput := fun t ht =>
        hts t (hsplit ▸ List.mem_append_left _ ht)
      -- One part would be the start of the other, and so they are the same.
      obtain ⟨T, -, rfl, -⟩ := tree_of_part hpart hv
      obtain ⟨T', -, rfl, -⟩ := tree_of_part hpart' hv'
      obtain ⟨rfl, rfl⟩ := T.tokens_append_inj T' hsplit
      obtain ⟨rfl, rfl⟩ := ih (fun t ht => hts t (List.mem_append_right _ ht)) htail htail'
      exact ⟨rfl, rfl⟩

/-! ## Reading -/

/-- What a parser makes of tokens that no value starts is what it would make of them alone. -/
theorem value_of_stuck {rest : List Token} {last : Token} (consumed : List Token)
    (hlast : last.kind = .endOfInput)
    (hstuck : ∀ front, front <+: rest → ¬ ∃ v, ofTokens d front = .ok v) :
    ∃ e, (Parser.value d Builder.handle { consumed, rest := rest ++ [last] } []).result =
        .error (.malformed e) ∧
      ofTokens d (rest ++ [last]) = .error (.malformed e) := by
  have hend : ∃ t ∈ rest ++ [last], t.kind = .endOfInput := ⟨last, by simp, hlast⟩
  rcases Parser.value_cases d (.ofTokens (rest ++ [last])) with ⟨T, more, hT, hrest, -⟩ | ⟨e, he, -⟩
  · -- A derivation in front of the end of input would be a prefix of the rest.
    have hprefix : T.tokens <+: rest := by
      have hall : T.tokens <+: rest ++ [last] := ⟨more, hrest.symm⟩
      rcases List.prefix_concat_iff.mp hall with hwhole | hprefix
      · have hmem : last ∈ T.tokens := by simp [hwhole]
        exact absurd hlast (T.kind_ne_end last hmem)
      · exact hprefix
    exact absurd ⟨T.value, ofTokens_tokens (Tree.allowed_iff.mp hT)⟩ (hstuck T.tokens hprefix)
  · refine ⟨e, ?_, ?_⟩
    · have hstart : Control.afterComma { depth := 0 } → Parser.previous consumed = .origin := nofun
      exact (Parser.run_result_congr hstart hend []).trans he
    · simp only [ofTokens, Parser.parse, he]

/-- Reading all values goes along a division of the tokens. -/
theorem readAll_of_division {ts rest : List Token} {parts : List (List Token)} {last : Token}
    (h : IsDivision d ts parts rest) (hts : ∀ t ∈ ts, t.kind ≠ .endOfInput)
    (hlast : last.kind = .endOfInput) (consumed : List Token) (found : List Value) :
    (readAll d { consumed, rest := ts ++ [last] } found).1.map .ok =
        found.reverse.map .ok ++ parts.map (ofTokens d) ∧
      ((readAll d { consumed, rest := ts ++ [last] } found).2 = none ∧ rest = [] ∨
        ∃ f, (readAll d { consumed, rest := ts ++ [last] } found).2 = some f ∧ rest ≠ [] ∧
          ofTokens d (rest ++ [last]) = .error f) := by
  induction parts generalizing ts consumed found with
  | nil =>
    have hrest : rest = ts := h.join
    subst hrest
    cases rest with
    | nil =>
      have hend : Token.AtEnd ([] ++ [last]) := by
        rintro _ ⟨⟩
        exact hlast
      rw [readAll_of_atEnd hend]
      exact ⟨by simp, .inl ⟨rfl, rfl⟩⟩
    | cons t rest =>
      have hmore : ¬ Token.AtEnd (t :: rest ++ [last]) := fun hend =>
        hts t List.mem_cons_self (hend t rfl)
      obtain ⟨e, he, hfresh⟩ := value_of_stuck consumed hlast h.stuck
      rw [readAll_of_malformed hmore he]
      exact ⟨by simp, .inr ⟨_, rfl, by simp, hfresh⟩⟩
  | cons part parts ih =>
    obtain ⟨v, more, hv, rfl, htail⟩ := h.tail
    obtain ⟨T, hT, rfl, rfl⟩ := tree_of_part (fun t ht => hts t (List.mem_append_left _ ht)) hv
    have hmore : ∀ t ∈ more, t.kind ≠ .endOfInput := fun t ht =>
      hts t (List.mem_append_right _ ht)
    rw [readAll_of_tree (p := { consumed, rest := T.tokens ++ more ++ [last] })
      (Tree.allowed_iff.mpr hT) (List.append_assoc _ _ _)]
    obtain ⟨hvalues, hfault⟩ := ih htail hmore (T.tokens.reverse ++ consumed) (T.value :: found)
    refine ⟨?_, hfault⟩
    rw [hvalues, List.map_cons, hv]
    simp

/-- Reading all values of a text is reading one value after the other. There is one way to divide
    its tokens into parts that have a value and a rest that does not start with one. The values are
    those of the parts, and if there is a rest, its fault is the fault of the text. -/
theorem parseAll_divided (d : Dialect) (text : Bytes) :
    match Token.scan d text with
    | .error e => parseAll d text = ([], some (.malformed e))
    | .ok us =>
      ∃ ts last parts rest, us = ts ++ [last] ∧ (∀ t ∈ ts, t.kind ≠ .endOfInput) ∧
        last.kind = .endOfInput ∧ IsDivision d ts parts rest ∧
        (∀ parts' rest', IsDivision d ts parts' rest' → parts' = parts ∧ rest' = rest) ∧
        (parseAll d text).1.map .ok = parts.map (ofTokens d) ∧
        ((parseAll d text).2 = none ↔ rest = []) ∧
        (rest ≠ [] →
          ∃ f, (parseAll d text).2 = some f ∧ ofTokens d (rest ++ [last]) = .error f) := by
  cases hscan : Token.scan d text with
  | error e => simp only [parseAll, hscan]
  | ok us =>
    obtain ⟨ts, last, rfl⟩ := Token.exists_concat_of_scan hscan
    obtain ⟨hts, hlast⟩ := Token.kind_of_scan hscan
    obtain ⟨parts, rest, hdivision⟩ := exists_isDivision d ts
    have hall : parseAll d text = readAll d { rest := ts ++ [last] } [] := by
      simp only [parseAll, hscan]
      rfl
    obtain ⟨hvalues, hfault⟩ := readAll_of_division hdivision hts hlast [] []
    rw [← hall] at hvalues hfault
    refine ⟨ts, last, parts, rest, rfl, hts, hlast, hdivision, ?_, hvalues, ?_, ?_⟩
    · intro parts' rest' h'
      exact h'.unique hts hdivision
    · rcases hfault with ⟨hnone, hrest⟩ | ⟨f, hf, hrest, -⟩
      · simp [hnone, hrest]
      · simp [hf, hrest]
    · intro hrest
      rcases hfault with ⟨-, hnil⟩ | ⟨f, hf, -, herror⟩
      · exact absurd hnil hrest
      · exact ⟨f, hf, herror⟩

end Value

end RelaxedJson
