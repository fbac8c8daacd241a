-- SUMMARY: A parser stays coherent over any sequence of calls, whatever fails in them.
import RelaxedJson.Proofs.Grammar.Acceptance

/-!
# Calls

A parser that fails stays where it failed, and a later call goes on from there. All that a call ever
does to a parser is to move it over tokens, and to count the brackets among them
(`Parser.Advances`). The count is right at every point where a run can be broken off, by a syntax
error as well as by a handler: the depth exceeds the brackets that are open in the value at hand by
the same number throughout (`Control.move_reckons`). So place and depth of a parser agree after any
sequence of calls (`Parser.calls_coherent`).
-/

namespace RelaxedJson

/-! ## Brackets -/

/-- Opening brackets. -/
def Kind.opens : Kind → Bool
  | .leftBrace | .leftBracket => .true
  | _                         => .false

/-- Closing brackets. -/
def Kind.closes : Kind → Bool
  | .rightBrace | .rightBracket => .true
  | _                           => .false

/-- The number of opening brackets minus the number of closing brackets. -/
def Token.balance (ts : List Token) : Int :=
  ts.countP (·.kind.opens) - ts.countP (·.kind.closes)

namespace Token

@[simp] theorem balance_nil : balance [] = 0 := rfl

theorem balance_append (ts us : List Token) : balance (ts ++ us) = balance ts + balance us := by
  simp only [balance, List.countP_append]
  omega

theorem balance_of_kind {t : Token} {k : Kind} (h : t.kind = k) :
    balance [t] = k.opens.toNat - k.closes.toNat := by
  simp only [balance, List.countP_singleton, h, Bool.toNat]
  cases k.opens <;> cases k.closes <;> rfl

theorem balance_key {t : Token} {k : Bytes} (h : t.key? = some k) : balance [t] = 0 := by
  unfold key? at h
  split at h
  · exact balance_of_kind ‹_›
  · exact balance_of_kind ‹_›
  · cases h

end Token

/-! ## The automaton -/

namespace Control

/-- The number of brackets that are open in the value at hand. -/
def opened (c : Control) : Nat :=
  match c.goal with
  | .value    => c.contexts.length
  | .complete => 0
  | _         => c.contexts.length + 1

theorem opened_finish (depth : Nat) (cs : List Context) : (finish depth cs).opened = cs.length := by
  cases cs with
  | nil => rfl
  | cons ctx cs => cases ctx <;> rfl

theorem depth_finish (depth : Nat) (cs : List Context) : (finish depth cs).depth = depth := by
  cases cs with
  | nil => rfl
  | cons ctx cs => cases ctx <;> rfl

/-- The control counts the brackets that are open, above the depth `base`. -/
def Counts (base : Nat) (c : Control) : Prop :=
  c.depth = base + c.opened

variable {d : Dialect} {base : Nat} {c next : Control} {t : Token} {p : Position}
  {report : Except SyntaxError (Option Event)}

theorem counts_finish {depth : Nat} {cs : List Context} (h : depth = base + cs.length) :
    (finish depth cs).Counts base := by
  rw [Counts, depth_finish, opened_finish, h]

/-- If the token is read, the depth changes as its kind demands, and the control goes on to count.
    That goes also for a token that turns out to be a fault. -/
def Reckons (base depth : Nat) (t : Token) (v : Verdict) : Prop :=
  ∀ next report, v = .take next report →
    next.Counts base ∧ (next.depth : Int) = depth + Token.balance [t]

theorem reckons_refuse {depth : Nat} {e : SyntaxError} : Reckons base depth t (.refuse e) := by
  intro next report h
  cases h

/-- A token that is no bracket is read without a change of depth. -/
theorem reckons_take {depth : Nat} (ht : Token.balance [t] = 0) (hcounts : next.Counts base)
    (hdepth : next.depth = depth) : Reckons base depth t (.take next report) := by
  rintro _ _ ⟨⟩
  exact ⟨hcounts, by rw [ht, hdepth, Int.add_zero]⟩

theorem opening_reckons {depth : Nat} {cs : List Context} {goal : Goal} {event : Event}
    (ht : Token.balance [t] = 1) (hgoal : opened ⟨depth + 1, goal, cs⟩ = cs.length + 1)
    (hdepth : depth = base + cs.length) :
    Reckons base depth t (opening d depth cs t goal event) := by
  rintro _ _ ⟨⟩
  refine ⟨?_, ?_⟩
  · rw [Counts, hgoal, hdepth]
    rfl
  · rw [ht]
    rfl

/-- A closing bracket ends a level that was opened, so the depth does not stop at zero. -/
theorem closing_reckons {depth : Nat} {cs : List Context} {event : Event}
    (ht : Token.balance [t] = -1) (hdepth : depth = base + (cs.length + 1)) :
    Reckons base depth t (closing depth cs event) := by
  rintro _ _ ⟨⟩
  refine ⟨counts_finish (by omega), ?_⟩
  rw [depth_finish, ht]
  omega

theorem value_reckons {depth : Nat} {cs : List Context} (hdepth : depth = base + cs.length) :
    Reckons base depth t (value d depth cs t) := by
  have hscalar : ∀ report, Token.balance [t] = 0 →
      Reckons base depth t (.take (finish depth cs) report) := by
    intro report ht
    exact reckons_take ht (counts_finish hdepth) (depth_finish depth cs)
  unfold value
  split
  · exact opening_reckons (Token.balance_of_kind ‹_›) rfl hdepth
  · exact opening_reckons (Token.balance_of_kind ‹_›) rfl hdepth
  · exact hscalar _ (Token.balance_of_kind ‹_›)
  · exact hscalar _ (Token.balance_of_kind ‹_›)
  · exact hscalar _ (Token.balance_of_kind ‹_›)
  · split
    · exact hscalar _ (Token.balance_of_kind ‹_›)
    · exact reckons_refuse
  · split
    · exact hscalar _ (Token.balance_of_kind ‹_›)
    · exact reckons_refuse
  · exact reckons_refuse

theorem key_reckons {depth : Nat} {cs : List Context} {keys : List Bytes}
    (hdepth : depth = base + (cs.length + 1)) : Reckons base depth t (key depth cs keys t) := by
  unfold key
  split
  · exact reckons_refuse
  · exact reckons_take (Token.balance_key ‹_›) hdepth rfl

/-- One step of a control that counts. -/
theorem move_reckons (hc : c.Counts base) : Reckons base c.depth t (c.move d p t).verdict := by
  obtain ⟨depth, goal, cs⟩ := c
  cases goal with
  | value => exact value_reckons hc
  | member keys comma =>
    simp only [move]
    split
    · exact key_reckons hc
    · rename_i hk
      split
      · exact reckons_refuse
      · exact closing_reckons (Token.balance_of_kind (not_not.mp hk)) hc
  | colon keys =>
    simp only [move]
    split
    · exact reckons_take (Token.balance_of_kind ‹_›) hc rfl
    · exact reckons_refuse
  | memberEnd keys =>
    simp only [move]
    split
    · exact reckons_take (Token.balance_of_kind ‹_›) hc rfl
    · exact closing_reckons (Token.balance_of_kind ‹_›) hc
    · exact reckons_refuse
  | element comma =>
    simp only [move]
    split
    · exact value_reckons hc
    · rename_i hk
      split
      · exact reckons_refuse
      · exact closing_reckons (Token.balance_of_kind (not_not.mp hk)) hc
  | elementEnd =>
    simp only [move]
    split
    · exact reckons_take (Token.balance_of_kind ‹_›) hc rfl
    · exact closing_reckons (Token.balance_of_kind ‹_›) hc
    · exact reckons_refuse
  | complete => exact reckons_refuse

end Control

/-! ## Runs -/

namespace Parser

/-- All that can happen to a parser: it moves over tokens other than the end of input, and its depth
    changes with their brackets. -/
structure Advances (p q : Parser) (used : List Token) : Prop where
  consumed : q.consumed = used.reverse ++ p.consumed
  rest : p.rest = used ++ q.rest
  unended : ∀ t ∈ used, t.kind ≠ .endOfInput
  depth : (q.depth : Int) = p.depth + Token.balance used

namespace Advances

variable {p q r : Parser} {used more : List Token}

theorem refl (p : Parser) : p.Advances p [] where
  consumed := rfl
  rest := rfl
  unended := List.forall_mem_nil _
  depth := by simp

theorem trans (h : p.Advances q used) (h' : q.Advances r more) : p.Advances r (used ++ more) where
  consumed := by rw [h'.consumed, h.consumed, List.reverse_append, List.append_assoc]
  rest := by rw [h.rest, h'.rest, List.append_assoc]
  unended := List.forall_mem_append.mpr ⟨h.unended, h'.unended⟩
  depth := by rw [h'.depth, h.depth, Token.balance_append, Int.add_assoc]

/-- One token is read. -/
theorem single {consumed rest : List Token} {t : Token} {depth depth' : Nat}
    (ht : t.kind ≠ .endOfInput) (hdepth : (depth' : Int) = depth + Token.balance [t]) :
    Advances { consumed, rest := t :: rest, depth }
      { consumed := t :: consumed, rest, depth := depth' } [t] where
  consumed := rfl
  rest := rfl
  unended := by simpa using ht
  depth := hdepth

theorem length_le (h : p.Advances q used) : p.consumed.length ≤ q.consumed.length := by
  rw [h.consumed, List.length_append]
  omega

theorem length_lt (h : p.Advances q used) (hne : used ≠ []) :
    p.consumed.length < q.consumed.length := by
  have := List.length_pos_iff.mpr hne
  rw [h.consumed, List.length_append, List.length_reverse]
  omega

end Advances

variable {σ ε : Type} {d : Dialect} {h : Handler σ ε}

theorem parser_of_halt (h : Handler σ ε) (c : Control) (consumed rest : List Token) (t : Token)
    (s : σ) : (halt h c consumed rest t s).parser = { consumed, rest, depth := c.depth } := by
  unfold halt
  split <;> rfl

/-- Wherever a run is broken off, the parser has moved over tokens and counted their brackets. A run
    that succeeds has moved on, and ends at the depth where it started. -/
theorem run_advances {c : Control} {base : Nat} (hc : c.Counts base) (consumed : List Token) (s : σ)
    (ts : List Token) :
    ∃ used,
      Advances { consumed, rest := ts, depth := c.depth } (run d h c consumed s ts).parser used ∧
      ((run d h c consumed s ts).result = .ok () →
        used ≠ [] ∧ (run d h c consumed s ts).parser.depth = base) := by
  fun_induction run d h c consumed s ts with
  | case1 c consumed s =>
    rw [parser_of_halt]
    exact ⟨[], .refl _, fun hok => absurd hok (halt_result_ne h c consumed _ _ s)⟩
  | case2 c consumed s t rest =>
    rw [parser_of_halt]
    exact ⟨[], .refl _, fun hok => absurd hok (halt_result_ne h c consumed _ _ s)⟩
  | case3 | case4 =>
    refine ⟨[], .refl _, ?_⟩
    intro hok
    cases hok
  | case5 c consumed s t rest hend _ _ next _ e hverdict =>
    obtain ⟨-, hdepth⟩ := Control.move_reckons hc next _ hverdict
    refine ⟨[t], .single hend hdepth, ?_⟩
    intro hok
    cases hok
  | case6 c consumed s t rest hend _ _ next _ event _ e _ hverdict =>
    obtain ⟨-, hdepth⟩ := Control.move_reckons hc next _ hverdict
    refine ⟨[t], .single hend hdepth, ?_⟩
    intro hok
    cases hok
  | case7 c consumed s t rest hend _ _ next _ event _ _ hcomplete hverdict =>
    obtain ⟨hnext, hdepth⟩ := Control.move_reckons hc next _ hverdict
    refine ⟨[t], .single hend hdepth, fun _ => ⟨by simp, ?_⟩⟩
    simpa [Control.Counts, Control.opened, hcomplete] using hnext
  | case8 c consumed s t rest hend _ _ next event _ _ _ hverdict ih =>
    obtain ⟨hnext, hdepth⟩ := Control.move_reckons hc next _ hverdict
    obtain ⟨used, hadvances, hok⟩ := ih hnext
    exact ⟨t :: used, (Advances.single hend hdepth).trans hadvances,
      fun hresult => ⟨by simp, (hok hresult).2⟩⟩

theorem value_advances (d : Dialect) (h : Handler σ ε) (p : Parser) (s : σ) :
    ∃ used, p.Advances (p.value d h s).parser used ∧
      ((p.value d h s).result = .ok () → used ≠ [] ∧ (p.value d h s).parser.depth = p.depth) := by
  have hstart : Control.Counts p.depth { depth := p.depth } := rfl
  exact run_advances hstart p.consumed s p.rest

theorem run_result_ne_exhausted (d : Dialect) (h : Handler σ ε) (c : Control)
    (consumed : List Token) (s : σ) (ts : List Token) :
    (run d h c consumed s ts).result ≠ .error .exhausted := by
  fun_induction run d h c consumed s ts with
  | case1 | case2 =>
    unfold halt
    split <;> simp
  | case8 _ _ _ _ _ _ _ _ _ _ _ _ _ _ ih => exact ih
  | _ => simp

/-! ## Sequences of calls -/

/-- What can be asked of a parser. -/
inductive Call where
  /-- Read one value that has to be followed by the end of input. -/
  | parse
  /-- Read the next value, unless there is none. -/
  | parseOne
  deriving DecidableEq, Repr

/-- The outcome of a call. -/
def call (d : Dialect) (h : Handler σ ε) (p : Parser) (s : σ) : Call → Outcome σ ε
  | .parse    => p.parse d h s
  | .parseOne => p.parseOne d h s

/-- The parser and the state of the handler after one call and another. -/
def calls (d : Dialect) (h : Handler σ ε) (p : Parser) (s : σ) : List Call → Parser × σ
  | []          => (p, s)
  | call :: more => calls d h (p.call d h s call).parser (p.call d h s call).state more

/-- The number of tokens read so far. -/
def cursor (p : Parser) : Nat :=
  p.consumed.length

/-- The parser is at a place in the given tokens that it can have got to, and knows how many
    brackets are open there. -/
structure Coherent (ts : List Token) (p : Parser) : Prop where
  consumed : p.consumed.reverse = ts.take p.cursor
  rest : p.rest = ts.drop p.cursor
  cursor_le : p.cursor ≤ ts.length
  /-- The end of input is not read. -/
  unended : ∀ t ∈ ts.take p.cursor, t.kind ≠ .endOfInput
  depth : (p.depth : Int) = Token.balance (ts.take p.cursor)

theorem coherent_of_advances {ts used : List Token} {p : Parser}
    (h : (ofTokens ts).Advances p used) : p.Coherent ts := by
  have hconsumed : p.consumed.reverse = used := by
    rw [h.consumed]
    simp [ofTokens]
  have hcursor : p.cursor = used.length := by rw [cursor, ← List.length_reverse, hconsumed]
  have hts : ts = used ++ p.rest := h.rest
  have htake : ts.take p.cursor = used := by rw [hts, hcursor, List.take_left]
  refine ⟨?_, ?_, ?_, ?_, ?_⟩
  · rw [hconsumed, htake]
  · rw [hts, hcursor, List.drop_left]
  · rw [hts, hcursor, List.length_append]
    omega
  · rw [htake]
    exact h.unended
  · rw [htake, h.depth]
    simp [ofTokens]

theorem parser_of_parse (d : Dialect) (h : Handler σ ε) (p : Parser) (s : σ) :
    (p.parse d h s).parser = (p.value d h s).parser := by
  simp only [parse]
  split
  · rfl
  · split <;> rfl

/-- One call. -/
theorem call_advances (d : Dialect) (h : Handler σ ε) (p : Parser) (s : σ) (c : Call) :
    ∃ used, p.Advances (p.call d h s c).parser used ∧
      ((p.call d h s c).result = .ok () → used ≠ [] ∧ (p.call d h s c).parser.depth = p.depth) := by
  obtain ⟨used, hadvances, hok⟩ := value_advances d h p s
  cases c with
  | parse =>
    rw [call, parser_of_parse]
    exact ⟨used, hadvances, fun hresult => hok (value_of_parse hresult).1⟩
  | parseOne =>
    simp only [call, parseOne]
    split
    · exact ⟨[], .refl p, nofun⟩
    · exact ⟨used, hadvances, hok⟩

/-- All calls. -/
theorem calls_advances (d : Dialect) (h : Handler σ ε) (p : Parser) (s : σ) (cs : List Call) :
    ∃ used, p.Advances (calls d h p s cs).1 used := by
  induction cs generalizing p s with
  | nil => exact ⟨[], .refl p⟩
  | cons c cs ih =>
    obtain ⟨used, hcall, -⟩ := call_advances d h p s c
    obtain ⟨more, hmore⟩ := ih (p.call d h s c).parser (p.call d h s c).state
    exact ⟨used ++ more, hcall.trans hmore⟩

/-! ## At the end of input -/

section

variable {p : Parser}

theorem parseOne_of_atEnd (hend : Token.AtEnd p.rest) (s : σ) :
    p.parseOne d h s =
      { parser := p, state := (h (.endOfInput p.peek) s).1, result := .error .exhausted } := by
  rw [parseOne, if_pos ((peek_kind_eq_iff p).mpr hend)]

/-- There is no further value exactly at the end of input. -/
theorem atEnd_of_exhausted {s : σ} (hresult : (p.parseOne d h s).result = .error .exhausted) :
    Token.AtEnd p.rest := by
  by_contra hmore
  rw [parseOne, if_neg (fun hend => hmore ((peek_kind_eq_iff p).mp hend))] at hresult
  exact run_result_ne_exhausted d h _ _ s _ hresult

theorem value_of_atEnd (hend : Token.AtEnd p.rest) (s : σ) : (p.value d h s).parser = p := by
  obtain ⟨consumed, rest, depth⟩ := p
  cases rest with
  | nil => exact parser_of_halt h _ consumed [] _ s
  | cons t rest =>
    rw [value, run, if_pos (hend t rfl)]
    exact parser_of_halt h _ consumed (t :: rest) t s

theorem call_of_atEnd (hend : Token.AtEnd p.rest) (s : σ) (c : Call) :
    (p.call d h s c).parser = p := by
  cases c with
  | parse => rw [call, parser_of_parse, value_of_atEnd hend]
  | parseOne => rw [call, parseOne_of_atEnd hend]

theorem calls_of_atEnd (hend : Token.AtEnd p.rest) (s : σ) (cs : List Call) :
    (calls d h p s cs).1 = p := by
  induction cs generalizing s with
  | nil => rfl
  | cons c cs ih =>
    rw [calls, call_of_atEnd hend]
    exact ih _

end

/-- A parser stays coherent over any sequence of calls, with any handler: after each call its place
    and depth agree. No call moves it back, and a call that succeeds moves it on and leaves the
    depth as it was. Once there is no further value, nothing changes any more, and each attempt to
    read one reports the end of input and nothing else. -/
theorem calls_coherent (d : Dialect) (h : Handler σ ε) (s : σ) (ts : List Token) (cs : List Call) :
    let p := (calls d h (ofTokens ts) s cs).1
    let s' := (calls d h (ofTokens ts) s cs).2
    p.Coherent ts ∧
    (∀ c, let o := p.call d h s' c
      o.parser.Coherent ts ∧ p.cursor ≤ o.parser.cursor ∧
      (o.result = .ok () → o.parser.depth = p.depth ∧ p.cursor < o.parser.cursor)) ∧
    ((p.parseOne d h s').result = .error .exhausted → ∀ more,
      let q := (calls d h p s' (.parseOne :: more)).1
      let s'' := (calls d h p s' (.parseOne :: more)).2
      q = p ∧
      q.parseOne d h s'' =
        { parser := q, state := (h (.endOfInput q.peek) s'').1, result := .error .exhausted }) := by
  intro p s'
  obtain ⟨used, hadvances⟩ : ∃ used, (ofTokens ts).Advances p used :=
    calls_advances d h (ofTokens ts) s cs
  refine ⟨coherent_of_advances hadvances, fun c => ?_, fun hresult more => ?_⟩
  · obtain ⟨more, hcall, hok⟩ := call_advances d h p s' c
    refine ⟨coherent_of_advances (hadvances.trans hcall), hcall.length_le, fun hresult => ?_⟩
    obtain ⟨hne, hdepth⟩ := hok hresult
    exact ⟨hdepth, hcall.length_lt hne⟩
  · have hend := atEnd_of_exhausted hresult
    have hsame := calls_of_atEnd (d := d) (h := h) hend s' (.parseOne :: more)
    refine ⟨hsame, ?_⟩
    exact parseOne_of_atEnd (by rw [hsame]; exact hend) _

end Parser

end RelaxedJson
