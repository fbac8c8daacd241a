-- SUMMARY: A parser stops at the first token that no continuation can save, and blames it.
import Mathlib.Data.Fintype.EquivFin
import RelaxedJson.Proofs.Grammar.Acceptance

/-!
# Prefixes

Whatever the automaton has read can be completed to a value (`Control.completable`): open brackets
can be closed, a missing value can be null, and there is always one more key. A token that the
automaton does not accept, on the other hand, is fatal whatever follows it, since the tokens alone
decide its course (`Reads.not_cons`). So a parser that fails has read as far as the input makes
sense (`Parser.stuck_of_run`), and its error is at the next token
(`Parser.parse_error_at_first_hopeless`). Only a trailing comma is blamed itself and not the bracket
behind it.
-/

namespace RelaxedJson

/-! ## Completions -/

/-- There is always one more key. -/
theorem Key.exists_fresh (keys : List Bytes) : ∃ key : Key, key.text ∉ keys := by
  obtain ⟨text, htext⟩ := Infinite.exists_notMem_finset keys.toFinset
  refine ⟨⟨{ kind := .string, literal := some (.string text) }, text, rfl⟩, ?_⟩
  simpa using htext

namespace Control

/-- The automaton can get from here to the end of a value. -/
def Completable (d : Dialect) (c : Control) : Prop :=
  ∃ ts es last, Reads d c ts es last ∧ last.goal = .complete

variable {d : Dialect} {c next : Control} {t : Token} {es : List Event}

theorem Completable.of_accept (hnext : next.Completable d) (h : c.accept? d t = some (es, next)) :
    c.Completable d := by
  obtain ⟨ts, fs, last, hread, hlast⟩ := hnext
  exact ⟨t :: ts, es ++ fs, last, .cons h hread, hlast⟩

/-- Behind a value, what is open can be closed. -/
theorem completable_finish (d : Dialect) (depth : Nat) (cs : List Context) :
    (finish depth cs).Completable d := by
  induction cs generalizing depth with
  | nil => exact ⟨[], [], _, .nil, rfl⟩
  | cons ctx cs ih =>
    cases ctx with
    | object keys =>
      apply (ih (depth - 1)).of_accept
      exact accept?_memberEnd_close d depth cs keys ⟨{ kind := .rightBrace }, rfl⟩
    | array =>
      apply (ih (depth - 1)).of_accept
      exact accept?_elementEnd_close d depth cs ⟨{ kind := .rightBracket }, rfl⟩

/-- Where a value is expected it can be null. -/
theorem completable_value (d : Dialect) (depth : Nat) (cs : List Context) :
    Completable d ⟨depth, .value, cs⟩ := by
  apply (completable_finish d depth cs).of_accept
  exact accept?_scalar d depth cs ⟨{ kind := .null }, .null, rfl⟩

theorem completable_colon (d : Dialect) (depth : Nat) (keys : List Bytes) (cs : List Context) :
    Completable d ⟨depth, .colon keys, cs⟩ := by
  apply (completable_value d depth (.object keys :: cs)).of_accept
  exact accept?_colon d depth cs keys ⟨{ kind := .colon }, rfl⟩

/-- Every control can be completed, also behind a comma, where a closing bracket might be refused. -/
theorem completable (d : Dialect) (c : Control) : c.Completable d := by
  obtain ⟨depth, goal, cs⟩ := c
  cases goal with
  | value => exact completable_value d depth cs
  | member keys comma =>
    obtain ⟨key, hnew⟩ := Key.exists_fresh keys
    apply (completable_colon d depth (key.text :: keys) cs).of_accept
    exact accept?_key d depth cs key hnew comma
  | colon keys => exact completable_colon d depth keys cs
  | memberEnd keys => exact completable_finish d depth (.object keys :: cs)
  | element comma =>
    apply (completable_finish d depth (.array :: cs)).of_accept
    rw [accept?_element d depth cs (t := { kind := .null }) (by decide) comma]
    exact accept?_scalar d depth (.array :: cs) ⟨{ kind := .null }, .null, rfl⟩
  | elementEnd => exact completable_finish d depth (.array :: cs)
  | complete => exact ⟨[], [], _, .nil, rfl⟩

end Control

/-! ## Hopeless tokens -/

namespace Reads

variable {d : Dialect} {c next last : Control} {ts us : List Token} {t : Token} {es fs : List Event}

/-- A reading of a sequence goes by way of each of its prefixes. -/
theorem exists_of_append (h : Reads d c (ts ++ us) es last) :
    ∃ mid fs gs, Reads d c ts fs mid ∧ Reads d mid us gs last := by
  induction ts generalizing c es with
  | nil => exact ⟨c, [], es, .nil, h⟩
  | cons t ts ih =>
    cases h with
    | cons haccept hrest =>
      obtain ⟨mid, fs, gs, hfront, hback⟩ := ih hrest
      exact ⟨mid, _, gs, .cons haccept hfront, hback⟩

/-- No reading goes on past a token that is not accepted. -/
theorem not_cons (h : Reads d c ts es next) (ht : next.accept? d t = none) :
    ¬ Reads d c (ts ++ t :: us) fs last := by
  intro hmore
  obtain ⟨mid, _, _, hfront, hback⟩ := hmore.exists_of_append
  obtain ⟨-, rfl⟩ := h.unique hfront
  cases hback with
  | cons haccept _ =>
    rw [ht] at haccept
    cases haccept

/-- The end of input is not read. -/
theorem kind_ne_end (h : Reads d c ts es last) : ∀ t ∈ ts, t.kind ≠ .endOfInput := by
  induction h with
  | nil => exact List.forall_mem_nil _
  | cons haccept _ ih =>
    obtain ⟨hend, -⟩ := (Control.accept?_eq_some_iff .origin).mp haccept
    exact List.forall_mem_cons.mpr ⟨hend, ih⟩

end Reads

/-- Derivations are what is read from the start to the end of a value. -/
theorem Tree.exists_accepted_iff {d : Dialect} {ts : List Token} :
    (∃ T : Tree, T.Accepted d ∧ T.tokens = ts) ↔
      ∃ es last, Reads d { depth := 0 } ts es last ∧ last.goal = .complete := by
  constructor
  · rintro ⟨T, hT, rfl⟩
    exact ⟨T.events, _, T.reads d 0 [] (Tree.allowed_iff.mpr hT), rfl⟩
  · rintro ⟨es, last, hread, hlast⟩
    obtain ⟨T, hT, htokens⟩ := Tree.of_reads hread hlast
    exact ⟨T, Tree.allowed_iff.mp hT, htokens⟩

/-! ## Faults of tokens -/

/-- The error that a verdict on a token gives. -/
def Verdict.error? : Verdict → Option SyntaxError
  | .refuse e          => some e
  | .take _ (.error e) => some e
  | .take _ (.ok _)    => none

namespace Control

/-- The token read last was a comma. -/
def afterComma (c : Control) : Bool :=
  match c.goal with
  | .member _ comma => comma
  | .element comma  => comma
  | _               => false

variable {d : Dialect} {c next : Control} {p : Position} {t : Token} {es : List Event}

theorem afterComma_finish (depth : Nat) (cs : List Context) :
    (finish depth cs).afterComma = false := by
  cases cs with
  | nil => rfl
  | cons ctx cs => cases ctx <;> rfl

theorem afterComma_value {depth : Nat} {cs : List Context} {event : Option Event}
    (h : value d depth cs t = .take next (.ok event)) : next.afterComma = false := by
  rcases value_take h with ⟨s, -, rfl, -⟩ | ⟨-, -, rfl, -⟩ | ⟨-, -, rfl, -⟩
  · exact afterComma_finish depth cs
  · rfl
  · rfl

theorem kind_of_afterComma (h : c.accept? d t = some (es, next)) (hnext : next.afterComma) :
    t.kind = .comma := by
  obtain ⟨depth, goal, cs⟩ := c
  obtain ⟨-, before, event, -, hmove⟩ := (accept?_eq_some_iff .origin).mp h
  -- Only a comma leads to a control behind a comma; every other move contradicts `hnext`.
  cases goal with
  | value =>
    rw [afterComma_value (Move.mk.inj hmove).2] at hnext
    cases hnext
  | member keys comma =>
    rcases member_take hmove with ⟨key, -, -, rfl, -⟩ | ⟨-, -, rfl, -⟩
    · cases hnext
    · rw [afterComma_finish] at hnext
      cases hnext
  | colon keys =>
    obtain ⟨-, rfl, -⟩ := colon_take hmove
    cases hnext
  | memberEnd keys =>
    rcases memberEnd_take hmove with ⟨hk, -, -⟩ | ⟨-, rfl, -⟩
    · exact hk
    · rw [afterComma_finish] at hnext
      cases hnext
  | element comma =>
    rcases element_take hmove with hvalue | ⟨-, -, rfl, -⟩
    · rw [afterComma_value hvalue] at hnext
      cases hnext
    · rw [afterComma_finish] at hnext
      cases hnext
  | elementEnd =>
    rcases elementEnd_take hmove with ⟨hk, -, -⟩ | ⟨-, rfl, -⟩
    · exact hk
    · rw [afterComma_finish] at hnext
      cases hnext
  | complete =>
    rw [accept?_of_complete rfl] at h
    cases h

/-- `e` is the error for the token `t` that comes behind a token at `p`. It lies where the token
    does, except that a trailing comma is blamed itself and not the bracket behind it. -/
inductive Blames (c : Control) (p : Position) (t : Token) (e : SyntaxError) : Prop where
  | token : e.reason ≠ .trailingComma → e.position = t.position → Blames c p t e
  | comma : c.afterComma → t.kind = .rightBrace ∨ t.kind = .rightBracket →
      e = ⟨p, .trailingComma⟩ → Blames c p t e

theorem Blames.of_reason {reason : SyntaxReason} (h : reason ≠ .trailingComma) :
    c.Blames p t ⟨t.position, reason⟩ :=
  .token h rfl

theorem value_blames {depth : Nat} {cs : List Context} {e : SyntaxError}
    (h : (value d depth cs t).error? = some e) : c.Blames p t e := by
  unfold value at h
  split at h
  · unfold opening at h
    split at h <;> cases h
    exact .of_reason (by simp)
  · unfold opening at h
    split at h <;> cases h
    exact .of_reason (by simp)
  · cases h
  · cases h
  · cases h
  · split at h <;> cases h
    exact .of_reason (by simp)
  · split at h <;> cases h
    exact .of_reason (by simp)
  · cases h
    exact .of_reason (by simp)

theorem key_blames {depth : Nat} {cs : List Context} {keys : List Bytes} {e : SyntaxError}
    (h : (key depth cs keys t).error? = some e) : c.Blames p t e := by
  unfold key at h
  split at h
  · cases h
    exact .of_reason (by simp)
  · split at h <;> cases h
    exact .of_reason (by simp)

/-- What the automaton finds wrong with a token, it blames on the token or on the comma in front. -/
theorem move_blames {e : SyntaxError} (h : (c.move d p t).verdict.error? = some e) :
    c.Blames p t e := by
  obtain ⟨depth, goal, cs⟩ := c
  cases goal with
  | value => exact value_blames h
  | member keys comma =>
    simp only [move] at h
    split at h
    · exact key_blames h
    · rename_i hk
      split at h <;> cases h
      rename_i htrailing
      exact .comma htrailing.1 (.inl (by simpa using hk)) rfl
  | colon keys =>
    simp only [move] at h
    split at h <;> cases h
    exact .of_reason (by simp)
  | memberEnd keys =>
    simp only [move] at h
    split at h <;> cases h
    exact .of_reason (by simp)
  | element comma =>
    simp only [move] at h
    split at h
    · exact value_blames h
    · rename_i hk
      split at h <;> cases h
      rename_i htrailing
      exact .comma htrailing.1 (.inr (by simpa using hk)) rfl
  | elementEnd =>
    simp only [move] at h
    split at h <;> cases h
    exact .of_reason (by simp)
  | complete =>
    cases h
    exact .of_reason (by simp)

theorem halt_blames (c : Control) (p : Position) (t : Token) :
    c.Blames p t ⟨t.position, (c.halt t).2⟩ := by
  apply Blames.of_reason
  obtain ⟨depth, goal, cs⟩ := c
  cases goal <;> simp [halt]

/-- A token that is a fault is not accepted. -/
theorem accept?_of_error {e : SyntaxError} (h : (c.move d p t).verdict.error? = some e) :
    c.accept? d t = none := by
  cases haccept : c.accept? d t with
  | none => rfl
  | some read =>
    obtain ⟨-, before, event, -, hmove⟩ := (accept?_eq_some_iff p).mp haccept
    rw [hmove] at h
    cases h

end Control

/-! ## Where parsers stop -/

namespace Parser

variable {σ ε : Type} {d : Dialect} {h : Handler σ ε}

theorem eq_of_halt_malformed {c : Control} {consumed rest : List Token} {t : Token} {s : σ}
    {e : SyntaxError} (he : (halt h c consumed rest t s).result = .error (.malformed e)) :
    e = ⟨t.position, (c.halt t).2⟩ := by
  unfold halt at he
  split at he
  · cases he
  · cases he
    rfl

/-- A parser that fails has read as far as the automaton accepts, and blames the next token. -/
theorem stuck_of_run {c : Control} {consumed ts : List Token} {s : σ} {e : SyntaxError}
    (hc : c.goal ≠ .complete) (he : (run d h c consumed s ts).result = .error (.malformed e)) :
    ∃ used rest es last, ts = used ++ rest ∧ Reads d c used es last ∧ last.goal ≠ .complete ∧
      (∀ t ∈ rest.head?, last.accept? d t = none) ∧
      last.Blames (previous (used.reverse ++ consumed))
        (peek { consumed := used.reverse ++ consumed, rest }) e := by
  fun_induction run d h c consumed s ts with
  | case1 c consumed s =>
    cases eq_of_halt_malformed he
    exact ⟨[], [], [], c, rfl, .nil, hc, by simp, c.halt_blames _ _⟩
  | case2 c consumed s t rest hend =>
    cases eq_of_halt_malformed he
    refine ⟨[], t :: rest, [], c, rfl, .nil, hc, ?_, c.halt_blames _ _⟩
    rintro _ ⟨⟩
    exact if_pos hend
  | case4 c consumed s t rest _ _ _ _ e' hverdict =>
    cases he
    have herror : (c.move d (previous consumed) t).verdict.error? = some e := by rw [hverdict]; rfl
    refine ⟨[], t :: rest, [], c, rfl, .nil, hc, ?_, Control.move_blames herror⟩
    rintro _ ⟨⟩
    exact Control.accept?_of_error herror
  | case5 c consumed s t rest _ _ _ next _ e' hverdict =>
    cases he
    have herror : (c.move d (previous consumed) t).verdict.error? = some e := by rw [hverdict]; rfl
    refine ⟨[], t :: rest, [], c, rfl, .nil, hc, ?_, Control.move_blames herror⟩
    rintro _ ⟨⟩
    exact Control.accept?_of_error herror
  | case8 c consumed s t rest hend _ _ next event _ _ hnext hverdict ih =>
    obtain ⟨used, rest', es, last, rfl, hread, hlast, hnone, hblames⟩ := ih hnext he
    have haccept : c.accept? d t = some (_, next) :=
      (Control.accept?_eq_some_iff (previous consumed)).mpr
        ⟨hend, _, event, rfl, by rw [← hverdict]⟩
    refine ⟨t :: used, rest', _, last, rfl, .cons haccept hread, hlast, hnone, ?_⟩
    simpa using hblames
  | _ => cases he

theorem stuck_of_parse {ts : List Token} {s : σ} {e : SyntaxError}
    (he : ((ofTokens ts).parse d h s).result = .error (.malformed e)) :
    ∃ used rest es last, ts = used ++ rest ∧ Reads d { depth := 0 } used es last ∧
      (last.goal = .complete → ¬ Token.AtEnd rest) ∧ (∀ t ∈ rest.head?, last.accept? d t = none) ∧
      last.Blames (previous used.reverse) (peek { consumed := used.reverse, rest }) e := by
  cases hresult : ((ofTokens ts).value d h s).result with
  | error f =>
    simp only [parse, hresult] at he
    cases he
    have hrun : (run d h { depth := 0 } [] s ts).result = .error (.malformed e) := hresult
    have hstart : Goal.value ≠ .complete := by decide
    obtain ⟨used, rest, es, last, hts, hread, hlast, hnone, hblames⟩ := stuck_of_run hstart hrun
    rw [List.append_nil] at hblames
    exact ⟨used, rest, es, last, hts, hread, fun hcomplete => absurd hcomplete hlast, hnone, hblames⟩
  | ok _ =>
    -- The parser has read a value and finds more behind it.
    obtain ⟨T, rest, s', hT, hts, hfeed⟩ := tree_of_value hresult
    have hvalue := value_of_tree hT hts hfeed
    have hmore : ¬ Token.AtEnd rest := by
      intro hend
      rw [parse_of_value hvalue hend] at he
      cases he
    rw [parse_of_value_of_more hvalue hmore] at he
    cases he
    refine ⟨T.tokens, rest, T.events, _, hts, T.reads d 0 [] hT, fun _ => hmore, ?_, ?_⟩
    · exact fun t _ => Control.accept?_of_complete rfl
    · have hconsumed : T.tokens.reverse ++ (ofTokens ts).consumed = T.tokens.reverse :=
        List.append_nil _
      rw [hconsumed]
      exact .of_reason (by simp)

/-- The tokens are read as one value by a parser that starts with them. -/
def Accepts (d : Dialect) (h : Handler σ ε) (s : σ) (ts : List Token) : Prop :=
  ((ofTokens ts).parse d h s).result = .ok ()

end Parser

/-! ## Handlers that take everything -/

/-- The handler takes every event in every state. -/
def Handler.TakesAll {σ ε : Type} (h : Handler σ ε) : Prop :=
  ∀ e s, (h e s).2 = none

namespace Handler.TakesAll

variable {σ ε : Type} {d : Dialect} {h : Handler σ ε}

/-- The events of a reading are all taken. -/
theorem exists_feed (hh : h.TakesAll) (es : List Event) (s : σ) :
    ∃ s', h.feed es s = (s', none) := by
  induction es generalizing s with
  | nil => exact ⟨s, rfl⟩
  | cons e es ih =>
    obtain ⟨s', hs'⟩ := ih (h e s).1
    refine ⟨s', ?_⟩
    rw [feed_cons (Prod.ext rfl (hh e s)), hs']

/-- With such a handler the tokens alone decide what is accepted. -/
theorem accepts_iff (hh : h.TakesAll) {s : σ} {ts : List Token} :
    Parser.Accepts d h s ts ↔
      ∃ es last, Reads d { depth := 0 } (Token.body ts) es last ∧ last.goal = .complete := by
  rw [← Tree.exists_accepted_iff, Parser.Accepts, Parser.parse_ofTokens_ok_iff]
  constructor
  · rintro ⟨T, -, hT, hbody, -⟩
    exact ⟨T, hT, hbody⟩
  · rintro ⟨T, hT, hbody⟩
    obtain ⟨s', hfeed⟩ := hh.exists_feed T.events s
    exact ⟨T, s', hT, hbody, hfeed⟩

/-- What has been read can be completed. -/
theorem exists_accepts (hh : h.TakesAll) {used : List Token} {es : List Event} {last : Control}
    (hread : Reads d { depth := 0 } used es last) (s : σ) :
    ∃ more, Parser.Accepts d h s (used ++ more) := by
  obtain ⟨more, fs, end_, hmore, hend⟩ := last.completable d
  have hall := hread.append hmore
  refine ⟨more, hh.accepts_iff.mpr ⟨es ++ fs, end_, ?_, hend⟩⟩
  rw [Token.body_eq_self hall.kind_ne_end]
  exact hall

/-- A token that is not accepted cannot be saved. The end of input comes too early as long as the
    value is unfinished. -/
theorem not_accepts (hh : h.TakesAll) {used : List Token} {es : List Event} {last : Control}
    {t : Token} (hread : Reads d { depth := 0 } used es last) (ht : last.accept? d t = none)
    (hcomplete : last.goal = .complete → t.kind ≠ .endOfInput) (s : σ) (more : List Token) :
    ¬ Parser.Accepts d h s (used ++ t :: more) := by
  rw [hh.accepts_iff]
  rintro ⟨fs, end_, hall, hend⟩
  by_cases hkind : t.kind = .endOfInput
  · have hstop : Token.AtEnd (t :: more) := by
      rintro _ ⟨⟩
      exact hkind
    rw [Token.body_append hread.kind_ne_end hstop] at hall
    obtain ⟨-, rfl⟩ := hread.unique hall
    exact hcomplete hend hkind
  · rw [Token.body, List.takeWhile_append_of_pos (by simpa using hread.kind_ne_end),
      List.takeWhile_cons_of_pos (by simpa using hkind)] at hall
    exact hread.not_cons ht hall

end Handler.TakesAll

/-! ## Places of errors -/

/-- Behind a comma the automaton knows that a comma came last. -/
theorem Reads.exists_comma {d : Dialect} {c last : Control} {ts : List Token} {es : List Event}
    (h : Reads d c ts es last) (hlast : last.afterComma) :
    (ts = [] ∧ c.afterComma) ∨ ∃ front comma, ts = front ++ [comma] ∧ comma.kind = .comma := by
  induction h with
  | nil => exact .inl ⟨rfl, hlast⟩
  | @cons c next last t ts es fs haccept _ ih =>
    refine .inr ?_
    rcases ih hlast with ⟨rfl, hnext⟩ | ⟨front, comma, rfl, hcomma⟩
    · exact ⟨[], t, rfl, Control.kind_of_afterComma haccept hnext⟩
    · exact ⟨t :: front, comma, rfl, hcomma⟩

/-- The position of the token at an index. At the end of a sequence it is that of the last token. -/
def Token.positionAt (ts : List Token) (k : Nat) : Position :=
  match ts[k]? with
  | some t => t.position
  | none   => (ts.getLast?.map Token.position).getD .origin

theorem Token.positionAt_append (used rest : List Token) :
    positionAt (used ++ rest) used.length =
      (Parser.peek { consumed := used.reverse, rest }).position := by
  cases rest with
  | cons t rest => simp [positionAt, Parser.peek]
  | nil =>
    cases hused : used.reverse with
    | nil =>
      rw [List.reverse_eq_nil_iff.mp hused]
      rfl
    | cons t ts =>
      have hlast : used.getLast? = some t := by rw [← List.head?_reverse, hused]; rfl
      simp only [positionAt, List.append_nil, List.getElem?_eq_none (Nat.le_refl _), hlast]
      rfl

/-- `k` is the index of the first token that nothing can save: what stands in front of it can be
    completed, and what includes it cannot. It may be the end of the sequence. -/
structure Parser.FirstHopeless {σ ε : Type} (d : Dialect) (h : Handler σ ε) (s : σ)
    (ts : List Token) (k : Nat) : Prop where
  /-- It does not lie behind the end of input. -/
  le_end : k ≤ ts.findIdx fun t => t.kind = .endOfInput
  completable : ∃ more, Accepts d h s (ts.take k ++ more)
  rejected : ¬ Accepts d h s ts
  hopeless : k < ts.length → ∀ more, ¬ Accepts d h s (ts.take (k + 1) ++ more)

/-- The error lies at the token with the index `k`. A trailing comma is blamed itself, and that is
    the token in front of the closing bracket with the index `k`. -/
structure SyntaxError.LiesAt (e : SyntaxError) (ts : List Token) (k : Nat) : Prop where
  token : e.reason ≠ .trailingComma → e.position = Token.positionAt ts k
  comma : e.reason = .trailingComma → ∃ i comma closing, k = i + 1 ∧ ts[i]? = some comma ∧
    comma.kind = .comma ∧ ts[k]? = some closing ∧
    (closing.kind = .rightBrace ∨ closing.kind = .rightBracket) ∧ e.position = comma.position

/-- A token that is blamed lies at the end of what has been read. -/
theorem Control.Blames.liesAt {d : Dialect} {used rest : List Token} {es : List Event}
    {last : Control} {e : SyntaxError} (hread : Reads d { depth := 0 } used es last)
    (h : last.Blames (Parser.previous used.reverse)
      (Parser.peek { consumed := used.reverse, rest }) e) :
    e.LiesAt (used ++ rest) used.length := by
  cases h with
  | token hreason hposition =>
    refine ⟨fun _ => ?_, fun htrailing => absurd htrailing hreason⟩
    rw [hposition, Token.positionAt_append]
  | comma hafter hclosing he =>
    subst he
    refine ⟨fun hreason => absurd rfl hreason, fun _ => ?_⟩
    obtain ⟨rfl, hstart⟩ | ⟨front, comma, rfl, hcomma⟩ := hread.exists_comma hafter
    · cases hstart
    · cases rest with
      | nil => simp [Parser.peek, Parser.endBehind] at hclosing
      | cons t rest =>
        refine ⟨front.length, comma, t, by simp, by simp, hcomma, by simp, hclosing, ?_⟩
        simp [Parser.previous]

namespace Parser

variable {σ ε : Type} {d : Dialect} {h : Handler σ ε}

/-- A syntax error is at the first token that no continuation can save, if the handler takes all
    events. -/
theorem parse_error_at_first_hopeless (hh : h.TakesAll) {s : σ} {ts : List Token} {e : SyntaxError}
    (he : ((ofTokens ts).parse d h s).result = .error (.malformed e)) :
    ∃ k, FirstHopeless d h s ts k ∧ e.LiesAt ts k := by
  obtain ⟨used, rest, es, last, rfl, hread, hlast, hnone, hblames⟩ := stuck_of_parse he
  refine ⟨used.length, ⟨?_, ?_, ?_, ?_⟩, hblames.liesAt hread⟩
  · have hused : used.findIdx (fun t => t.kind = .endOfInput) = used.length :=
      List.findIdx_eq_length_of_false (by simpa using hread.kind_ne_end)
    have hle := List.IsPrefix.findIdx_le (p := fun t : Token => t.kind = .endOfInput)
      (List.prefix_append used rest)
    rwa [hused] at hle
  · rw [List.take_left]
    exact hh.exists_accepts hread s
  · rw [Accepts, he]
    exact nofun
  · intro hlt more
    cases rest with
    | nil => simp at hlt
    | cons t rest =>
      have htake : (used ++ t :: rest).take (used.length + 1) ++ more = used ++ t :: more := by
        simp [List.take_append]
      rw [htake]
      apply hh.not_accepts hread (hnone t rfl)
      intro hcomplete hend
      apply hlast hcomplete
      rintro _ ⟨⟩
      exact hend

end Parser

/-- The tokens of `[0,]`, without an end of input. -/
def Token.trailingSample : List Token :=
  [{ kind := .leftBracket, location := ⟨⟨0, 1⟩, ⟨1, 1⟩⟩ },
   { kind := .number, literal := some (.number ⟨0⟩), location := ⟨⟨1, 2⟩, ⟨1, 2⟩⟩ },
   { kind := .comma, location := ⟨⟨2, 3⟩, ⟨1, 3⟩⟩ },
   { kind := .rightBracket, location := ⟨⟨3, 4⟩, ⟨1, 4⟩⟩ }]

/-- The trailing comma is blamed, though it is the bracket behind it that nothing can save. -/
theorem Parser.parse_error_at_trailing_comma :
    Handler.discard.TakesAll ∧
    ((ofTokens Token.trailingSample).parse .strict Handler.discard ()).result =
      .error (.malformed ⟨⟨1, 3⟩, .trailingComma⟩) ∧
    ∃ k, FirstHopeless .strict Handler.discard () Token.trailingSample k ∧
      SyntaxError.LiesAt ⟨⟨1, 3⟩, .trailingComma⟩ Token.trailingSample k := by
  refine ⟨fun _ _ => rfl, rfl, ?_⟩
  exact parse_error_at_first_hopeless (fun _ _ => rfl) rfl

end RelaxedJson
