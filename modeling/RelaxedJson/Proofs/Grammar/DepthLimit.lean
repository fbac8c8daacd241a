-- SUMMARY: A depth limit is exact, and what exceeds it is stopped at the first bracket too many.
import RelaxedJson.Proofs.Grammar.Calls

/-!
# The depth limit

The depth limit matters to opening brackets only (`Control.move_maxDepth`). So under two limits a
parser goes through the same tokens in lockstep, up to the first bracket that opens inside as many
open brackets as the smaller limit permits; it stops there (`Parser.run_maxDepth`). There is such a
bracket exactly if the value nests too deeply (`Value.ofTokens_maxDepth`).
-/

namespace RelaxedJson

/-! ## Brackets at the limit -/

namespace Token

/-- The token with the index `i` opens a bracket, and exactly `limit` brackets are open in front of
    it. -/
def OpensInside (limit : Nat) (ts : List Token) (i : Nat) : Prop :=
  (∃ t, ts[i]? = some t ∧ t.kind.opens) ∧ balance (ts.take i) = limit

/-- The token with the index `i` is the first that opens a bracket inside exactly `limit` open
    ones. -/
structure FirstInside (limit : Nat) (ts : List Token) (i : Nat) : Prop where
  opens : OpensInside limit ts i
  first : ∀ j < i, ¬ OpensInside limit ts j

theorem opensInside_append {limit : Nat} {front ts : List Token} {t : Token} :
    OpensInside limit (front ++ t :: ts) front.length ↔ t.kind.opens ∧ balance front = limit := by
  simp [OpensInside]

end Token

theorem Kind.opens_iff {k : Kind} : k.opens ↔ k = .leftBrace ∨ k = .leftBracket := by
  cases k <;> simp [Kind.opens]

theorem Scalar.not_opens (s : Scalar) : ¬ s.token.kind.opens := by
  rw [Kind.opens_iff, not_or]
  exact ⟨s.kind_ne fun _ => rfl, s.kind_ne fun _ => rfl⟩

theorem Key.not_opens (key : Key) : ¬ key.token.kind.opens := by
  rw [Kind.opens_iff, not_or]
  exact ⟨key.kind_ne (by decide) (by decide), key.kind_ne (by decide) (by decide)⟩

/-! ## One move under two limits -/

namespace Control

variable {d : Dialect} {n : Int} {c next : Control} {t : Token} {es : List Event}

theorem value_maxDepth {depth : Nat} (cs : List Context)
    (h : t.kind.opens → depth < d.depthLimit ∧ depth < Dialect.depthLimit { d with maxDepth := n }) :
    value { d with maxDepth := n } depth cs t = value d depth cs t := by
  have hopening : ∀ goal event, t.kind.opens →
      opening { d with maxDepth := n } depth cs t goal event = opening d depth cs t goal event := by
    intro goal event hopens
    obtain ⟨hd, hn⟩ := h hopens
    unfold opening
    rw [if_neg (by omega), if_neg (by omega)]
  unfold value
  split
  · exact hopening _ _ (by simp [*, Kind.opens])
  · exact hopening _ _ (by simp [*, Kind.opens])
  all_goals rfl

/-- The limit matters only to a bracket that one of the two forbids. -/
theorem move_maxDepth (p : Position)
    (h : t.kind.opens →
      c.depth < d.depthLimit ∧ c.depth < Dialect.depthLimit { d with maxDepth := n }) :
    c.move { d with maxDepth := n } p t = c.move d p t := by
  obtain ⟨depth, goal, cs⟩ := c
  cases goal with
  | value => exact congrArg (Move.mk none) (value_maxDepth cs h)
  | element comma => simp only [move, value_maxDepth (.array :: cs) h]
  | _ => rfl

theorem accept?_maxDepth (haccept : c.accept? { d with maxDepth := n } t = some (es, next))
    (h : t.kind.opens →
      c.depth < d.depthLimit ∧ c.depth < Dialect.depthLimit { d with maxDepth := n }) :
    c.accept? d t = some (es, next) := by
  rw [accept?_eq_some_iff .origin, ← move_maxDepth .origin h]
  exact (accept?_eq_some_iff .origin).mp haccept

/-- An opening bracket is accepted only where a value may start and the limit is not reached. -/
theorem opening_of_accept (haccept : c.accept? d t = some (es, next)) (hopens : t.kind.opens) :
    c.depth < d.depthLimit ∧
      ∃ cs, ∀ (d' : Dialect) (p : Position), c.move d' p t = { verdict := value d' c.depth cs t } := by
  obtain ⟨depth, goal, cs⟩ := c
  obtain ⟨-, before, event, -, hmove⟩ := (accept?_eq_some_iff .origin).mp haccept
  have hkind : t.kind = .leftBrace ∨ t.kind = .leftBracket := Kind.opens_iff.mp hopens
  have hvalue : ∀ cs, value d depth cs t = .take next (.ok event) → depth < d.depthLimit := by
    intro cs hv
    rcases value_take hv with ⟨s, rfl, -⟩ | ⟨-, hlt, -⟩ | ⟨-, hlt, -⟩
    · exact absurd hopens s.not_opens
    · exact hlt
    · exact hlt
  cases goal with
  | value => exact ⟨hvalue cs (Move.mk.inj hmove).2, cs, fun _ _ => rfl⟩
  | member keys comma =>
    rcases member_take hmove with ⟨key, rfl, -⟩ | ⟨hk, -⟩
    · exact absurd hopens key.not_opens
    · simp [hk] at hkind
  | colon keys => simp [(colon_take hmove).1] at hkind
  | memberEnd keys => rcases memberEnd_take hmove with ⟨hk, -⟩ | ⟨hk, -⟩ <;> simp [hk] at hkind
  | element comma =>
    rcases element_take hmove with hv | ⟨hk, -⟩
    · have hk : t.kind ≠ .rightBracket := by rcases hkind with hk | hk <;> simp [hk]
      exact ⟨hvalue _ hv, .array :: cs, fun d' p => by simp only [move, if_pos hk]⟩
    · simp [hk] at hkind
  | elementEnd => rcases elementEnd_take hmove with ⟨hk, -⟩ | ⟨hk, -⟩ <;> simp [hk] at hkind
  | complete =>
    rw [accept?_of_complete rfl] at haccept
    cases haccept

/-- Where the limit is reached, an opening bracket is read and found to be too deep. -/
theorem value_tooDeep {depth : Nat} (cs : List Context) (hopens : t.kind.opens)
    (hdeep : d.depthLimit ≤ depth) :
    ∃ next, value d depth cs t = .take next (.error ⟨t.position, .tooDeep d.depthLimit⟩) := by
  have hlt : d.depthLimit < depth + 1 := Nat.lt_succ_of_le hdeep
  rcases Kind.opens_iff.mp hopens with hk | hk
  · simp only [value, hk, opening, if_pos hlt]
    exact ⟨_, rfl⟩
  · simp only [value, hk, opening, if_pos hlt]
    exact ⟨_, rfl⟩

theorem reckons_of_accept {base : Nat} (haccept : c.accept? d t = some (es, next))
    (hc : c.Counts base) :
    next.Counts base ∧ (next.depth : Int) = c.depth + Token.balance [t] := by
  obtain ⟨-, before, event, -, hmove⟩ := (accept?_eq_some_iff .origin).mp haccept
  exact move_reckons (d := d) (p := .origin) hc next (.ok event) (by rw [hmove])

end Control

/-! ## Runs under two limits -/

namespace Parser

variable {σ ε : Type} {d : Dialect} {h : Handler σ ε}

theorem run_of_accept {c next : Control} {t : Token} {es : List Event} {s s' : σ}
    (haccept : c.accept? d t = some (es, next)) (hnext : next.goal ≠ .complete)
    (hfeed : h.feed es s = (s', none)) (consumed ts : List Token) :
    run d h c consumed s (t :: ts) = run d h next (t :: consumed) s' ts := by
  obtain ⟨hend, before, event, rfl, hmove⟩ :=
    (Control.accept?_eq_some_iff (previous consumed)).mp haccept
  obtain ⟨s₁, hbefore, hevent⟩ := Handler.feed_append_inv hfeed
  rw [run, if_neg hend]
  simp only [hmove, Handler.deliver_eq_feed, hbefore, hevent, if_neg hnext]

/-- A bracket that is too deep ends the run. -/
theorem run_tooDeep {c : Control} {cs : List Context} {t : Token} {consumed : List Token}
    (hopens : t.kind.opens) (hdeep : d.depthLimit ≤ c.depth)
    (hmove : c.move d (previous consumed) t = { verdict := Control.value d c.depth cs t }) (s : σ)
    (ts : List Token) :
    (run d h c consumed s (t :: ts)).result =
      .error (.malformed ⟨t.position, .tooDeep d.depthLimit⟩) := by
  have hend : t.kind ≠ .endOfInput := by
    rcases Kind.opens_iff.mp hopens with hk | hk <;> simp [hk]
  obtain ⟨next, hvalue⟩ := Control.value_tooDeep cs hopens hdeep
  rw [run, if_neg hend]
  simp only [hmove, hvalue, Handler.deliver]

/-- What is read under one limit is read under another, up to the first bracket that opens inside as
    many open ones as the other permits. There the run stops. The tokens in front are `front`. -/
theorem run_maxDepth {n : Int} {c last : Control} {ts : List Token} {es : List Event}
    (hread : Reads { d with maxDepth := n } c ts es last) (hlast : last.goal = .complete)
    (hc : c.Counts 0) {front : List Token} (hdepth : (c.depth : Int) = Token.balance front)
    (hlimit : c.depth ≤ d.depthLimit) {s s' : σ} (hfeed : h.feed es s = (s', none))
    (rest : List Token)
    (hfront : ∀ j < front.length, ¬ Token.OpensInside d.depthLimit (front ++ (ts ++ rest)) j) :
    Reads d c ts es last ∨
      ∃ i t, (front ++ (ts ++ rest))[i]? = some t ∧
        Token.FirstInside d.depthLimit (front ++ (ts ++ rest)) i ∧
        (run d h c front.reverse s (ts ++ rest)).result =
          .error (.malformed ⟨t.position, .tooDeep d.depthLimit⟩) := by
  induction hread generalizing front s with
  | nil => exact .inl .nil
  | @cons c next last t ts es fs haccept hrest ih =>
    have hinside : Token.OpensInside d.depthLimit (front ++ (t :: ts ++ rest)) front.length ↔
        t.kind.opens ∧ c.depth = d.depthLimit := by
      rw [List.cons_append, Token.opensInside_append, ← hdepth, Int.ofNat_inj]
    by_cases hdeep : t.kind.opens ∧ c.depth = d.depthLimit
    · obtain ⟨-, cs, hmove⟩ := Control.opening_of_accept haccept hdeep.1
      refine .inr ⟨front.length, t, by simp, ⟨hinside.mpr hdeep, hfront⟩, ?_⟩
      exact run_tooDeep hdeep.1 (Nat.le_of_eq hdeep.2.symm) (hmove d _) s _
    · -- The token is within both limits, so it is read under both.
      have hopens : t.kind.opens → c.depth < d.depthLimit ∧
          c.depth < Dialect.depthLimit { d with maxDepth := n } := by
        intro hopens
        have hne : c.depth ≠ d.depthLimit := fun heq => hdeep ⟨hopens, heq⟩
        exact ⟨by omega, (Control.opening_of_accept haccept hopens).1⟩
      have haccept' := Control.accept?_maxDepth haccept hopens
      obtain ⟨hnext, hbalance⟩ := Control.reckons_of_accept haccept hc
      obtain ⟨s₁, hes, hfs⟩ := Handler.feed_append_inv hfeed
      by_cases hgoal : next.goal = .complete
      · cases hrest with
        | nil => exact .inl (.cons haccept' .nil)
        | cons hmore _ =>
          rw [Control.accept?_of_complete hgoal] at hmore
          cases hmore
      · have hlimit' : next.depth ≤ d.depthLimit := by
          rw [Token.balance_of_kind rfl] at hbalance
          cases ht : t.kind.opens with
          | false => simp only [ht, Bool.toNat_false] at hbalance; omega
          | true =>
            have hlt := (hopens ht).1
            have hle := Bool.toNat_le t.kind.closes
            simp only [ht, Bool.toNat_true] at hbalance
            omega
        have hall : front ++ [t] ++ (ts ++ rest) = front ++ (t :: ts ++ rest) := by simp
        have hfront' : ∀ j < (front ++ [t]).length,
            ¬ Token.OpensInside d.depthLimit (front ++ [t] ++ (ts ++ rest)) j := by
          intro j hj
          rw [hall]
          rw [List.length_append, List.length_singleton] at hj
          rcases Nat.lt_succ_iff_lt_or_eq.mp hj with hlt | rfl
          · exact hfront j hlt
          · exact fun hat => hdeep (hinside.mp hat)
        have hstep := ih hlast hnext (by rw [hbalance, hdepth, Token.balance_append]) hlimit' hfs
          hfront'
        rw [hall, List.reverse_append, List.reverse_singleton, List.singleton_append] at hstep
        rw [List.cons_append, run_of_accept haccept' hgoal hes]
        exact hstep.imp_left (.cons haccept')

end Parser

/-! ## Values -/

namespace Value

/-- The depth limit is exact. What has a value under some limit has the same value under another, if
    the value does not nest more deeply than that; otherwise it fails at the first bracket that
    opens inside as many open brackets as the limit permits. -/
theorem ofTokens_maxDepth (d : Dialect) (n : Int) (ts : List Token) (v : Value)
    (hv : ofTokens { d with maxDepth := n } ts = .ok v) :
    (v.depth ≤ d.depthLimit → ofTokens d ts = .ok v) ∧
    (d.depthLimit < v.depth → ∃ i t, ts[i]? = some t ∧ Token.FirstInside d.depthLimit ts i ∧
      ofTokens d ts = .error (.malformed ⟨t.position, .tooDeep d.depthLimit⟩)) := by
  obtain ⟨T, hT, hbody, rfl⟩ := tree_of_ofTokens hv
  constructor
  · intro hdepth
    exact ofTokens_of_tree ⟨hT.trailing, hT.keys, hdepth⟩ hbody
  · intro hdeep
    obtain ⟨rest, hts, -⟩ := Token.body_append_rest ts
    rw [← hbody] at hts
    have hread := T.reads { d with maxDepth := n } 0 [] (Tree.allowed_iff.mpr hT)
    have hbalance : ((0 : Nat) : Int) = Token.balance [] := rfl
    rcases Parser.run_maxDepth hread rfl rfl hbalance (Nat.zero_le _) (T.feed_events []) rest nofun
      with hsmall | ⟨i, t, ht, hfirst, hrun⟩
    · -- What is read under the limit is a derivation within it.
      obtain ⟨T', hT', htokens⟩ := Tree.of_reads hsmall rfl
      have hsame : T'.tokens ++ [] = T.tokens ++ [] := by rw [htokens]
      obtain ⟨rfl, -⟩ := T'.tokens_append_inj T hsame
      exact absurd (Tree.allowed_iff.mp hT').depth (Nat.not_le_of_lt hdeep)
    · rw [List.nil_append, ← hts] at ht hfirst
      refine ⟨i, t, ht, hfirst, ?_⟩
      have hvalue : ((Parser.ofTokens ts).value d Builder.handle []).result =
          .error (.malformed ⟨t.position, .tooDeep d.depthLimit⟩) := by rw [hts]; exact hrun
      simp only [ofTokens, Parser.parse, hvalue]

end Value

/-- The tokens of `[[],[[null]]]`, each on a line of its own. -/
def Token.nestedSample : List Token :=
  [.leftBracket, .leftBracket, .rightBracket, .comma, .leftBracket, .leftBracket, .null,
    .rightBracket, .rightBracket, .rightBracket].mapIdx fun i kind =>
      { kind, location := { Location.origin with position := ⟨i + 1, 1⟩ } }

/-- Three levels are enough for the sample. With two, the array around null is too deep; the empty
    array in front of it is not. -/
theorem Value.ofTokens_maxDepth_nested :
    ofTokens { Dialect.strict with maxDepth := 9 } Token.nestedSample =
      .ok (.array [.array [], .array [.array [.null]]]) ∧
    ofTokens { Dialect.strict with maxDepth := 3 } Token.nestedSample =
      .ok (.array [.array [], .array [.array [.null]]]) ∧
    ∃ i t, Token.nestedSample[i]? = some t ∧ Token.FirstInside 2 Token.nestedSample i ∧
      ofTokens { Dialect.strict with maxDepth := 2 } Token.nestedSample =
        .error (.malformed ⟨t.position, .tooDeep 2⟩) := by
  have hv : ofTokens { Dialect.strict with maxDepth := 9 } Token.nestedSample =
      .ok (.array [.array [], .array [.array [.null]]]) := rfl
  refine ⟨hv, ?_, ?_⟩
  · exact (ofTokens_maxDepth { Dialect.strict with maxDepth := 3 } 9 _ _ hv).1 (by decide)
  · exact (ofTokens_maxDepth { Dialect.strict with maxDepth := 2 } 9 _ _ hv).2 (by decide)

end RelaxedJson
