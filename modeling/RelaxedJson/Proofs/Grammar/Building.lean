-- SUMMARY: The builder keeps pace with the automaton, so it never refuses an event of a parser.
import RelaxedJson.Proofs.Grammar.Acceptance

/-!
# Building in step with the automaton

The stack of a builder has a part for each bracket and each member that is open in the automaton, in
the same order (`Builder.Fits`). Every event that the automaton reports keeps it so and is accepted
(`Builder.deliver_pending`, `Builder.deliver_event`), on the way to a value as well as on the way to
a fault. So a parser that reports to a builder fails with syntax errors only
(`Parser.run_malformed`).
-/

namespace RelaxedJson

namespace Control

/-- What is reported for the next token while it is unread. -/
def pending (c : Control) (t : Token) : Option Event :=
  match c.goal with
  | .memberEnd _ => some (.endMember t)
  | _            => none

theorem move_before (d : Dialect) (c : Control) (p : Position) (t : Token) :
    (c.move d p t).before = c.pending t := by
  obtain ⟨depth, goal, cs⟩ := c
  cases goal with
  | member keys comma =>
    simp only [move, pending]
    split
    · rfl
    · split <;> rfl
  | colon keys =>
    simp only [move, pending]
    split <;> rfl
  | element comma =>
    simp only [move, pending]
    split
    · rfl
    · split <;> rfl
  | _ => rfl

theorem halt_pending (c : Control) (t : Token) : (c.halt t).1 = c.pending t := by
  obtain ⟨depth, goal, cs⟩ := c
  cases goal <;> rfl

end Control

namespace Builder

/-- A value can be put into the builder, which has an open part for each context. -/
def Receives : List Context → Builder → Prop
  | [],              b => b = []
  | .array :: cs,    b => ∃ ds below, b = .array ds :: below ∧ Receives cs below
  | .object _ :: cs, b =>
    ∃ k ms below, b = .member k none :: .object ms :: below ∧ Receives cs below

/-- The stack of the builder is what the control of the automaton demands. -/
def Fits (c : Control) (b : Builder) : Prop :=
  match c.goal with
  | .value       => Receives c.contexts b
  | .member _ _  => ∃ ms below, b = .object ms :: below ∧ Receives c.contexts below
  | .colon _     =>
    ∃ k ms below, b = .member k none :: .object ms :: below ∧ Receives c.contexts below
  | .memberEnd _ =>
    ∃ k v ms below, b = .member k (some v) :: .object ms :: below ∧ Receives c.contexts below
  | .element _   => ∃ ds below, b = .array ds :: below ∧ Receives c.contexts below
  | .elementEnd  => ∃ ds below, b = .array ds :: below ∧ Receives c.contexts below
  | .complete    => ∃ v, b = [.finished v]

theorem put_of_receives {cs : List Context} {b : Builder} (h : Receives cs b) (v : Draft)
    (depth : Nat) : ∃ b', b.put v = (b', none) ∧ Fits (Control.finish depth cs) b' := by
  cases cs with
  | nil =>
    cases h
    exact ⟨[.finished v], rfl, v, rfl⟩
  | cons ctx cs =>
    cases ctx with
    | array =>
      obtain ⟨ds, below, rfl, hbelow⟩ := h
      exact ⟨_, rfl, v :: ds, below, rfl, hbelow⟩
    | object keys =>
      obtain ⟨k, ms, below, rfl, hbelow⟩ := h
      exact ⟨_, rfl, k, v, ms, below, rfl, hbelow⟩

variable {d : Dialect} {c next : Control} {t : Token} {b : Builder} {event : Option Event}

/-- A value that starts, or is a single token, is accepted where one can be put. -/
theorem deliver_value {depth : Nat} {cs : List Context}
    (h : Control.value d depth cs t = .take next (.ok event)) (hb : Receives cs b) :
    ∃ b', Handler.deliver handle event b = (b', none) ∧ Fits next b' := by
  rcases Control.value_take h with ⟨s, rfl, rfl, rfl⟩ | ⟨-, -, rfl, rfl⟩ | ⟨-, -, rfl, rfl⟩
  · obtain ⟨b', hput, hfits⟩ := put_of_receives hb (.ofValue s.value) depth
    exact ⟨b', by rw [← hput]; exact handle_scalar s b, hfits⟩
  · exact ⟨_, rfl, [], b, rfl, hb⟩
  · exact ⟨_, rfl, [], b, rfl, hb⟩

/-- The end of a member is accepted. -/
theorem deliver_pending (hb : Fits c b) (t : Token) :
    ∃ b', Handler.deliver handle (c.pending t) b = (b', none) := by
  obtain ⟨depth, goal, cs⟩ := c
  cases goal with
  | memberEnd keys =>
    obtain ⟨k, v, ms, below, rfl, -⟩ := hb
    exact ⟨_, handle_endMember t k v ms below⟩
  | _ => exact ⟨b, rfl⟩

/-- The event of a token is accepted, and leads to the stack that the next control demands. -/
theorem deliver_event {p : Position} {before : Option Event} {b' : Builder} (hb : Fits c b)
    (hpending : Handler.deliver handle (c.pending t) b = (b', none))
    (hmove : c.move d p t = ⟨before, .take next (.ok event)⟩) :
    ∃ b'', Handler.deliver handle event b' = (b'', none) ∧ Fits next b'' := by
  obtain ⟨depth, goal, cs⟩ := c
  cases goal with
  | value =>
    cases hpending
    exact deliver_value (Move.mk.inj hmove).2 hb
  | member keys comma =>
    cases hpending
    obtain ⟨ms, below, rfl, hbelow⟩ := hb
    rcases Control.member_take hmove with ⟨key, rfl, -, rfl, rfl⟩ | ⟨-, -, rfl, rfl⟩
    · exact ⟨_, handle_beginMember key.text key.token ms below, key.text, ms, below, rfl, hbelow⟩
    · obtain ⟨b'', hput, hfits⟩ := put_of_receives hbelow (Part.closeObject ms) (depth - 1)
      exact ⟨b'', (handle_endObject t ms below).trans hput, hfits⟩
  | colon keys =>
    cases hpending
    obtain ⟨-, rfl, rfl⟩ := Control.colon_take hmove
    exact ⟨b, rfl, hb⟩
  | memberEnd keys =>
    obtain ⟨k, v, ms, below, rfl, hbelow⟩ := hb
    rw [Control.pending, Handler.deliver, handle_endMember] at hpending
    cases hpending
    rcases Control.memberEnd_take hmove with ⟨-, rfl, rfl⟩ | ⟨-, rfl, rfl⟩
    · exact ⟨_, rfl, (k, v) :: ms, below, rfl, hbelow⟩
    · obtain ⟨b'', hput, hfits⟩ :=
        put_of_receives hbelow (Part.closeObject ((k, v) :: ms)) (depth - 1)
      exact ⟨b'', (handle_endObject t _ below).trans hput, hfits⟩
  | element comma =>
    cases hpending
    rcases Control.element_take hmove with hvalue | ⟨-, -, rfl, rfl⟩
    · exact deliver_value hvalue hb
    · obtain ⟨ds, below, rfl, hbelow⟩ := hb
      obtain ⟨b'', hput, hfits⟩ := put_of_receives hbelow (Part.closeArray ds) (depth - 1)
      exact ⟨b'', (handle_endArray t ds below).trans hput, hfits⟩
  | elementEnd =>
    cases hpending
    rcases Control.elementEnd_take hmove with ⟨-, rfl, rfl⟩ | ⟨-, rfl, rfl⟩
    · exact ⟨b, rfl, hb⟩
    · obtain ⟨ds, below, rfl, hbelow⟩ := hb
      obtain ⟨b'', hput, hfits⟩ := put_of_receives hbelow (Part.closeArray ds) (depth - 1)
      exact ⟨b'', (handle_endArray t ds below).trans hput, hfits⟩
  | complete => cases hmove

end Builder

/-! ## Runs -/

namespace Parser

variable {d : Dialect}

theorem halt_malformed {c : Control} {b : Builder} (hb : b.Fits c) (consumed rest : List Token)
    (t : Token) :
    (halt Builder.handle c consumed rest t b).result =
      .error (.malformed ⟨t.position, (c.halt t).2⟩) := by
  obtain ⟨b', hpending⟩ := Builder.deliver_pending hb t
  simp only [halt, Control.halt_pending, hpending]

/-- A parser that reports to a builder reads a value or meets a syntax error. -/
theorem run_malformed {c : Control} {b : Builder} (hb : b.Fits c) (consumed ts : List Token) :
    (run d Builder.handle c consumed b ts).result = .ok () ∨
      ∃ e, (run d Builder.handle c consumed b ts).result = .error (.malformed e) := by
  -- The builder refuses in cases 3 and 6 only, and there the invariant says that it does not.
  fun_induction run d Builder.handle c consumed b ts with
  | case1 c consumed b => exact .inr ⟨_, halt_malformed hb consumed _ _⟩
  | case2 c consumed b => exact .inr ⟨_, halt_malformed hb consumed _ _⟩
  | case3 c consumed b t _ _ _ _ e hbefore =>
    obtain ⟨b', hpending⟩ := Builder.deliver_pending hb t
    rw [Control.move_before, hpending] at hbefore
    cases hbefore
  | case4 => exact .inr ⟨_, rfl⟩
  | case5 => exact .inr ⟨_, rfl⟩
  | case6 c consumed b t rest _ b' hbefore next _ event b'' e hevent hverdict =>
    rw [Control.move_before] at hbefore
    obtain ⟨b₂, hdeliver, -⟩ :=
      Builder.deliver_event hb hbefore (congrArg (Move.mk _) hverdict)
    rw [hevent] at hdeliver
    cases hdeliver
  | case7 => exact .inl rfl
  | case8 c consumed b t rest _ b' hbefore next event b'' hevent _ hverdict ih =>
    rw [Control.move_before] at hbefore
    obtain ⟨b₂, hdeliver, hfits⟩ :=
      Builder.deliver_event hb hbefore (congrArg (Move.mk _) hverdict)
    rw [hevent] at hdeliver
    cases hdeliver
    exact ih hfits

end Parser

end RelaxedJson
