-- SUMMARY: The automaton of the value grammar reads exactly the acceptable derivations.
import RelaxedJson.Proofs.Grammar.Allowed

/-!
# The automaton reads derivations

`Control.reads?` runs the automaton over tokens without a handler and collects what it reports. It
reads every acceptable derivation and reports its traversal (`Tree.reads`); and whatever it reads up
to the end of a value is an acceptable derivation (`Control.completes_of_reads`). The latter goes
backwards: what remains to be read determines how the derivation goes on (`Control.Completes`), and
each step puts one token in front of that.
-/

namespace RelaxedJson

/-! ## Traversals -/

mutual

/-- The events of a derivation in order. -/
def Tree.events : Tree → List Event
  | .scalar s             => [.scalar s.token]
  | .emptyArray l r       => [.beginArray l, .endArray r]
  | .array l first rest r => .beginArray l :: (first.events ++ (rest.events ++ [.endArray r]))
  | .emptyObject l r      => [.beginObject l, .endObject r]
  | .object l key _ first rest r =>
    .beginObject l :: .beginMember key.text key.token ::
      (first.events ++ (rest.events r ++ [.endObject r]))

def ElementsTail.events : ElementsTail → List Event
  | .done                => []
  | .trailing _          => []
  | .next _ element rest => element.events ++ rest.events

/-- The events of the rest of an object that `r` closes, from the end of the member in front on. -/
def MembersTail.events (r : Token) : MembersTail → List Event
  | .done           => [.endMember r]
  | .trailing comma => [.endMember comma]
  | .next comma key _ value rest =>
    .endMember comma :: .beginMember key.text key.token :: (value.events ++ rest.events r)

end

/-! ## Reading tokens -/

namespace Control

/-- What is reported for a token and the control behind it, unless the token is a fault. -/
def accept? (d : Dialect) (c : Control) (t : Token) : Option (List Event × Control) :=
  if t.kind = .endOfInput then none
  else match c.move d .origin t with
    | { before, verdict := .take next (.ok event) } => some (before.toList ++ event.toList, next)
    | _ => none

variable {d : Dialect} {c next : Control} {t : Token} {es : List Event}

/-- The position of the token read last matters only for faults. -/
theorem move_of_take {p q : Position} {before : Option Event}
    {report : Except SyntaxError (Option Event)}
    (h : c.move d p t = { before, verdict := .take next report }) :
    c.move d q t = { before, verdict := .take next report } := by
  obtain ⟨depth, goal, cs⟩ := c
  cases goal with
  | member keys comma =>
    simp only [move] at h ⊢
    split at h
    · rename_i hk
      rw [if_pos hk]
      exact h
    · rename_i hk
      split at h
      · cases h
      · rename_i htrailing
        rw [if_neg hk, if_neg htrailing]
        exact h
  | element comma =>
    simp only [move] at h ⊢
    split at h
    · rename_i hk
      rw [if_pos hk]
      exact h
    · rename_i hk
      split at h
      · cases h
      · rename_i htrailing
        rw [if_neg hk, if_neg htrailing]
        exact h
  | _ => exact h

theorem accept?_eq_some_iff (p : Position) :
    c.accept? d t = some (es, next) ↔
      t.kind ≠ .endOfInput ∧ ∃ before event, es = before.toList ++ event.toList ∧
        c.move d p t = { before, verdict := .take next (.ok event) } := by
  unfold accept?
  constructor
  · intro h
    split at h
    · cases h
    · rename_i hend
      split at h
      · rename_i before next' event hmove
        cases h
        exact ⟨hend, before, event, rfl, move_of_take hmove⟩
      · cases h
  · rintro ⟨hend, before, event, rfl, hmove⟩
    rw [if_neg hend, move_of_take hmove]

/-- Behind a finished value nothing is read. -/
theorem accept?_of_complete (h : c.goal = .complete) : c.accept? d t = none := by
  cases haccept : c.accept? d t with
  | none => rfl
  | some p =>
    obtain ⟨-, before, event, -, hmove⟩ := (accept?_eq_some_iff .origin).mp haccept
    simp [move, h, refuse] at hmove

end Control

/-- Reading `ts`, the automaton gets from one control to another and reports the given events. -/
inductive Reads (d : Dialect) : Control → List Token → List Event → Control → Prop where
  | nil {c : Control} : Reads d c [] [] c
  | cons {c next last : Control} {t : Token} {ts : List Token} {es fs : List Event} :
      c.accept? d t = some (es, next) → Reads d next ts fs last →
        Reads d c (t :: ts) (es ++ fs) last

namespace Reads

variable {d : Dialect} {c next last : Control} {ts us : List Token} {es fs : List Event}

theorem single {t : Token} (h : c.accept? d t = some (es, next)) : Reads d c [t] es next := by
  simpa using Reads.cons h .nil

/-- A token for which nothing is reported. -/
theorem silent {t : Token} (h : c.accept? d t = some ([], next)) (h' : Reads d next ts es last) :
    Reads d c (t :: ts) es last :=
  .cons h h'

theorem append (h : Reads d c ts es next) (h' : Reads d next us fs last) :
    Reads d c (ts ++ us) (es ++ fs) last := by
  induction h with
  | nil => exact h'
  | cons haccept _ ih =>
    rw [List.cons_append, List.append_assoc]
    exact .cons haccept (ih h')

/-- The tokens determine the events and the control behind them. -/
theorem unique (h : Reads d c ts es next) (h' : Reads d c ts fs last) : es = fs ∧ next = last := by
  induction h generalizing fs last with
  | nil =>
    cases h'
    exact ⟨rfl, rfl⟩
  | cons haccept _ ih =>
    cases h' with
    | cons haccept' hrest =>
      rw [haccept] at haccept'
      cases haccept'
      obtain ⟨rfl, rfl⟩ := ih hrest
      exact ⟨rfl, rfl⟩

end Reads

/-! ## Single tokens -/

namespace Control

variable (d : Dialect) (depth : Nat) (cs : List Context)

theorem accept?_scalar (s : Scalar) :
    accept? d ⟨depth, .value, cs⟩ s.token = some ([.scalar s.token], finish depth cs) := by
  obtain ⟨t, v, hv⟩ := s
  unfold Token.value? at hv
  split at hv <;>
    simp_all [accept?, move, value, Token.hasLiteral]

theorem accept?_leftBracket (h : depth < d.depthLimit) (l : Terminal .leftBracket) :
    accept? d ⟨depth, .value, cs⟩ l = some ([.beginArray l], ⟨depth + 1, .element false, cs⟩) := by
  have hdepth : ¬ d.depthLimit < depth + 1 := by omega
  simp [accept?, move, value, opening, l.2, hdepth]

theorem accept?_leftBrace (h : depth < d.depthLimit) (l : Terminal .leftBrace) :
    accept? d ⟨depth, .value, cs⟩ l = some ([.beginObject l], ⟨depth + 1, .member [] false, cs⟩) := by
  have hdepth : ¬ d.depthLimit < depth + 1 := by omega
  simp [accept?, move, value, opening, l.2, hdepth]

/-- Inside an array a value may start wherever the array may end. -/
theorem accept?_element {t : Token} (ht : t.kind ≠ .rightBracket) (comma : Bool) :
    accept? d ⟨depth, .element comma, cs⟩ t = accept? d ⟨depth, .value, .array :: cs⟩ t := by
  simp [accept?, move, ht]

theorem accept?_rightBracket {comma : Bool} (h : comma → d.trailingCommas)
    (r : Terminal .rightBracket) :
    accept? d ⟨depth, .element comma, cs⟩ r = some ([.endArray r], finish (depth - 1) cs) := by
  have htrailing : ¬ (comma = true ∧ d.trailingCommas = false) := by
    rintro ⟨hcomma, hoff⟩
    rw [h hcomma] at hoff
    cases hoff
  simp [accept?, move, closing, r.2, htrailing]

theorem accept?_elementEnd_comma (comma : Terminal .comma) :
    accept? d ⟨depth, .elementEnd, cs⟩ comma = some ([], ⟨depth, .element true, cs⟩) := by
  simp [accept?, move, comma.2]

theorem accept?_elementEnd_close (r : Terminal .rightBracket) :
    accept? d ⟨depth, .elementEnd, cs⟩ r = some ([.endArray r], finish (depth - 1) cs) := by
  simp [accept?, move, closing, r.2]

theorem accept?_key {keys : List Bytes} (key : Key) (h : key.text ∉ keys) (comma : Bool) :
    accept? d ⟨depth, .member keys comma, cs⟩ key.token =
      some ([.beginMember key.text key.token], ⟨depth, .colon (key.text :: keys), cs⟩) := by
  have hbrace : key.token.kind ≠ .rightBrace := fun hk =>
    key.token_ne ⟨key.token, hk⟩ (by decide) (by decide) rfl
  have hend : key.token.kind ≠ .endOfInput := fun hk =>
    key.token_ne ⟨key.token, hk⟩ (by decide) (by decide) rfl
  simp [accept?, move, Control.key, hbrace, hend, key.spells, h]

theorem accept?_colon (keys : List Bytes) (colon : Terminal .colon) :
    accept? d ⟨depth, .colon keys, cs⟩ colon = some ([], ⟨depth, .value, .object keys :: cs⟩) := by
  simp [accept?, move, colon.2]

theorem accept?_rightBrace {keys : List Bytes} {comma : Bool} (h : comma → d.trailingCommas)
    (r : Terminal .rightBrace) :
    accept? d ⟨depth, .member keys comma, cs⟩ r = some ([.endObject r], finish (depth - 1) cs) := by
  have htrailing : ¬ (comma = true ∧ d.trailingCommas = false) := by
    rintro ⟨hcomma, hoff⟩
    rw [h hcomma] at hoff
    cases hoff
  simp [accept?, move, closing, r.2, htrailing]

theorem accept?_memberEnd_comma (keys : List Bytes) (comma : Terminal .comma) :
    accept? d ⟨depth, .memberEnd keys, cs⟩ comma =
      some ([.endMember comma], ⟨depth, .member keys true, cs⟩) := by
  simp [accept?, move, comma.2]

theorem accept?_memberEnd_close (keys : List Bytes) (r : Terminal .rightBrace) :
    accept? d ⟨depth, .memberEnd keys, cs⟩ r =
      some ([.endMember r, .endObject r], finish (depth - 1) cs) := by
  simp [accept?, move, closing, r.2]

end Control

/-! ## Derivations are read -/

theorem Reads.element {d : Dialect} {depth : Nat} {cs : List Context} {T : Tree} {es : List Event}
    {last : Control} (comma : Bool) (h : Reads d ⟨depth, .value, .array :: cs⟩ T.tokens es last) :
    Reads d ⟨depth, .element comma, cs⟩ T.tokens es last := by
  generalize htokens : T.tokens = ts at h
  cases h with
  | nil => exact absurd htokens T.tokens_ne_nil
  | @cons _ _ _ t ts' _ _ haccept hrest =>
    have ht : t.kind ≠ .rightBracket := fun hk =>
      T.tokens_ne_cons ⟨t, hk⟩ [] ts' (.inl rfl) (by simpa using htokens)
    exact .cons (by rw [Control.accept?_element d depth cs ht]; exact haccept) hrest

mutual

/-- The automaton reads an acceptable derivation and reports its traversal. -/
theorem Tree.reads (d : Dialect) (depth : Nat) (cs : List Context) (T : Tree)
    (h : T.Allowed d depth) :
    Reads d ⟨depth, .value, cs⟩ T.tokens T.events (Control.finish depth cs) := by
  cases T with
  | scalar s => exact .single (Control.accept?_scalar d depth cs s)
  | emptyArray l r =>
    exact .cons (Control.accept?_leftBracket d depth cs h l)
      (.single (Control.accept?_rightBracket d (depth + 1) cs (by simp) r))
  | array l first rest r =>
    obtain ⟨hdepth, hfirst, hrest⟩ := h
    refine .cons (Control.accept?_leftBracket d depth cs hdepth l) ?_
    refine .append (Reads.element false (first.reads d (depth + 1) (.array :: cs) hfirst)) ?_
    exact rest.reads d depth cs r hrest
  | emptyObject l r =>
    exact .cons (Control.accept?_leftBrace d depth cs h l)
      (.single (Control.accept?_rightBrace d (depth + 1) cs (by simp) r))
  | object l key colon first rest r =>
    obtain ⟨hdepth, hfirst, hrest⟩ := h
    refine .cons (Control.accept?_leftBrace d depth cs hdepth l) ?_
    refine .cons (Control.accept?_key d (depth + 1) cs key (by simp) false) ?_
    refine .silent (Control.accept?_colon d (depth + 1) cs [key.text] colon) ?_
    refine .append (first.reads d (depth + 1) (.object [key.text] :: cs) hfirst) ?_
    exact rest.reads d depth cs [key.text] r hrest

theorem ElementsTail.reads (d : Dialect) (depth : Nat) (cs : List Context) (E : ElementsTail)
    (r : Terminal .rightBracket) (h : E.Allowed d (depth + 1)) :
    Reads d ⟨depth + 1, .elementEnd, cs⟩ (E.tokens ++ [r.val]) (E.events ++ [.endArray r])
      (Control.finish depth cs) := by
  cases E with
  | done => exact .single (Control.accept?_elementEnd_close d (depth + 1) cs r)
  | trailing comma =>
    exact .cons (Control.accept?_elementEnd_comma d (depth + 1) cs comma)
      (.single (Control.accept?_rightBracket d (depth + 1) cs (fun _ => h) r))
  | next comma element rest =>
    obtain ⟨helement, hrest⟩ := h
    simp only [ElementsTail.tokens, ElementsTail.events, List.cons_append, List.append_assoc]
    refine .silent (Control.accept?_elementEnd_comma d (depth + 1) cs comma) ?_
    refine .append (Reads.element true (element.reads d (depth + 1) (.array :: cs) helement)) ?_
    exact rest.reads d depth cs r hrest

theorem MembersTail.reads (d : Dialect) (depth : Nat) (cs : List Context) (keys : List Bytes)
    (M : MembersTail) (r : Terminal .rightBrace) (h : M.Allowed d (depth + 1) keys) :
    Reads d ⟨depth + 1, .memberEnd keys, cs⟩ (M.tokens ++ [r.val]) (M.events r ++ [.endObject r])
      (Control.finish depth cs) := by
  cases M with
  | done => exact .single (Control.accept?_memberEnd_close d (depth + 1) cs keys r)
  | trailing comma =>
    exact .cons (Control.accept?_memberEnd_comma d (depth + 1) cs keys comma)
      (.single (Control.accept?_rightBrace d (depth + 1) cs (fun _ => h) r))
  | next comma key colon value rest =>
    obtain ⟨hkey, hvalue, hrest⟩ := h
    simp only [MembersTail.tokens, MembersTail.events, List.cons_append, List.append_assoc]
    refine .cons (Control.accept?_memberEnd_comma d (depth + 1) cs keys comma) ?_
    refine .cons (Control.accept?_key d (depth + 1) cs key hkey true) ?_
    refine .silent (Control.accept?_colon d (depth + 1) cs (key.text :: keys) colon) ?_
    refine .append (value.reads d (depth + 1) (.object (key.text :: keys) :: cs) hvalue) ?_
    exact rest.reads d depth cs (key.text :: keys) r hrest

end

/-! ## What is read is a derivation -/

/-- `ts` is what may stand behind a finished value: it ends all arrays and objects around it. -/
def Context.Closes (d : Dialect) : (depth : Nat) → List Context → List Token → Prop
  | _, [], ts => ts = []
  | depth, .array :: cs, ts =>
    ∃ (E : ElementsTail) (r : Terminal .rightBracket) (us : List Token),
      E.Allowed d depth ∧ ts = E.tokens ++ r.val :: us ∧ Closes d (depth - 1) cs us
  | depth, .object keys :: cs, ts =>
    ∃ (M : MembersTail) (r : Terminal .rightBrace) (us : List Token),
      M.Allowed d depth keys ∧ ts = M.tokens ++ r.val :: us ∧ Closes d (depth - 1) cs us

/-- `ts` starts with a value, and what follows it closes the contexts. -/
def Context.ClosesValue (d : Dialect) (depth : Nat) (cs : List Context) (ts : List Token) : Prop :=
  ∃ (T : Tree) (us : List Token), T.Allowed d depth ∧ ts = T.tokens ++ us ∧ Closes d depth cs us

/-- `ts` is what may be read from a control up to the end of the value. -/
def Control.Completes (d : Dialect) (c : Control) (ts : List Token) : Prop :=
  match c.goal with
  | .value => Context.ClosesValue d c.depth c.contexts ts
  | .member keys comma =>
    (∃ (r : Terminal .rightBrace) (us : List Token), (comma → d.trailingCommas) ∧ ts = r.val :: us ∧
      Context.Closes d (c.depth - 1) c.contexts us) ∨
    (∃ (key : Key) (colon : Terminal .colon) (us : List Token), key.text ∉ keys ∧
      ts = key.token :: colon.val :: us ∧
      Context.ClosesValue d c.depth (.object (key.text :: keys) :: c.contexts) us)
  | .colon keys =>
    ∃ (colon : Terminal .colon) (us : List Token), ts = colon.val :: us ∧
      Context.ClosesValue d c.depth (.object keys :: c.contexts) us
  | .memberEnd keys => Context.Closes d c.depth (.object keys :: c.contexts) ts
  | .element comma =>
    (∃ (r : Terminal .rightBracket) (us : List Token), (comma → d.trailingCommas) ∧
      ts = r.val :: us ∧ Context.Closes d (c.depth - 1) c.contexts us) ∨
    Context.ClosesValue d c.depth (.array :: c.contexts) ts
  | .elementEnd => Context.Closes d c.depth (.array :: c.contexts) ts
  | .complete => ts = []

theorem Token.value?_of_hasLiteral {t : Token} (h : t.hasLiteral) : ∃ v, t.value? = some v := by
  unfold Token.hasLiteral at h
  split at h
  · rename_i s hk hl
    exact ⟨.string s, by simp [Token.value?, hk, hl]⟩
  · rename_i x hk hl
    exact ⟨.number x, by simp [Token.value?, hk, hl]⟩
  · cases h

namespace Control

theorem completes_finish {d : Dialect} {depth : Nat} {cs : List Context} {ts : List Token} :
    (finish depth cs).Completes d ts ↔ Context.Closes d depth cs ts := by
  cases cs with
  | nil => rfl
  | cons ctx cs => cases ctx <;> rfl

/-- A token with which a value starts is a scalar or an opening bracket that is not too deep. -/
theorem value_take {d : Dialect} {depth : Nat} {cs : List Context} {t : Token} {next : Control}
    {event : Option Event} (h : value d depth cs t = .take next (.ok event)) :
    (∃ s : Scalar, s.token = t ∧ next = finish depth cs ∧ event = some (.scalar t)) ∨
    (t.kind = .leftBracket ∧ depth < d.depthLimit ∧ next = ⟨depth + 1, .element false, cs⟩ ∧
      event = some (.beginArray t)) ∨
    (t.kind = .leftBrace ∧ depth < d.depthLimit ∧ next = ⟨depth + 1, .member [] false, cs⟩ ∧
      event = some (.beginObject t)) := by
  unfold value at h
  split at h
  · rename_i hk
    unfold opening at h
    split at h
    · cases h
    · cases h
      exact .inr (.inr ⟨hk, by omega, rfl, rfl⟩)
  · rename_i hk
    unfold opening at h
    split at h
    · cases h
    · cases h
      exact .inr (.inl ⟨hk, by omega, rfl, rfl⟩)
  · rename_i hk
    cases h
    exact .inl ⟨⟨t, .null, by simp [Token.value?, hk]⟩, rfl, rfl, rfl⟩
  · rename_i hk
    cases h
    exact .inl ⟨⟨t, .bool true, by simp [Token.value?, hk]⟩, rfl, rfl, rfl⟩
  · rename_i hk
    cases h
    exact .inl ⟨⟨t, .bool false, by simp [Token.value?, hk]⟩, rfl, rfl, rfl⟩
  · split at h
    · rename_i hliteral
      obtain ⟨v, hv⟩ := Token.value?_of_hasLiteral hliteral
      cases h
      exact .inl ⟨⟨t, v, hv⟩, rfl, rfl, rfl⟩
    · cases h
  · split at h
    · rename_i hliteral
      obtain ⟨v, hv⟩ := Token.value?_of_hasLiteral hliteral
      cases h
      exact .inl ⟨⟨t, v, hv⟩, rfl, rfl, rfl⟩
    · cases h
  · cases h

section Take

variable {d : Dialect} {depth : Nat} {cs : List Context} {p : Position} {t : Token} {next : Control}
  {before event : Option Event}

/-- Where a member may start, a token is a new key or the bracket that ends the object. -/
theorem member_take {keys : List Bytes} {comma : Bool}
    (h : move d ⟨depth, .member keys comma, cs⟩ p t = ⟨before, .take next (.ok event)⟩) :
    (∃ key : Key, key.token = t ∧ key.text ∉ keys ∧
      next = ⟨depth, .colon (key.text :: keys), cs⟩ ∧ event = some (.beginMember key.text t)) ∨
    (t.kind = .rightBrace ∧ (comma → d.trailingCommas) ∧ next = finish (depth - 1) cs ∧
      event = some (.endObject t)) := by
  simp only [move] at h
  split at h
  · have hkey := (Move.mk.inj h).2
    unfold Control.key at hkey
    split at hkey
    · cases hkey
    · rename_i text htext
      split at hkey
      · cases hkey
      · rename_i hnew
        cases hkey
        exact .inl ⟨⟨t, text, htext⟩, rfl, hnew, rfl, rfl⟩
  · rename_i hk
    split at h
    · cases h
    · rename_i htrailing
      cases h
      refine .inr ⟨by simpa using hk, fun hcomma => ?_, rfl, rfl⟩
      simpa [hcomma] using htrailing

theorem colon_take {keys : List Bytes}
    (h : move d ⟨depth, .colon keys, cs⟩ p t = ⟨before, .take next (.ok event)⟩) :
    t.kind = .colon ∧ next = ⟨depth, .value, .object keys :: cs⟩ ∧ event = none := by
  simp only [move] at h
  split at h
  · rename_i hk
    cases h
    exact ⟨hk, rfl, rfl⟩
  · cases h

theorem memberEnd_take {keys : List Bytes}
    (h : move d ⟨depth, .memberEnd keys, cs⟩ p t = ⟨before, .take next (.ok event)⟩) :
    (t.kind = .comma ∧ next = ⟨depth, .member keys true, cs⟩ ∧ event = none) ∨
    (t.kind = .rightBrace ∧ next = finish (depth - 1) cs ∧ event = some (.endObject t)) := by
  have hverdict := (Move.mk.inj h).2
  split at hverdict
  · rename_i hk
    cases hverdict
    exact .inl ⟨hk, rfl, rfl⟩
  · rename_i hk
    cases hverdict
    exact .inr ⟨hk, rfl, rfl⟩
  · cases hverdict

/-- Where an element may start, a token starts a value or is the bracket that ends the array. -/
theorem element_take {comma : Bool}
    (h : move d ⟨depth, .element comma, cs⟩ p t = ⟨before, .take next (.ok event)⟩) :
    value d depth (.array :: cs) t = .take next (.ok event) ∨
    (t.kind = .rightBracket ∧ (comma → d.trailingCommas) ∧ next = finish (depth - 1) cs ∧
      event = some (.endArray t)) := by
  simp only [move] at h
  split at h
  · exact .inl (Move.mk.inj h).2
  · rename_i hk
    split at h
    · cases h
    · rename_i htrailing
      cases h
      refine .inr ⟨by simpa using hk, fun hcomma => ?_, rfl, rfl⟩
      simpa [hcomma] using htrailing

theorem elementEnd_take
    (h : move d ⟨depth, .elementEnd, cs⟩ p t = ⟨before, .take next (.ok event)⟩) :
    (t.kind = .comma ∧ next = ⟨depth, .element true, cs⟩ ∧ event = none) ∨
    (t.kind = .rightBracket ∧ next = finish (depth - 1) cs ∧ event = some (.endArray t)) := by
  have hverdict := (Move.mk.inj h).2
  split at hverdict
  · rename_i hk
    cases hverdict
    exact .inl ⟨hk, rfl, rfl⟩
  · rename_i hk
    cases hverdict
    exact .inr ⟨hk, rfl, rfl⟩
  · cases hverdict

end Take

/-- A token with which a value starts, in front of what completes the control behind it. -/
theorem closesValue_of_value {d : Dialect} {depth : Nat} {cs : List Context} {t : Token}
    {next : Control} {event : Option Event} {ts : List Token}
    (h : value d depth cs t = .take next (.ok event)) (hts : next.Completes d ts) :
    Context.ClosesValue d depth cs (t :: ts) := by
  rcases value_take h with ⟨s, rfl, rfl, -⟩ | ⟨hk, hdepth, rfl, -⟩ | ⟨hk, hdepth, rfl, -⟩
  · exact ⟨.scalar s, ts, trivial, rfl, completes_finish.mp hts⟩
  · rcases hts with ⟨r, us, -, rfl, hus⟩ | ⟨T, us, hT, rfl, E, r, vs, hE, rfl, hvs⟩
    · exact ⟨.emptyArray ⟨t, hk⟩ r, us, hdepth, rfl, hus⟩
    · exact ⟨.array ⟨t, hk⟩ T E r, vs, ⟨hdepth, hT, hE⟩, by simp [Tree.tokens], hvs⟩
  · rcases hts with ⟨r, us, -, rfl, hus⟩ | ⟨key, colon, us, -, rfl, hvalue⟩
    · exact ⟨.emptyObject ⟨t, hk⟩ r, us, hdepth, rfl, hus⟩
    · obtain ⟨T, vs, hT, rfl, M, r, ws, hM, rfl, hws⟩ := hvalue
      exact ⟨.object ⟨t, hk⟩ key colon T M r, ws, ⟨hdepth, hT, hM⟩, by simp [Tree.tokens], hws⟩

/-- One step back: a token in front of what completes the control behind it. -/
theorem completes_cons {d : Dialect} {c next : Control} {t : Token} {es : List Event}
    {ts : List Token} (h : c.accept? d t = some (es, next)) (hts : next.Completes d ts) :
    c.Completes d (t :: ts) := by
  obtain ⟨depth, goal, cs⟩ := c
  obtain ⟨-, before, event, -, hmove⟩ := (accept?_eq_some_iff .origin).mp h
  cases goal with
  | value => exact closesValue_of_value (Move.mk.inj hmove).2 hts
  | member keys comma =>
    rcases member_take hmove with ⟨key, rfl, hnew, rfl, -⟩ | ⟨hk, htrailing, rfl, -⟩
    · obtain ⟨colon, us, rfl, hus⟩ := hts
      exact .inr ⟨key, colon, us, hnew, rfl, hus⟩
    · exact .inl ⟨⟨t, hk⟩, ts, htrailing, rfl, completes_finish.mp hts⟩
  | colon keys =>
    obtain ⟨hk, rfl, -⟩ := colon_take hmove
    exact ⟨⟨t, hk⟩, ts, rfl, hts⟩
  | memberEnd keys =>
    rcases memberEnd_take hmove with ⟨hk, rfl, -⟩ | ⟨hk, rfl, -⟩
    · rcases hts with ⟨r, us, htrailing, rfl, hus⟩ | ⟨key, colon, us, hnew, rfl, hvalue⟩
      · exact ⟨.trailing ⟨t, hk⟩, r, us, htrailing rfl, rfl, hus⟩
      · obtain ⟨T, vs, hT, rfl, M, r, ws, hM, rfl, hws⟩ := hvalue
        exact ⟨.next ⟨t, hk⟩ key colon T M, r, ws, ⟨hnew, hT, hM⟩, by simp [MembersTail.tokens],
          hws⟩
    · exact ⟨.done, ⟨t, hk⟩, ts, trivial, rfl, completes_finish.mp hts⟩
  | element comma =>
    rcases element_take hmove with hvalue | ⟨hk, htrailing, rfl, -⟩
    · exact .inr (closesValue_of_value hvalue hts)
    · exact .inl ⟨⟨t, hk⟩, ts, htrailing, rfl, completes_finish.mp hts⟩
  | elementEnd =>
    rcases elementEnd_take hmove with ⟨hk, rfl, -⟩ | ⟨hk, rfl, -⟩
    · rcases hts with ⟨r, us, htrailing, rfl, hus⟩ | ⟨T, us, hT, rfl, E, r, vs, hE, rfl, hvs⟩
      · exact ⟨.trailing ⟨t, hk⟩, r, us, htrailing rfl, rfl, hus⟩
      · exact ⟨.next ⟨t, hk⟩ T E, r, vs, ⟨hT, hE⟩, by simp [ElementsTail.tokens], hvs⟩
    · exact ⟨.done, ⟨t, hk⟩, ts, trivial, rfl, completes_finish.mp hts⟩
  | complete =>
    rw [accept?_of_complete rfl] at h
    cases h

/-- All the way back: what is read up to the end of a value completes the control in front of it. -/
theorem completes_of_reads {d : Dialect} {c last : Control} {ts : List Token} {es : List Event}
    (h : Reads d c ts es last) (hlast : last.goal = .complete) : c.Completes d ts := by
  induction h with
  | nil =>
    unfold Completes
    rw [hlast]
  | cons haccept _ ih => exact completes_cons haccept (ih hlast)

end Control

/-- What the automaton reads as a value is an acceptable derivation. -/
theorem Tree.of_reads {d : Dialect} {depth : Nat} {last : Control} {ts : List Token}
    {es : List Event} (h : Reads d { depth } ts es last) (hlast : last.goal = .complete) :
    ∃ T : Tree, T.Allowed d depth ∧ T.tokens = ts := by
  obtain ⟨T, us, hT, rfl, rfl⟩ := Control.completes_of_reads h hlast
  exact ⟨T, hT, by simp⟩

end RelaxedJson
