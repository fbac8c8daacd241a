-- SUMMARY: A parser's successes are readings of the automaton whose events the handler takes.
import RelaxedJson.Proofs.Grammar.Automaton
import RelaxedJson.Value.Parse

/-!
# Parsing

A parser succeeds exactly if the automaton reads a value and the handler takes all its events
(`Parser.run_of_reads`, `Parser.reads_of_run`). The builder takes the traversal of every derivation
and makes its value of it (`Tree.feed_events`).
-/

namespace RelaxedJson

/-! ## Handlers -/

namespace Handler

variable {σ ε : Type} (h : Handler σ ε)

/-- Passes on events until one is refused. -/
def feed : List Event → σ → σ × Option ε
  | [],      s => (s, none)
  | e :: es, s =>
    match h e s with
    | (s', none)   => feed es s'
    | (s', some x) => (s', some x)

variable {h} {s s' : σ} {es fs : List Event}

theorem feed_cons {e : Event} (he : h e s = (s', none)) : h.feed (e :: es) s = h.feed es s' := by
  simp only [feed, he]

theorem feed_append (hes : h.feed es s = (s', none)) : h.feed (es ++ fs) s = h.feed fs s' := by
  induction es generalizing s with
  | nil =>
    cases hes
    rfl
  | cons e es ih =>
    cases he : h e s with
    | mk s₁ x =>
      cases x with
      | none =>
        rw [feed_cons he] at hes
        rw [List.cons_append, feed_cons he, ih hes]
      | some x =>
        simp only [feed, he] at hes
        cases hes

theorem feed_append_inv (hes : h.feed (es ++ fs) s = (s', none)) :
    ∃ s₁, h.feed es s = (s₁, none) ∧ h.feed fs s₁ = (s', none) := by
  induction es generalizing s with
  | nil => exact ⟨s, rfl, hes⟩
  | cons e es ih =>
    cases he : h e s with
    | mk s₁ x =>
      cases x with
      | none =>
        rw [List.cons_append, feed_cons he] at hes
        rw [feed_cons he]
        exact ih hes
      | some x =>
        simp only [List.cons_append, feed, he] at hes
        cases hes

theorem deliver_eq_feed (e : Option Event) : h.deliver e s = h.feed e.toList s := by
  cases e with
  | none => rfl
  | some e =>
    cases he : h e s with
    | mk s₁ x => cases x <;> simp [deliver, feed, he]

end Handler

/-! ## Runs -/

namespace Parser

variable {σ ε : Type} {d : Dialect} {h : Handler σ ε}

/-- A parser succeeds on a value whose events are all taken. -/
theorem run_of_reads {c last : Control} {ts : List Token} {es : List Event} {s s' : σ}
    (hread : Reads d c ts es last) (hlast : last.goal = .complete) (hts : ts ≠ [])
    (hfeed : h.feed es s = (s', none)) (consumed rest : List Token) :
    run d h c consumed s (ts ++ rest) =
      { parser := { consumed := ts.reverse ++ consumed, rest, depth := last.depth },
        state := s', result := .ok () } := by
  induction hread generalizing s consumed with
  | nil => exact absurd rfl hts
  | @cons c next last t ts _ fs haccept hrest ih =>
    obtain ⟨hend, before, event, rfl, hmove⟩ :=
      (Control.accept?_eq_some_iff (previous consumed)).mp haccept
    obtain ⟨s₂, hes, hfs⟩ := Handler.feed_append_inv hfeed
    obtain ⟨s₁, hbefore, hevent⟩ := Handler.feed_append_inv hes
    rw [List.cons_append, run, if_neg hend]
    simp only [hmove, Handler.deliver_eq_feed, hbefore, hevent]
    cases hrest with
    | nil =>
      cases hfs
      rw [if_pos hlast]
      rfl
    | cons haccept' hrest =>
      have hnext : next.goal ≠ .complete := fun hcomplete => by
        rw [Control.accept?_of_complete hcomplete] at haccept'
        cases haccept'
      rw [if_neg hnext, ih hlast (by simp) hfs]
      simp

/-- What a parser succeeds on. -/
theorem reads_of_run {c : Control} {consumed ts : List Token} {s : σ}
    (hok : (run d h c consumed s ts).result = .ok ()) :
    ∃ used rest es last s', ts = used ++ rest ∧ used ≠ [] ∧ Reads d c used es last ∧
      last.goal = .complete ∧ h.feed es s = (s', none) := by
  fun_induction run d h c consumed s ts with
  | case1 c consumed s => exact absurd hok (halt_result_ne h c consumed _ _ s)
  | case2 c consumed s => exact absurd hok (halt_result_ne h c consumed _ _ s)
  | case7 c consumed s t rest hend s₁ hbefore next _ event s₂ hevent hcomplete hverdict =>
    rw [Handler.deliver_eq_feed] at hbefore hevent
    have hread : Reads d c [t] _ next :=
      .single ((Control.accept?_eq_some_iff (previous consumed)).mpr
        ⟨hend, _, event, rfl, by rw [← hverdict]⟩)
    refine ⟨[t], rest, _, next, s₂, rfl, by simp, hread, hcomplete, ?_⟩
    rw [Handler.feed_append hbefore, hevent]
  | case8 c consumed s t rest hend s₁ hbefore next event s₂ hevent _ hverdict ih =>
    rw [Handler.deliver_eq_feed] at hbefore hevent
    obtain ⟨used, rest', es, last, s', rfl, -, hread, hlast, hfeed⟩ := ih hok
    have haccept : c.accept? d t = some (_, next) :=
      (Control.accept?_eq_some_iff (previous consumed)).mpr
        ⟨hend, _, event, rfl, by rw [← hverdict]⟩
    refine ⟨t :: used, rest', _, last, s', rfl, by simp, .cons haccept hread, hlast, ?_⟩
    rw [Handler.feed_append ((Handler.feed_append hbefore).trans hevent), hfeed]
  | _ => cases hok

end Parser

/-! ## Building -/

/-- A finished draft of a value. -/
def Draft.ofValue (v : Value) : Draft :=
  { value := v, whole := true }

namespace Builder

theorem handle_scalar (s : Scalar) (b : Builder) :
    handle (.scalar s.token) b = b.put (.ofValue s.value) := by
  obtain ⟨t, v, hv⟩ := s
  have hscalar : scalar? t = some v := by
    unfold Token.value? at hv
    unfold scalar?
    split at hv <;> simp_all
  simp [handle, hscalar, Draft.ofValue]

theorem closeArray_drafts (vs : List Value) :
    Part.closeArray (vs.map Draft.ofValue).reverse = .ofValue (.array vs) := by
  simp [Part.closeArray, Draft.ofValue, Function.comp_def]

/-- The finished drafts of an object's members. -/
def memberDrafts (ms : List (Bytes × Value)) : List (Bytes × Draft) :=
  ms.map fun (k, v) => (k, .ofValue v)

theorem closeObject_drafts (ms : List (Bytes × Value)) :
    Part.closeObject (memberDrafts ms).reverse = .ofValue (.object ms) := by
  simp [Part.closeObject, memberDrafts, Draft.ofValue, Function.comp_def]

theorem handle_beginArray (l : Token) (b : Builder) :
    handle (.beginArray l) b = (.array [] :: b, none) := rfl

theorem handle_beginObject (l : Token) (b : Builder) :
    handle (.beginObject l) b = (.object [] :: b, none) := rfl

theorem handle_beginMember (k : Bytes) (t : Token) (ms : List (Bytes × Draft)) (b : Builder) :
    handle (.beginMember k t) (.object ms :: b) = (.member k none :: .object ms :: b, none) := rfl

theorem handle_endArray (r : Token) (ds : List Draft) (b : Builder) :
    handle (.endArray r) (.array ds :: b) = b.put (Part.closeArray ds) := by
  simp [handle, close, pop?]

theorem handle_endObject (r : Token) (ms : List (Bytes × Draft)) (b : Builder) :
    handle (.endObject r) (.object ms :: b) = b.put (Part.closeObject ms) := by
  simp [handle, close, pop?]

theorem handle_endMember (t : Token) (k : Bytes) (v : Draft) (ms : List (Bytes × Draft))
    (b : Builder) :
    handle (.endMember t) (.member k (some v) :: .object ms :: b) =
      (.object ((k, v) :: ms) :: b, none) := by
  simp [handle, close, pop?, join]

end Builder

theorem Handler.feed_singleton {σ ε : Type} (h : Handler σ ε) (e : Event) (s : σ) :
    h.feed [e] s = h e s := by
  cases he : h e s with
  | mk s' x => cases x <;> simp [feed, he]

mutual

/-- The builder makes of a derivation's events its value, wherever a value can be put. -/
theorem Tree.feed_events (T : Tree) (b : Builder) :
    Handler.feed Builder.handle T.events b = b.put (.ofValue T.value) := by
  cases T with
  | scalar s => rw [Tree.events, Handler.feed_singleton, Builder.handle_scalar, Tree.value]
  | emptyArray l r =>
    rw [Tree.events, Handler.feed_cons (Builder.handle_beginArray l b), Handler.feed_singleton,
      Builder.handle_endArray, Tree.value]
    exact congrArg b.put (Builder.closeArray_drafts [])
  | array l first rest r =>
    rw [Tree.events, Handler.feed_cons (Builder.handle_beginArray l b),
      Handler.feed_append (first.feed_events (.array [] :: b)),
      Handler.feed_append (rest.feed_events [.ofValue first.value] b), Handler.feed_singleton,
      Builder.handle_endArray, Tree.value]
    rw [← Builder.closeArray_drafts]
    simp
  | emptyObject l r =>
    rw [Tree.events, Handler.feed_cons (Builder.handle_beginObject l b), Handler.feed_singleton,
      Builder.handle_endObject, Tree.value]
    exact congrArg b.put (Builder.closeObject_drafts [])
  | object l key colon first rest r =>
    rw [Tree.events, Handler.feed_cons (Builder.handle_beginObject l b),
      Handler.feed_cons (Builder.handle_beginMember key.text key.token [] b),
      Handler.feed_append (first.feed_events (.member key.text none :: .object [] :: b)),
      Handler.feed_append (rest.feed_events r key.text (.ofValue first.value) [] b),
      Handler.feed_singleton, Builder.handle_endObject, Tree.value]
    rw [← Builder.closeObject_drafts]
    simp [Builder.memberDrafts]

theorem ElementsTail.feed_events (E : ElementsTail) (ds : List Draft) (b : Builder) :
    Handler.feed Builder.handle E.events (.array ds :: b) =
      (.array ((E.values.map Draft.ofValue).reverse ++ ds) :: b, none) := by
  cases E with
  | done => rfl
  | trailing comma => rfl
  | next comma element rest =>
    rw [ElementsTail.events, Handler.feed_append (element.feed_events (.array ds :: b)),
      rest.feed_events]
    simp [ElementsTail.values]

/-- The rest of an object, from the end of a member with the key `k` and the value `v` on. -/
theorem MembersTail.feed_events (M : MembersTail) (r : Token) (k : Bytes) (v : Draft)
    (ms : List (Bytes × Draft)) (b : Builder) :
    Handler.feed Builder.handle (M.events r) (.member k (some v) :: .object ms :: b) =
      (.object ((Builder.memberDrafts M.members).reverse ++ (k, v) :: ms) :: b, none) := by
  cases M with
  | done => rw [MembersTail.events, Handler.feed_singleton, Builder.handle_endMember]; rfl
  | trailing comma => rw [MembersTail.events, Handler.feed_singleton, Builder.handle_endMember]; rfl
  | next comma key colon value rest =>
    rw [MembersTail.events, Handler.feed_cons (Builder.handle_endMember comma k v ms b),
      Handler.feed_cons (Builder.handle_beginMember key.text key.token ((k, v) :: ms) b),
      Handler.feed_append (value.feed_events (.member key.text none :: .object ((k, v) :: ms) :: b)),
      rest.feed_events]
    simp [MembersTail.members, Builder.memberDrafts]

end

end RelaxedJson
