-- SUMMARY: A parser reports the traversal of a value; a handler that refuses an event cuts it off.
import RelaxedJson.Proofs.Grammar.Building
import RelaxedJson.Proofs.Grammar.Prefix

/-!
# Reports

What a parser reports, it reports to every handler alike. Its course is a matter of the tokens alone
(`Parser.course_gives`): the handler is given one event after the other, and all it can do is to
refuse one and so to end the run. The events of a course always are the beginning of the traversal of
a value, since what is open can be closed (`Control.continues_cons`). They are the whole traversal,
and the end of input is reported, exactly if the parser succeeds (`Parser.parse_events`).
-/

namespace RelaxedJson

/-! ## Traversals -/

mutual

/-- The events of a value from left to right. Whatever ends is what began last, and of the same
    kind. A member stands directly in an object, and has one value. -/
inductive Traversal : Value → List Event → Prop where
  | scalar (s : Scalar) : Traversal s.value [.scalar s.token]
  | array (l : Terminal .leftBracket) (r : Terminal .rightBracket) {vs : List Value}
      {es : List Event} : ElementsTraversal vs es →
        Traversal (.array vs) (.beginArray l :: (es ++ [.endArray r]))
  | object (l : Terminal .leftBrace) (r : Terminal .rightBrace) {ms : List (Bytes × Value)}
      {es : List Event} : MembersTraversal ms es →
        Traversal (.object ms) (.beginObject l :: (es ++ [.endObject r]))

/-- The events of the elements of an array. -/
inductive ElementsTraversal : List Value → List Event → Prop where
  | nil : ElementsTraversal [] []
  | cons {v : Value} {vs : List Value} {es fs : List Event} : Traversal v es →
      ElementsTraversal vs fs → ElementsTraversal (v :: vs) (es ++ fs)

/-- The events of the members of an object. A member may end with any token. -/
inductive MembersTraversal : List (Bytes × Value) → List Event → Prop where
  | nil : MembersTraversal [] []
  | cons (key : Key) (u : Token) {v : Value} {ms : List (Bytes × Value)} {es fs : List Event} :
      Traversal v es → MembersTraversal ms fs →
        MembersTraversal ((key.text, v) :: ms)
          (.beginMember key.text key.token :: (es ++ .endMember u :: fs))

end

/-- The traversal of a value, and behind it the end of input. -/
def Event.WellNested (es : List Event) : Prop :=
  ∃ v fs t, Traversal v fs ∧ es = fs ++ [.endOfInput t]

mutual

/-- The events of a derivation are the traversal of its value. -/
theorem Tree.traversal (T : Tree) : Traversal T.value T.events := by
  cases T with
  | scalar s => exact .scalar s
  | emptyArray l r => exact .array l r .nil
  | array l first rest r =>
    rw [Tree.value, Tree.events, ← List.append_assoc]
    exact .array l r (.cons first.traversal rest.traversal)
  | emptyObject l r => exact .object l r .nil
  | object l key colon first rest r =>
    obtain ⟨u, es, hevents, hrest⟩ := rest.traversal r
    have hmembers := MembersTraversal.cons key u first.traversal hrest
    rw [Tree.value, Tree.events, hevents]
    simpa using Traversal.object l r hmembers

theorem ElementsTail.traversal (E : ElementsTail) : ElementsTraversal E.values E.events := by
  cases E with
  | done => exact .nil
  | trailing comma => exact .nil
  | next comma element rest => exact .cons element.traversal rest.traversal

theorem MembersTail.traversal (M : MembersTail) (r : Token) :
    ∃ u es, M.events r = .endMember u :: es ∧ MembersTraversal M.members es := by
  cases M with
  | done => exact ⟨r, [], rfl, .nil⟩
  | trailing comma => exact ⟨comma, [], rfl, .nil⟩
  | next comma key colon value rest =>
    obtain ⟨u, es, hevents, hrest⟩ := rest.traversal r
    refine ⟨comma, _, rfl, ?_⟩
    rw [hevents]
    exact .cons key u value.traversal hrest

end

mutual

/-- The end of input is no part of a traversal. -/
theorem Traversal.endOfInput_not_mem {v : Value} {es : List Event} (h : Traversal v es)
    (t : Token) : Event.endOfInput t ∉ es := by
  cases h with
  | scalar s => simp
  | array l r helements => simpa using helements.endOfInput_not_mem t
  | object l r hmembers => simpa using hmembers.endOfInput_not_mem t

theorem ElementsTraversal.endOfInput_not_mem {vs : List Value} {es : List Event}
    (h : ElementsTraversal vs es) (t : Token) : Event.endOfInput t ∉ es := by
  cases h with
  | nil => simp
  | cons hfirst hrest =>
    simpa using ⟨hfirst.endOfInput_not_mem t, hrest.endOfInput_not_mem t⟩

theorem MembersTraversal.endOfInput_not_mem {ms : List (Bytes × Value)} {es : List Event}
    (h : MembersTraversal ms es) (t : Token) : Event.endOfInput t ∉ es := by
  cases h with
  | nil => simp
  | cons key u hfirst hrest =>
    simpa using ⟨hfirst.endOfInput_not_mem t, hrest.endOfInput_not_mem t⟩

end

/-! ## What is still to come -/

/-- The events may stand behind a finished value: they end all arrays and objects around it. -/
def Context.Ends : List Context → List Event → Prop
  | [], es => es = []
  | .array :: cs, es =>
    ∃ vs fs gs, ∃ r : Terminal .rightBracket, ElementsTraversal vs fs ∧
      es = fs ++ .endArray r :: gs ∧ Ends cs gs
  | .object _ :: cs, es =>
    ∃ u ms fs gs, ∃ r : Terminal .rightBrace, MembersTraversal ms fs ∧
      es = .endMember u :: (fs ++ .endObject r :: gs) ∧ Ends cs gs

/-- The events start with those of a value, and what follows ends the contexts. -/
def Context.EndsValue (cs : List Context) (es : List Event) : Prop :=
  ∃ v fs gs, Traversal v fs ∧ es = fs ++ gs ∧ Ends cs gs

/-- The events may be reported from a control up to the end of the value. -/
def Control.Continues (c : Control) (es : List Event) : Prop :=
  match c.goal with
  | .value          => Context.EndsValue c.contexts es
  | .member _ _     =>
    ∃ ms fs gs, ∃ r : Terminal .rightBrace, MembersTraversal ms fs ∧
      es = fs ++ .endObject r :: gs ∧ Context.Ends c.contexts gs
  | .colon keys     => Context.EndsValue (.object keys :: c.contexts) es
  | .memberEnd keys => Context.Ends (.object keys :: c.contexts) es
  | .element _      => Context.Ends (.array :: c.contexts) es
  | .elementEnd     => Context.Ends (.array :: c.contexts) es
  | .complete       => es = []

theorem Context.exists_ends (cs : List Context) : ∃ es, Ends cs es := by
  induction cs with
  | nil => exact ⟨[], rfl⟩
  | cons ctx cs ih =>
    obtain ⟨gs, hgs⟩ := ih
    cases ctx with
    | array => exact ⟨_, [], [], gs, ⟨{ kind := .rightBracket }, rfl⟩, .nil, rfl, hgs⟩
    | object keys =>
      exact ⟨_, { kind := .comma }, [], [], gs, ⟨{ kind := .rightBrace }, rfl⟩, .nil, rfl, hgs⟩

theorem Context.exists_endsValue (cs : List Context) : ∃ es, EndsValue cs es := by
  obtain ⟨gs, hgs⟩ := exists_ends cs
  exact ⟨_, _, _, gs, .scalar ⟨{ kind := .null }, .null, rfl⟩, rfl, hgs⟩

namespace Control

variable {d : Dialect} {c next : Control} {t : Token} {es fs : List Event}

theorem continues_finish {depth : Nat} {cs : List Context} :
    (finish depth cs).Continues es ↔ Context.Ends cs es := by
  cases cs with
  | nil => rfl
  | cons ctx cs => cases ctx <;> rfl

/-- There is a way to go on, also if the end of a member has been reported with any token. -/
theorem exists_continues (c : Control) (t : Token) :
    ∃ es, c.Continues ((c.pending t).toList ++ es) := by
  obtain ⟨depth, goal, cs⟩ := c
  obtain ⟨gs, hgs⟩ := Context.exists_ends cs
  cases goal with
  | value => exact Context.exists_endsValue cs
  | member keys comma => exact ⟨_, [], [], gs, ⟨{ kind := .rightBrace }, rfl⟩, .nil, rfl, hgs⟩
  | colon keys => exact Context.exists_endsValue (.object keys :: cs)
  | memberEnd keys => exact ⟨_, t, [], [], gs, ⟨{ kind := .rightBrace }, rfl⟩, .nil, rfl, hgs⟩
  | element comma => exact Context.exists_ends (.array :: cs)
  | elementEnd => exact Context.exists_ends (.array :: cs)
  | complete => exact ⟨[], rfl⟩

/-- The event of a token with which a value starts, in front of what the next control goes on to. -/
theorem endsValue_of_value {depth : Nat} {cs : List Context} {event : Option Event}
    (h : value d depth cs t = .take next (.ok event)) (hfs : next.Continues fs) :
    Context.EndsValue cs (event.toList ++ fs) := by
  rcases value_take h with ⟨s, rfl, rfl, rfl⟩ | ⟨hk, -, rfl, rfl⟩ | ⟨hk, -, rfl, rfl⟩
  · exact ⟨s.value, _, fs, .scalar s, rfl, continues_finish.mp hfs⟩
  · obtain ⟨vs, es, gs, r, helements, rfl, hgs⟩ := hfs
    exact ⟨_, _, gs, .array ⟨t, hk⟩ r helements, by simp, hgs⟩
  · obtain ⟨ms, es, gs, r, hmembers, rfl, hgs⟩ := hfs
    exact ⟨_, _, gs, .object ⟨t, hk⟩ r hmembers, by simp, hgs⟩

/-- One step back: what is reported for a token, in front of what the next control goes on to. -/
theorem continues_cons (h : c.accept? d t = some (es, next)) (hfs : next.Continues fs) :
    c.Continues (es ++ fs) := by
  obtain ⟨depth, goal, cs⟩ := c
  obtain ⟨-, before, event, rfl, hmove⟩ := (accept?_eq_some_iff .origin).mp h
  obtain rfl : before = pending ⟨depth, goal, cs⟩ t := by rw [← move_before d _ .origin, hmove]
  cases goal with
  | value => exact endsValue_of_value (Move.mk.inj hmove).2 hfs
  | member keys comma =>
    rcases member_take hmove with ⟨key, rfl, -, rfl, rfl⟩ | ⟨hk, -, rfl, rfl⟩
    · obtain ⟨v, vs, -, hv, rfl, u, ms, ws, gs, r, hms, rfl, hgs⟩ := hfs
      exact ⟨_, _, gs, r, .cons key u hv hms, by simp [pending], hgs⟩
    · exact ⟨[], [], fs, ⟨t, hk⟩, .nil, rfl, continues_finish.mp hfs⟩
  | colon keys =>
    obtain ⟨-, rfl, rfl⟩ := colon_take hmove
    exact hfs
  | memberEnd keys =>
    rcases memberEnd_take hmove with ⟨-, rfl, rfl⟩ | ⟨hk, rfl, rfl⟩
    · obtain ⟨ms, ws, gs, r, hms, rfl, hgs⟩ := hfs
      exact ⟨t, ms, ws, gs, r, hms, rfl, hgs⟩
    · exact ⟨t, [], [], fs, ⟨t, hk⟩, .nil, rfl, continues_finish.mp hfs⟩
  | element comma =>
    rcases element_take hmove with hvalue | ⟨hk, -, rfl, rfl⟩
    · obtain ⟨v, vs, gs, hv, hsplit, ws, es, gs', r, hws, rfl, hgs⟩ := endsValue_of_value hvalue hfs
      refine ⟨_, _, gs', r, .cons hv hws, ?_, hgs⟩
      simpa [pending] using hsplit
    · exact ⟨[], [], fs, ⟨t, hk⟩, .nil, rfl, continues_finish.mp hfs⟩
  | elementEnd =>
    rcases elementEnd_take hmove with ⟨-, rfl, rfl⟩ | ⟨hk, rfl, rfl⟩
    · exact hfs
    · exact ⟨[], [], fs, ⟨t, hk⟩, .nil, rfl, continues_finish.mp hfs⟩
  | complete =>
    rw [accept?_of_complete rfl] at h
    cases h

end Control

/-! ## Courses -/

/-- What is done with tokens, whatever the handler: the events, and where and how it ends if they
    are all taken. -/
structure Course where
  events : List Event
  /-- What is reported at the end of input, where nothing can be refused. -/
  ending : List Event := []
  parser : Parser
  result : Except SyntaxError Unit

namespace Course

/-- Nothing more is reported. -/
def stop (p : Parser) (result : Except SyntaxError Unit) : Course :=
  { events := [], parser := p, result }

/-- The event is reported first, if there is one. -/
def after (event : Option Event) (k : Course) : Course :=
  { k with events := event.toList ++ k.events }

/-- The course when the end of input has to follow, and is reported. -/
def thenEnd (k : Course) : Course :=
  match k.result with
  | .error _ => k
  | .ok () =>
    if k.parser.peek.kind = .endOfInput then { k with ending := [.endOfInput k.parser.peek] }
    else
      { k with
        result := .error ⟨k.parser.peek.position, .unexpectedAfterValue k.parser.peek.kind⟩ }

theorem thenEnd_events (k : Course) : k.thenEnd.events = k.events := by
  unfold thenEnd
  split
  · rfl
  · split <;> rfl

/-- The outcome is what a handler makes of a course: it is given the events until it refuses one. -/
def Gives {σ ε : Type} (k : Course) (h : Handler σ ε) (s : σ) (o : Outcome σ ε) : Prop :=
  match h.feed k.events s with
  | (s', none) =>
    o = { parser := k.parser, state := (h.feed k.ending s').1,
          result := k.result.mapError .malformed }
  | (s', some e) => o.state = s' ∧ o.result = .error (.refused e)

variable {σ ε : Type} {h : Handler σ ε} {s s' : σ} {o : Outcome σ ε} {k : Course}

theorem Gives.of_taken (hk : k.Gives h s o) (hes : h.feed k.events s = (s', none)) :
    o = { parser := k.parser, state := (h.feed k.ending s').1,
          result := k.result.mapError .malformed } := by
  simpa only [Gives, hes] using hk

theorem Gives.of_refused {e : ε} (hk : k.Gives h s o) (hes : h.feed k.events s = (s', some e)) :
    o.state = s' ∧ o.result = .error (.refused e) := by
  simpa only [Gives, hes] using hk

/-- An event in front of a course is delivered, and the course goes on if it is taken. -/
theorem gives_after {event : Option Event} {p : Parser} {next : σ → Outcome σ ε}
    (hk : ∀ s', k.Gives h s' (next s')) :
    (k.after event).Gives h s
      (match h.deliver event s with
        | (s', some e) => { parser := p, state := s', result := .error (.refused e) }
        | (s', none)   => next s') := by
  cases event with
  | none => exact hk s
  | some event =>
    simp only [Gives, after, Option.toList_some, List.singleton_append, Handler.feed,
      Handler.deliver]
    rcases h event s with ⟨s', _ | e⟩
    · exact hk s'
    · exact ⟨rfl, rfl⟩

end Course

namespace Parser

/-- The course of giving up in front of the end of input `t`. -/
def haltCourse (c : Control) (consumed rest : List Token) (t : Token) : Course :=
  (Course.stop { consumed, rest, depth := c.depth } (.error ⟨t.position, (c.halt t).2⟩)).after
    (c.pending t)

/-- The course of a run. -/
def course (d : Dialect) (c : Control) (consumed : List Token) : List Token → Course
  | [] => haltCourse c consumed [] (endBehind consumed)
  | t :: rest =>
    if t.kind = .endOfInput then haltCourse c consumed (t :: rest) t
    else
      Course.after (c.pending t) <|
        match (c.move d (previous consumed) t).verdict with
        | .refuse e => .stop { consumed, rest := t :: rest, depth := c.depth } (.error e)
        | .take next (.error e) =>
          .stop { consumed := t :: consumed, rest, depth := next.depth } (.error e)
        | .take next (.ok event) =>
          Course.after event <|
            if next.goal = .complete then
              .stop { consumed := t :: consumed, rest, depth := next.depth } (.ok ())
            else course d next (t :: consumed) rest

/-- The course of reading one value that has to be followed by the end of input. -/
def parseCourse (d : Dialect) (p : Parser) : Course :=
  (course d { depth := p.depth } p.consumed p.rest).thenEnd

/-- A run does not report the end of input. -/
theorem course_ending (d : Dialect) (c : Control) (consumed ts : List Token) :
    (course d c consumed ts).ending = [] := by
  induction ts generalizing c consumed with
  | nil => rfl
  | cons t rest ih =>
    unfold course
    split
    · rfl
    · cases (c.move d (previous consumed) t).verdict with
      | refuse e => rfl
      | take next report =>
        cases report with
        | error e => rfl
        | ok event =>
          simp only [Course.after]
          split
          · rfl
          · exact ih next (t :: consumed)

section

variable {σ ε : Type}

theorem haltCourse_gives (h : Handler σ ε) (c : Control) (consumed rest : List Token) (t : Token)
    (s : σ) : (haltCourse c consumed rest t).Gives h s (halt h c consumed rest t s) := by
  unfold haltCourse halt
  rw [c.halt_pending]
  exact Course.gives_after fun _ => rfl

/-- A run has the same course with every handler. -/
theorem course_gives (d : Dialect) (h : Handler σ ε) (c : Control) (consumed : List Token) (s : σ)
    (ts : List Token) : (course d c consumed ts).Gives h s (run d h c consumed s ts) := by
  induction ts generalizing c consumed s with
  | nil => exact haltCourse_gives h c consumed [] _ s
  | cons t rest ih =>
    unfold course run
    split
    · exact haltCourse_gives h c consumed (t :: rest) t s
    · rw [c.move_before]
      apply Course.gives_after
      intro s'
      cases (c.move d (previous consumed) t).verdict with
      | refuse e => rfl
      | take next report =>
        cases report with
        | error e => rfl
        | ok event =>
          apply Course.gives_after
          intro s''
          split
          · rfl
          · exact ih next (t :: consumed) s''

theorem parseCourse_gives (d : Dialect) (h : Handler σ ε) (p : Parser) (s : σ) :
    (parseCourse d p).Gives h s (p.parse d h s) := by
  have hvalue : Course.Gives _ h s (p.value d h s) := course_gives d h _ p.consumed s p.rest
  have hending := course_ending d { depth := p.depth } p.consumed p.rest
  unfold parseCourse
  generalize course d { depth := p.depth } p.consumed p.rest = k at hvalue hending ⊢
  obtain ⟨es, ending, q, r⟩ := k
  subst hending
  rcases hfeed : h.feed es s with ⟨s', _ | e⟩
  · have ho := hvalue.of_taken hfeed
    cases r with
    | error e => simpa [parse, ho, Course.thenEnd, Except.mapError] using hvalue
    | ok _ =>
      simp only [parse, ho, Course.thenEnd, Except.mapError]
      split
      · simp only [Course.Gives, hfeed, Handler.feed_singleton]
        rfl
      · simp only [Course.Gives, hfeed]
        rfl
  · obtain ⟨hstate, hresult⟩ := hvalue.of_refused hfeed
    have hparse : p.parse d h s = p.value d h s := by simp only [parse, hresult]
    simp only [Course.Gives, Course.thenEnd_events, hfeed, hparse]
    exact ⟨hstate, hresult⟩

end

/-- What a course reports can be completed to the events of a value. -/
theorem course_continues (d : Dialect) (c : Control) (consumed ts : List Token) :
    ∃ es, c.Continues ((course d c consumed ts).events ++ es) := by
  -- A course that stops at the token `t` reports no more than the end of a member in front of it.
  have hstop : ∀ (c : Control) (t : Token) (p : Parser) (r : Except SyntaxError Unit),
      ∃ es, c.Continues ((Course.after (c.pending t) (.stop p r)).events ++ es) := by
    intro c t p r
    obtain ⟨es, hes⟩ := c.exists_continues t
    exact ⟨es, by simpa [Course.after, Course.stop] using hes⟩
  induction ts generalizing c consumed with
  | nil => exact hstop c _ _ _
  | cons t rest ih =>
    unfold course
    split
    · exact hstop c t _ _
    · rename_i hend
      cases hmove : c.move d (previous consumed) t with
      | mk before verdict =>
        cases verdict with
        | refuse e => exact hstop c t _ _
        | take next report =>
          cases report with
          | error e => exact hstop c t _ _
          | ok event =>
            obtain rfl : before = c.pending t := by rw [← c.move_before d, hmove]
            have haccept : c.accept? d t = some ((c.pending t).toList ++ event.toList, next) :=
              (Control.accept?_eq_some_iff (previous consumed)).mpr ⟨hend, _, event, rfl, hmove⟩
            have hnext : ∃ es, next.Continues
                ((if next.goal = .complete then
                    .stop { consumed := t :: consumed, rest, depth := next.depth } (.ok ())
                  else course d next (t :: consumed) rest).events ++ es) := by
              split
              · exact ⟨[], by simp [Course.stop, Control.Continues, *]⟩
              · exact ih next (t :: consumed)
            obtain ⟨es, hes⟩ := hnext
            exact ⟨es, by simpa [Course.after] using Control.continues_cons haccept hes⟩

theorem parseCourse_ending (d : Dialect) (p : Parser) :
    ((parseCourse d p).result = .ok () ∧
      (parseCourse d p).ending = [.endOfInput (parseCourse d p).parser.peek]) ∨
    ((parseCourse d p).result ≠ .ok () ∧ (parseCourse d p).ending = []) := by
  have hending := course_ending d { depth := p.depth } p.consumed p.rest
  unfold parseCourse Course.thenEnd
  split
  · rename_i hresult
    exact .inr ⟨by simp [hresult], hending⟩
  · rename_i hresult
    split
    · exact .inl ⟨hresult, rfl⟩
    · exact .inr ⟨by simp, hending⟩

theorem exists_traversal_of_parseCourse (d : Dialect) (p : Parser) :
    ∃ v es, Traversal v ((parseCourse d p).events ++ es) := by
  obtain ⟨es, v, fs, gs, hv, hsplit, rfl⟩ :=
    course_continues d { depth := p.depth } p.consumed p.rest
  rw [List.append_nil] at hsplit
  refine ⟨v, es, ?_⟩
  rw [parseCourse, Course.thenEnd_events, hsplit]
  exact hv

/-- The end of input is not among the events that can be refused. -/
theorem endOfInput_not_mem_parseCourse (d : Dialect) (p : Parser) (t : Token) :
    .endOfInput t ∉ (parseCourse d p).events := by
  obtain ⟨v, es, hv⟩ := exists_traversal_of_parseCourse d p
  exact fun hmem => hv.endOfInput_not_mem t (List.mem_append_left es hmem)

end Parser

/-! ## Delivered events -/

namespace Handler

variable {σ ε : Type}

/-- Does the same and keeps all events it is given, latest first. -/
def traced (h : Handler σ ε) : Handler (List Event × σ) ε :=
  fun e (es, s) => ((e :: es, (h e s).1), (h e s).2)

/-- Given the events one by one, the handler takes the first `k` of them and refuses the next one
    with the failure `e`, if there is a next one. -/
def RefusesAt (h : Handler σ ε) (s : σ) (es : List Event) (k : Nat) (e : ε) : Prop :=
  ∃ s', h.feed (es.take k) s = (s', none) ∧ ∀ event ∈ es[k]?, (h event s').2 = some e

variable {h : Handler σ ε} {s s' : σ} {es : List Event}

theorem feed_traced (hes : h.feed es s = (s', none)) (seen : List Event) :
    h.traced.feed es (seen, s) = ((es.reverse ++ seen, s'), none) := by
  induction es generalizing s seen with
  | nil =>
    cases hes
    rfl
  | cons e es ih =>
    have hsplit : h.feed ([e] ++ es) s = (s', none) := hes
    obtain ⟨s₁, he, hes⟩ := feed_append_inv hsplit
    rw [feed_singleton] at he
    have htraced : h.traced e (seen, s) = ((e :: seen, s₁), none) := by simp only [traced, he]
    rw [feed_cons htraced, ih hes]
    simp

/-- Events up to one that is refused. -/
theorem feed_refused {front : List Event} {event : Event} {e : ε} (back : List Event)
    (hfront : h.feed front s = (s', none)) (hevent : (h event s').2 = some e) :
    h.feed (front ++ event :: back) s = ((h event s').1, some e) := by
  rw [feed_append hfront]
  rcases hresult : h event s' with ⟨s₁, failure⟩
  rw [hresult] at hevent
  cases hevent
  simp only [feed, hresult]

end Handler

/-- The failure of one handler as that of another. -/
def ParseFailure.map {ε ε' : Type} (f : ε → ε') : ParseFailure ε → ParseFailure ε'
  | .malformed e => .malformed e
  | .refused e   => .refused (f e)
  | .exhausted   => .exhausted

namespace Parser

variable {σ ε : Type} {d : Dialect} {h : Handler σ ε} {s s' : σ} {ts : List Token}

/-- The events that a handler is given when tokens are read as one value. -/
def delivered (d : Dialect) (h : Handler σ ε) (s : σ) (ts : List Token) : List Event :=
  ((ofTokens ts).parse d h.traced ([], s)).state.1.reverse

theorem delivered_of_taken (hes : h.feed (parseCourse d (ofTokens ts)).events s = (s', none)) :
    delivered d h s ts =
      (parseCourse d (ofTokens ts)).events ++ (parseCourse d (ofTokens ts)).ending := by
  have hparse := (parseCourse_gives d h.traced (ofTokens ts) ([], s)).of_taken
    (Handler.feed_traced hes [])
  rw [delivered, hparse]
  obtain ⟨-, hending⟩ | ⟨-, hending⟩ := parseCourse_ending d (ofTokens ts)
  · rw [hending, Handler.feed_singleton]
    simp [Handler.traced]
  · rw [hending]
    simp [Handler.feed]

theorem delivered_of_refused {front back : List Event} {event : Event} {e : ε}
    (hsplit : (parseCourse d (ofTokens ts)).events = front ++ event :: back)
    (hfront : h.feed front s = (s', none)) (hevent : (h event s').2 = some e) :
    delivered d h s ts = front ++ [event] ∧
      ((ofTokens ts).parse d h s).result = .error (.refused e) := by
  have hgives := parseCourse_gives d h (ofTokens ts) s
  have htraced := parseCourse_gives d h.traced (ofTokens ts) ([], s)
  have hfeed := Handler.feed_refused back hfront hevent
  have hfeed' : h.traced.feed (front ++ event :: back) ([], s) =
      ((h.traced event (front.reverse ++ [], s')).1, some e) :=
    Handler.feed_refused back (Handler.feed_traced hfront []) hevent
  rw [← hsplit] at hfeed hfeed'
  refine ⟨?_, (hgives.of_refused hfeed).2⟩
  rw [delivered, (htraced.of_refused hfeed').1]
  simp [Handler.traced]

/-! ## Handlers that never fail -/

theorem takesAll_discard : Handler.discard.TakesAll := fun _ _ => rfl

theorem delivered_discard (d : Dialect) (ts : List Token) :
    delivered d Handler.discard () ts =
      (parseCourse d (ofTokens ts)).events ++ (parseCourse d (ofTokens ts)).ending := by
  obtain ⟨_, hfeed⟩ := takesAll_discard.exists_feed (parseCourse d (ofTokens ts)).events ()
  exact delivered_of_taken hfeed

theorem parse_discard (d : Dialect) (ts : List Token) :
    (ofTokens ts).parse d Handler.discard () =
      { parser := (parseCourse d (ofTokens ts)).parser, state := (),
        result := (parseCourse d (ofTokens ts)).result.mapError .malformed } := by
  obtain ⟨_, hfeed⟩ := takesAll_discard.exists_feed (parseCourse d (ofTokens ts)).events ()
  exact (parseCourse_gives d Handler.discard (ofTokens ts) ()).of_taken hfeed

/-- What is delivered of tokens that are accepted. -/
theorem delivered_of_ok (hok : ((ofTokens ts).parse d Handler.discard ()).result = .ok ()) :
    ∃ T : Tree, T.Accepted d ∧ T.tokens = Token.body ts ∧
      delivered d Handler.discard () ts =
        T.events ++ [.endOfInput ((ofTokens ts).parse d Handler.discard ()).parser.peek] := by
  obtain ⟨T, s', hT, hbody, hfeed⟩ := parse_ofTokens_ok_iff.mp hok
  obtain ⟨rest, hrest, hend⟩ := Token.body_append_rest ts
  rw [← hbody] at hrest
  have hallowed := Tree.allowed_iff.mpr hT
  have hplain := value_of_tree (p := ofTokens ts) hallowed hrest hfeed
  have htraced := value_of_tree (p := ofTokens ts) hallowed hrest (Handler.feed_traced hfeed [])
  refine ⟨T, hT, hbody, ?_⟩
  rw [delivered, parse_of_value htraced hend, parse_of_value hplain hend]
  simp [Handler.traced]

theorem delivered_wellNested (d : Dialect) (ts : List Token) :
    ∃ es, Event.WellNested (delivered d Handler.discard () ts ++ es) := by
  by_cases hok : ((ofTokens ts).parse d Handler.discard ()).result = .ok ()
  · obtain ⟨T, -, -, hdelivered⟩ := delivered_of_ok hok
    exact ⟨[], T.value, T.events, _, T.traversal, by rw [hdelivered, List.append_nil]⟩
  · rw [parse_discard] at hok
    obtain ⟨v, es, hv⟩ := exists_traversal_of_parseCourse d (ofTokens ts)
    obtain ⟨hresult, -⟩ | ⟨-, hending⟩ := parseCourse_ending d (ofTokens ts)
    · rw [hresult] at hok
      exact absurd rfl hok
    · refine ⟨es ++ [.endOfInput { kind := .endOfInput }], v, _, { kind := .endOfInput }, hv, ?_⟩
      rw [delivered_discard, hending]
      simp

/-- When nothing is refused, all is as with a handler that never fails. -/
theorem parse_of_taken (hes : h.feed (parseCourse d (ofTokens ts)).events s = (s', none)) :
    delivered d h s ts = delivered d Handler.discard () ts ∧
    ((ofTokens ts).parse d h s).parser = ((ofTokens ts).parse d Handler.discard ()).parser ∧
    ((ofTokens ts).parse d h s).result =
      ((ofTokens ts).parse d Handler.discard ()).result.mapError (.map Empty.elim) := by
  rw [delivered_of_taken hes, delivered_discard, parse_discard,
    (parseCourse_gives d h (ofTokens ts) s).of_taken hes]
  refine ⟨rfl, rfl, ?_⟩
  cases (parseCourse d (ofTokens ts)).result <;> rfl

/-- An event in front of the end of input is refused. -/
theorem parse_of_refusesAt {k : Nat} {e : ε} {event : Event}
    (hk : h.RefusesAt s (delivered d Handler.discard () ts) k e)
    (hevent : (parseCourse d (ofTokens ts)).events[k]? = some event) :
    delivered d h s ts = (delivered d Handler.discard () ts).take (k + 1) ∧
      ((ofTokens ts).parse d h s).result = .error (.refused e) := by
  obtain ⟨hlt, rfl⟩ := List.getElem?_eq_some_iff.mp hevent
  obtain ⟨s', hfront, hrefused⟩ := hk
  rw [delivered_discard, List.take_append_of_le_length (by omega)] at hfront ⊢
  rw [delivered_discard, List.getElem?_append_left hlt, hevent] at hrefused
  have hsplit := (List.take_append_drop k (parseCourse d (ofTokens ts)).events).symm
  rw [List.drop_eq_getElem_cons hlt] at hsplit
  rw [List.take_add_one, hevent]
  exact delivered_of_refused hsplit hfront (hrefused _ rfl)

/-- All events in front of the end of input are taken. -/
theorem exists_feed_of_refusesAt {k : Nat} {e : ε}
    (hk : h.RefusesAt s (delivered d Handler.discard () ts) k e)
    (hle : (parseCourse d (ofTokens ts)).events.length ≤ k) :
    ∃ s', h.feed (parseCourse d (ofTokens ts)).events s = (s', none) := by
  obtain ⟨s', hfront, -⟩ := hk
  rw [delivered_discard, List.take_append, List.take_of_length_le hle] at hfront
  obtain ⟨s₁, hfeed, -⟩ := Handler.feed_append_inv hfront
  exact ⟨s₁, hfeed⟩

/-- The events that a parser delivers to a handler that never fails are the beginning of a
    well-nested sequence. If the parser succeeds they are the traversal of the value, and then comes
    the end of input, which a failing parser does not report. A handler that refuses an event cuts
    them off behind it, and its failure is the result. A handler that refuses none, or only the end
    of input, makes no difference. -/
theorem parse_events (d : Dialect) (ts : List Token) :
    let full := (ofTokens ts).parse d Handler.discard ()
    let events := delivered d Handler.discard () ts
    (∃ more, Event.WellNested (events ++ more)) ∧
    (full.result = .ok () →
      ∃ T : Tree, T.tokens = Token.body ts ∧ Value.ofTokens d ts = .ok T.value ∧
        Traversal T.value T.events ∧ events = T.events ++ [.endOfInput full.parser.peek]) ∧
    (full.result ≠ .ok () → ∀ t, .endOfInput t ∉ events) ∧
    ∀ {σ ε : Type} (h : Handler σ ε) (s : σ) (k : Nat) (e : ε), h.RefusesAt s events k e →
      (∀ event ∈ events[k]?, (∀ t, event ≠ .endOfInput t) →
        delivered d h s ts = events.take (k + 1) ∧
        ((ofTokens ts).parse d h s).result = .error (.refused e)) ∧
      ((∀ event ∈ events[k]?, ∃ t, event = .endOfInput t) →
        delivered d h s ts = events ∧
        ((ofTokens ts).parse d h s).parser = full.parser ∧
        ((ofTokens ts).parse d h s).result = full.result.mapError (.map Empty.elim)) := by
  refine ⟨delivered_wellNested d ts, ?_, ?_, ?_⟩
  · intro hok
    obtain ⟨T, hT, hbody, hdelivered⟩ := delivered_of_ok hok
    exact ⟨T, hbody, Value.ofTokens_of_tree hT hbody, T.traversal, hdelivered⟩
  · intro hfail t
    rw [parse_discard] at hfail
    obtain ⟨hresult, -⟩ | ⟨-, hending⟩ := parseCourse_ending d (ofTokens ts)
    · rw [hresult] at hfail
      exact absurd rfl hfail
    · rw [delivered_discard, hending, List.append_nil]
      exact endOfInput_not_mem_parseCourse d (ofTokens ts) t
  · intro σ ε h s k e hk
    rcases Nat.lt_or_ge k (parseCourse d (ofTokens ts)).events.length with hlt | hle
    · have hevent := List.getElem?_eq_getElem hlt
      refine ⟨fun _ _ _ => parse_of_refusesAt hk hevent, fun hend => ?_⟩
      rw [delivered_discard, List.getElem?_append_left hlt] at hend
      obtain ⟨t, ht⟩ := hend _ hevent
      have hmem := List.mem_of_getElem? hevent
      rw [ht] at hmem
      exact absurd hmem (endOfInput_not_mem_parseCourse d (ofTokens ts) t)
    · obtain ⟨s', hfeed⟩ := exists_feed_of_refusesAt hk hle
      refine ⟨fun event hevent hne => ?_, fun _ => parse_of_taken hfeed⟩
      rw [delivered_discard, List.getElem?_append_right hle] at hevent
      have hmem := List.mem_of_getElem? hevent
      obtain ⟨-, hending⟩ | ⟨-, hending⟩ := parseCourse_ending d (ofTokens ts)
      · rw [hending, List.mem_singleton] at hmem
        exact absurd hmem (hne _)
      · rw [hending] at hmem
        cases hmem

end Parser

/-- Counts the events, and refuses the one with the given number. -/
def Handler.refusing (k : Nat) : Handler Nat Unit :=
  fun _ n => (n + 1, if n = k then some () else none)

/-- The bracket is left open when the first element is refused. -/
theorem Parser.parse_events_refused :
    let ts : List Token := [{ kind := .leftBracket }, { kind := .null }, { kind := .rightBracket }]
    delivered .strict (Handler.refusing 1) 0 ts =
        [.beginArray { kind := .leftBracket }, .scalar { kind := .null }] ∧
      ((ofTokens ts).parse .strict (Handler.refusing 1) 0).result = .error (.refused ()) := by
  intro ts
  have hrefuses :
      (Handler.refusing 1).RefusesAt 0 (delivered .strict Handler.discard () ts) 1 () := by
    refine ⟨1, rfl, ?_⟩
    rintro _ ⟨⟩
    rfl
  exact ((parse_events .strict ts).2.2.2 (Handler.refusing 1) 0 1 () hrefuses).1 _ rfl nofun

end RelaxedJson
