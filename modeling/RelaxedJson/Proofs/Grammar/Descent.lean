-- SUMMARY: Reading values by recursive descent, and that it comes to an end.
import RelaxedJson.Proofs.Grammar.Acceptance

/-!
# Recursive descent

The value grammar can be read by procedures that call each other: one for values, one each for objects
and arrays, and one for each of their loops (`Descent.body`). Nothing limits the recursion from
outside. It ends because a procedure that returns has read a token (`Descent.unread_lt_of_returns`),
so that a loop, and a value inside a value, always starts with fewer tokens to read
(`Descent.unread_lt_of_transGen`).
-/

namespace RelaxedJson

/-! ## Unread tokens -/

namespace Parser

/-- The number of unread tokens in front of the first end of input. -/
def unread (p : Parser) : Nat :=
  (Token.body p.rest).length

/-- Reads the next token, unless that is the end of input. -/
def advance (p : Parser) : Parser :=
  match p.rest with
  | []        => p
  | t :: rest => if t.kind = .endOfInput then p else { p with consumed := t :: p.consumed, rest }

/-- The same place at another depth. -/
def atDepth (p : Parser) (depth : Nat) : Parser :=
  { p with depth }

@[simp] theorem unread_atDepth (p : Parser) (depth : Nat) : (p.atDepth depth).unread = p.unread := rfl

theorem unread_le_length (p : Parser) : p.unread ≤ p.rest.length :=
  (List.takeWhile_sublist _).length_le

theorem exists_rest {p : Parser} (h : p.peek.kind ≠ .endOfInput) :
    ∃ rest, p.rest = p.peek :: rest ∧
      p.advance = { p with consumed := p.peek :: p.consumed, rest } := by
  obtain ⟨consumed, rest, depth⟩ := p
  cases rest with
  | nil => exact absurd (by cases consumed <;> rfl) h
  | cons t rest => exact ⟨rest, rfl, if_neg h⟩

/-- The cursor moves over any token but the end of input. -/
theorem unread_advance {p : Parser} (h : p.peek.kind ≠ .endOfInput) :
    p.advance.unread + 1 = p.unread := by
  obtain ⟨rest, hrest, hadvance⟩ := exists_rest h
  rw [hadvance, unread, unread, hrest, Token.body, Token.body,
    List.takeWhile_cons_of_pos (by simpa using h), List.length_cons]

@[simp] theorem depth_advance (p : Parser) : p.advance.depth = p.depth := by
  unfold advance
  split
  · rfl
  · split <;> rfl

end Parser

theorem Token.kind_ne_end_of_key? {t : Token} {k : Bytes} (h : t.key? = some k) :
    t.kind ≠ .endOfInput := by
  intro hkind
  simp [key?, hkind] at h

/-! ## Procedures -/

namespace Descent

/-- The procedures of the grammar. The loops carry what they have seen so far. -/
inductive Procedure where
  | value
  | object
  | array
  /-- The loop over members with the keys so far; `comma` tells whether a comma came last. -/
  | members (keys : List Bytes) (comma : Bool)
  /-- The loop over elements with their number so far; `comma` tells whether a comma came last. -/
  | elements (count : Nat) (comma : Bool)
  deriving DecidableEq, Repr

/-- How a loop is ended, and its messages. -/
structure Loop where
  bracket : Kind
  /-- Reported with the closing bracket. -/
  event : Token → Event
  /-- The fault if a token of the given kind is in place of the bracket. -/
  missing : Kind → SyntaxReason
  /-- The fault if there is no comma in front of a further item. -/
  lacking : SyntaxReason

/-- The loop over members. -/
def Loop.members : Loop :=
  ⟨.rightBrace, .endObject, .expectedObjectEnd, .expectedCommaInObject⟩

/-- The loop over elements. -/
def Loop.elements : Loop :=
  ⟨.rightBracket, .endArray, .expectedArrayEnd, .expectedCommaInArray⟩

/-- What has to come next where a procedure is called. -/
def Procedure.Ready : Procedure → Parser → Prop
  | .object, p => p.peek.kind = .leftBrace
  | .array,  p => p.peek.kind = .leftBracket
  | _,       _ => True

/-- A call of a procedure, with the parser and the state of the handler at that point. -/
structure Call (σ : Type) where
  procedure : Procedure
  parser : Parser
  state : σ
  ready : procedure.Ready parser

/-- What a procedure does: it comes to an end, in success or not, or it calls a procedure and, if that
    succeeds, goes on from where it returned. -/
inductive Body (σ ε : Type) where
  | stop (o : Outcome σ ε)
  | call (c : Call σ) (next : Parser → σ → Body σ ε)

variable {σ ε : Type}

namespace Body

/-- Returns. -/
def done (p : Parser) (s : σ) : Body σ ε :=
  .stop ⟨p, s, .ok ()⟩

/-- Gives up with a syntax error. -/
def fault (p : Parser) (s : σ) (position : Position) (reason : SyntaxReason) : Body σ ε :=
  .stop ⟨p, s, .error (.malformed ⟨position, reason⟩)⟩

/-- Reports an event, and goes on unless it is refused. -/
def report (h : Handler σ ε) (e : Event) (p : Parser) (s : σ) (next : σ → Body σ ε) : Body σ ε :=
  match h e s with
  | (s, some x) => .stop ⟨p, s, .error (.refused x)⟩
  | (s, none)   => next s

end Body

open Body (done fault report)

variable (d : Dialect) (h : Handler σ ε)

/-- Reads a value that is a single token. -/
def scalar (p : Parser) (s : σ) : Body σ ε :=
  match p.peek.kind with
  | .null | .true | .false => report h (.scalar p.peek) p.advance s (done p.advance)
  | .string | .number =>
    if p.peek.hasLiteral then report h (.scalar p.peek) p.advance s (done p.advance)
    else fault p s p.peek.position (.malformedToken p.peek.kind p.peek.lexeme)
  | kind => fault p s p.peek.position (.expectedValue kind)

/-- Reads an opening bracket and goes on inside. -/
def enter (event : Token → Event) (p : Parser) (s : σ) (inside : Parser → σ → Body σ ε) :
    Body σ ε :=
  let entered := p.advance.atDepth (p.depth + 1)
  if d.depthLimit < p.depth + 1 then
    fault entered s p.peek.position (.tooDeep d.depthLimit)
  else report h (event p.peek) entered s (inside entered)

/-- Reads the closing bracket behind a loop. -/
def leave (l : Loop) (comma : Bool) (p : Parser) (s : σ) : Body σ ε :=
  if comma ∧ !d.trailingCommas ∧ p.peek.kind ≠ .endOfInput then
    fault p s (Parser.previous p.consumed) .trailingComma
  else if p.peek.kind ≠ l.bracket then fault p s p.peek.position (l.missing p.peek.kind)
  else
    let left := p.advance.atDepth (p.depth - 1)
    report h (l.event p.peek) left s (done left)

/-- A round of a loop. Without a comma, only the first one may read an item. -/
def round (l : Loop) (first comma : Bool) (item : Parser → σ → Body σ ε) (p : Parser) (s : σ) :
    Body σ ε :=
  if p.peek.kind = l.bracket ∨ p.peek.kind = .endOfInput then leave d h l comma p s
  else if !first ∧ !comma then fault p s p.peek.position l.lacking
  else item p s

/-- Goes on with a loop behind an item, and behind the comma that may follow it. -/
def again (loop : Bool → Procedure) (hloop : ∀ comma p, (loop comma).Ready p) (p : Parser) (s : σ) :
    Body σ ε :=
  if p.peek.kind = .comma then .call ⟨loop true, p.advance, s, hloop _ _⟩ done
  else .call ⟨loop false, p, s, hloop _ _⟩ done

/-- Reads a member on behind its key, the latest of `keys`, and goes on with the loop. -/
def memberValue (keys : List Bytes) (p : Parser) (s : σ) : Body σ ε :=
  if p.peek.kind ≠ .colon then fault p s p.peek.position (.expectedColon p.peek.kind)
  else .call ⟨.value, p.advance, s, trivial⟩ fun p s =>
    report h (.endMember p.peek) p s (again (.members keys) (fun _ _ => trivial) p)

/-- Reads a member and goes on with the loop. -/
def member (keys : List Bytes) (p : Parser) (s : σ) : Body σ ε :=
  match p.peek.key? with
  | none   => fault p s p.peek.position (.expectedKey p.peek.kind)
  | some k =>
    if k ∈ keys then fault p.advance s p.peek.position (.duplicateKey k)
    else report h (.beginMember k p.peek) p.advance s (memberValue h (k :: keys) p.advance)

/-- Reads a value. -/
def value (p : Parser) (s : σ) : Body σ ε :=
  if hbrace : p.peek.kind = .leftBrace then .call ⟨.object, p, s, hbrace⟩ done
  else if hbracket : p.peek.kind = .leftBracket then .call ⟨.array, p, s, hbracket⟩ done
  else scalar h p s

/-- Reads an object. -/
def object (p : Parser) (s : σ) : Body σ ε :=
  enter d h .beginObject p s fun p s => .call ⟨.members [] false, p, s, trivial⟩ done

/-- Reads an array. -/
def array (p : Parser) (s : σ) : Body σ ε :=
  enter d h .beginArray p s fun p s => .call ⟨.elements 0 false, p, s, trivial⟩ done

/-- Reads an element and goes on with the loop. -/
def element (count : Nat) (p : Parser) (s : σ) : Body σ ε :=
  .call ⟨.value, p, s, trivial⟩ (again (.elements (count + 1)) fun _ _ => trivial)

/-- What the called procedure does. -/
def body (c : Call σ) : Body σ ε :=
  match c.procedure with
  | .value                => value h c.parser c.state
  | .object               => object d h c.parser c.state
  | .array                => array d h c.parser c.state
  | .members keys comma   =>
    round d h .members keys.isEmpty comma (member h keys) c.parser c.state
  | .elements count comma =>
    round d h .elements (count == 0) comma (element count) c.parser c.state

/-! ## Calls -/

/-- How a body ends. A failure of a called procedure ends the caller, too. -/
inductive Ends : Body σ ε → Outcome σ ε → Prop where
  | stop (o : Outcome σ ε) : Ends (.stop o) o
  | failed {c : Call σ} {next : Parser → σ → Body σ ε} {o : Outcome σ ε} {e : ParseFailure ε} :
      Ends (body d h c) o → o.result = .error e → Ends (.call c next) o
  | returned {c : Call σ} {next : Parser → σ → Body σ ε} {o o' : Outcome σ ε} :
      Ends (body d h c) o → o.result = .ok () → Ends (next o.parser o.state) o' →
      Ends (.call c next) o'

/-- The calls that a body makes itself. -/
inductive Makes : Body σ ε → Call σ → Prop where
  | here (c : Call σ) (next : Parser → σ → Body σ ε) : Makes (.call c next) c
  | later {c c' : Call σ} {next : Parser → σ → Body σ ε} {o : Outcome σ ε} :
      Ends d h (body d h c) o → o.result = .ok () → Makes (next o.parser o.state) c' →
      Makes (.call c next) c'

/-- How a call ends. -/
def Returns (c : Call σ) (o : Outcome σ ε) : Prop :=
  Ends d h (body d h c) o

/-- The first call makes the second one itself. -/
def Invokes (c c' : Call σ) : Prop :=
  Makes d h (body d h c) c'

/-! ## Progress -/

/-- The order of procedures that are called without a token read in between: elements are values, and
    a value is an object or an array. -/
def Procedure.rank : Procedure → Nat
  | .elements _ _ => 2
  | .value        => 1
  | _             => 0

/-- What gets smaller with every call. -/
def Call.measure (c : Call σ) : Nat :=
  3 * c.parser.unread + c.procedure.rank

theorem Procedure.rank_le (f : Procedure) : f.rank ≤ 2 := by
  cases f <;> simp [rank]

/-- Calls from `c` have a smaller measure, and what returns successfully leaves fewer tokens unread,
    provided that this is so for the called procedures. -/
def Body.Descends (c : Call σ) : Body σ ε → Prop
  | .stop o       => o.result = .ok () → o.parser.unread < c.parser.unread
  | .call c' next =>
    c'.measure < c.measure ∧ ∀ p s, p.unread < c'.parser.unread → (next p s).Descends c

variable {d h} {c c' : Call σ} {p : Parser} {s : σ}

theorem descends_fault (p : Parser) (s : σ) (position : Position) (reason : SyntaxReason) :
    (fault p s position reason : Body σ ε).Descends c := nofun

theorem descends_done (hp : p.unread < c.parser.unread) (s : σ) :
    (done p s : Body σ ε).Descends c :=
  fun _ => hp

theorem descends_report {e : Event} {next : σ → Body σ ε} (hnext : ∀ s, (next s).Descends c) :
    (report h e p s next).Descends c := by
  unfold Body.report
  split
  · nofun
  · exact hnext _

theorem descends_call (hlt : c'.measure < c.measure) : (Body.call c' done : Body σ ε).Descends c := by
  refine ⟨hlt, fun q s hq => descends_done ?_ s⟩
  have hrank := c.procedure.rank_le
  simp only [Call.measure] at hlt
  omega

theorem descends_again {loop : Bool → Procedure} {hloop : ∀ comma p, (loop comma).Ready p}
    (hp : p.unread < c.parser.unread) : (again loop hloop p s : Body σ ε).Descends c := by
  have hmeasure : ∀ comma q, q.unread ≤ p.unread →
      Call.measure ⟨loop comma, q, s, hloop comma q⟩ < c.measure := by
    intro comma q hq
    have hrank := (loop comma).rank_le
    simp only [Call.measure]
    omega
  unfold again
  split
  · rename_i hcomma
    have hadvance := Parser.unread_advance (p := p) (by rw [hcomma]; decide)
    exact descends_call (hmeasure true _ (by omega))
  · exact descends_call (hmeasure false _ (Nat.le_refl _))

theorem descends_scalar (hc : c.parser = p) : (scalar h p s).Descends c := by
  have hread : p.peek.kind ≠ .endOfInput →
      (report h (.scalar p.peek) p.advance s (done p.advance)).Descends c := by
    intro hkind
    have hadvance := Parser.unread_advance hkind
    exact descends_report fun s => descends_done (by rw [hc]; omega) s
  unfold scalar
  split
  · exact hread (by rw [‹p.peek.kind = _›]; decide)
  · exact hread (by rw [‹p.peek.kind = _›]; decide)
  · exact hread (by rw [‹p.peek.kind = _›]; decide)
  · split
    · exact hread (by rw [‹p.peek.kind = _›]; decide)
    · exact descends_fault _ _ _ _
  · split
    · exact hread (by rw [‹p.peek.kind = _›]; decide)
    · exact descends_fault _ _ _ _
  · exact descends_fault _ _ _ _

theorem descends_enter {event : Token → Event} {loop : Procedure} {hloop : ∀ p, loop.Ready p}
    (hc : c.parser = p) (hkind : p.peek.kind ≠ .endOfInput) :
    (enter d h event p s fun p s => .call ⟨loop, p, s, hloop p⟩ done).Descends c := by
  have hadvance := Parser.unread_advance hkind
  have hrank := loop.rank_le
  unfold enter
  simp only
  split
  · exact descends_fault _ _ _ _
  · refine descends_report fun s => descends_call ?_
    simp only [Call.measure, Parser.unread_atDepth, hc]
    omega

theorem descends_leave {l : Loop} {comma : Bool} (hc : c.parser = p)
    (hbracket : l.bracket ≠ .endOfInput) : (leave d h l comma p s).Descends c := by
  unfold leave
  split
  · exact descends_fault _ _ _ _
  · split
    · exact descends_fault _ _ _ _
    · rename_i hkind
      have hadvance := Parser.unread_advance (p := p) (by rw [not_not.mp hkind]; exact hbracket)
      refine descends_report fun s => descends_done ?_ s
      rw [Parser.unread_atDepth, hc]
      omega

theorem descends_round {l : Loop} {first comma : Bool} {item : Parser → σ → Body σ ε}
    (hbracket : l.bracket ≠ .endOfInput) (hitem : (item c.parser c.state).Descends c) :
    (round d h l first comma item c.parser c.state).Descends c := by
  unfold round
  split
  · exact descends_leave rfl hbracket
  · split
    · exact descends_fault _ _ _ _
    · exact hitem

theorem descends_memberValue {keys : List Bytes} (hp : p.unread < c.parser.unread) :
    (memberValue h keys p s).Descends c := by
  unfold memberValue
  split
  · exact descends_fault _ _ _ _
  · rename_i hcolon
    have hadvance := Parser.unread_advance (p := p) (by rw [not_not.mp hcolon]; decide)
    refine ⟨?_, fun q s hq => descends_report fun s => descends_again ?_⟩
    · simp only [Call.measure, Procedure.rank]
      omega
    · simp only at hq
      omega

theorem descends_member {keys : List Bytes} (hc : c.parser = p) :
    (member h keys p s).Descends c := by
  unfold member
  split
  · exact descends_fault _ _ _ _
  · rename_i k hkey
    have hadvance := Parser.unread_advance (Token.kind_ne_end_of_key? hkey)
    split
    · exact descends_fault _ _ _ _
    · exact descends_report fun s => descends_memberValue (by rw [hc]; omega)

theorem descends_value (hprocedure : c.procedure = .value) :
    (value h c.parser c.state).Descends c := by
  have hlt : ∀ c' : Call σ, c'.parser = c.parser → c'.procedure.rank = 0 →
      c'.measure < c.measure := by
    intro c' hparser hrank
    rw [Call.measure, Call.measure, hparser, hrank, hprocedure]
    exact Nat.lt_succ_self _
  unfold value
  split
  · exact descends_call (hlt _ rfl rfl)
  · split
    · exact descends_call (hlt _ rfl rfl)
    · exact descends_scalar rfl

theorem descends_element {count : Nat} {comma : Bool}
    (hprocedure : c.procedure = .elements count comma) :
    (element count c.parser c.state : Body σ ε).Descends c := by
  refine ⟨?_, fun q s hq => descends_again hq⟩
  rw [Call.measure, Call.measure, hprocedure]
  exact Nat.lt_succ_self _

theorem descends_body (c : Call σ) : (body d h c).Descends c := by
  have hready := c.ready
  unfold body
  split
  · exact descends_value ‹_›
  · rename_i hprocedure
    rw [hprocedure] at hready
    have hbrace : c.parser.peek.kind = .leftBrace := hready
    exact descends_enter rfl (by rw [hbrace]; decide)
  · rename_i hprocedure
    rw [hprocedure] at hready
    have hbracket : c.parser.peek.kind = .leftBracket := hready
    exact descends_enter rfl (by rw [hbracket]; decide)
  · exact descends_round (by decide) (descends_member rfl)
  · exact descends_round (by decide) (descends_element ‹_›)

/-! ## Termination -/

variable {b : Body σ ε} {o : Outcome σ ε}

theorem unread_lt_of_ends (hends : Ends d h b o) (hb : b.Descends c) (hok : o.result = .ok ()) :
    o.parser.unread < c.parser.unread := by
  induction hends generalizing c with
  | stop o => exact hb hok
  | failed _ herror =>
    rw [herror] at hok
    cases hok
  | returned _ hcalled _ ih ih' =>
    have hreturned := ih (descends_body _) hcalled
    exact ih' (hb.2 _ _ hreturned) hok

/-- A call that succeeds has read a token. -/
theorem unread_lt_of_returns (hreturns : Returns d h c o) (hok : o.result = .ok ()) :
    o.parser.unread < c.parser.unread :=
  unread_lt_of_ends hreturns (descends_body c) hok

theorem measure_lt_of_makes (hmakes : Makes d h b c') (hb : b.Descends c) :
    c'.measure < c.measure := by
  induction hmakes generalizing c with
  | here => exact hb.1
  | later hcall hcalled _ ih => exact ih (hb.2 _ _ (unread_lt_of_returns hcall hcalled))

theorem measure_lt_of_invokes (hinvokes : Invokes d h c c') : c'.measure < c.measure :=
  measure_lt_of_makes hinvokes (descends_body c)

theorem measure_lt_of_transGen (hcalls : Relation.TransGen (Invokes d h) c c') :
    c'.measure < c.measure := by
  induction hcalls with
  | single hinvokes => exact measure_lt_of_invokes hinvokes
  | tail _ hinvokes ih => exact (measure_lt_of_invokes hinvokes).trans ih

/-- Between a call and one inside it a token is read, unless the latter is for a part of what the former
    is for. -/
theorem unread_lt_of_transGen (hcalls : Relation.TransGen (Invokes d h) c c')
    (hrank : c.procedure.rank ≤ c'.procedure.rank) : c'.parser.unread < c.parser.unread := by
  have hlt := measure_lt_of_transGen hcalls
  rw [Call.measure, Call.measure] at hlt
  omega

/-- The recursion is well-founded. -/
theorem invokes_wellFounded (d : Dialect) (h : Handler σ ε) :
    WellFounded fun c' c => Invokes d h c c' :=
  Subrelation.wf measure_lt_of_invokes (InvImage.wf Call.measure wellFounded_lt)

theorem exists_ends (hb : b.Descends c)
    (hcalls : ∀ c' : Call σ, c'.measure < c.measure → ∃ o, Returns d h c' o) :
    ∃ o, Ends d h b o := by
  induction b with
  | stop o => exact ⟨o, .stop o⟩
  | call c' next ih =>
    obtain ⟨o, ho⟩ := hcalls c' hb.1
    cases hresult : o.result with
    | error e => exact ⟨o, .failed ho hresult⟩
    | ok _ =>
      obtain ⟨o', ho'⟩ := ih _ _ (hb.2 _ o.state (unread_lt_of_returns ho hresult))
      exact ⟨o', .returned ho hresult ho'⟩

/-- Every call comes to an end. -/
theorem exists_returns (d : Dialect) (h : Handler σ ε) (c : Call σ) : ∃ o, Returns d h c o := by
  induction hm : c.measure using Nat.strongRecOn generalizing c with
  | ind m ih => exact exists_ends (descends_body c) fun c' hlt => ih _ (hm ▸ hlt) c' rfl

end Descent

end RelaxedJson
