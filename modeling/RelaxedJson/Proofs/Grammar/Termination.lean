-- SUMMARY: Recursive descent does what a parser does, so parsing ends after a bounded number of calls.
import RelaxedJson.Proofs.Grammar.Calls
import RelaxedJson.Proofs.Grammar.Descent
import RelaxedJson.Proofs.Value.EntryPoints

/-!
# Termination

A parser runs an automaton over the tokens. Here each procedure of the recursive descent is followed
along the automaton, together with what is around the value at hand (`Descent.follows_body`). Since
every call comes to an end, the procedures and the automaton come to the same one
(`Descent.returns_iff`). Each attempt to read one value of many that succeeds has read a token, which
bounds their number (`Value.Attempts.le`).
-/

namespace RelaxedJson

/-! ## The automaton -/

namespace Parser

variable {σ ε : Type} (d : Dialect) (h : Handler σ ε)

/-- Reports an event, if there is one, and goes on unless it is refused. -/
def tell (e : Option Event) (p : Parser) (s : σ) (next : σ → Outcome σ ε) : Outcome σ ε :=
  match h.deliver e s with
  | (s, some x) => ⟨p, s, .error (.refused x)⟩
  | (s, none)   => next s

/-- Goes on with the automaton, unless it is complete. -/
def proceed (next : Control) (p : Parser) (s : σ) : Outcome σ ε :=
  if next.goal = .complete then ⟨p.atDepth next.depth, s, .ok ()⟩
  else run d h next p.consumed s p.rest

/-- What becomes of the next token. -/
def settle (v : Verdict) (p : Parser) (s : σ) : Outcome σ ε :=
  match v with
  | .refuse e              => ⟨p, s, .error (.malformed e)⟩
  | .take next (.error e)  => ⟨p.advance.atDepth next.depth, s, .error (.malformed e)⟩
  | .take next (.ok event) =>
    tell h event (p.advance.atDepth next.depth) s (proceed d h next p.advance)

/-- The automaton from here on, where `goal` has to come next. -/
def resume (goal : Goal) (cs : List Context) (p : Parser) (s : σ) : Outcome σ ε :=
  run d h { depth := p.depth, goal, contexts := cs } p.consumed s p.rest

variable {d h} {goal : Goal} {cs : List Context} {p : Parser} {s : σ}

theorem proceed_of_goal {depth : Nat} (hgoal : goal ≠ .complete) :
    proceed d h { depth, goal, contexts := cs } p s = (p.atDepth depth).resume d h goal cs s :=
  if_neg hgoal

theorem settle_silent (hgoal : goal ≠ .complete) :
    settle d h (.take { depth := p.depth, goal, contexts := cs } (.ok none)) p s =
      p.advance.resume d h goal cs s := by
  have hproceed : proceed d h { depth := p.advance.depth, goal, contexts := cs } p.advance s =
      p.advance.resume d h goal cs s := proceed_of_goal hgoal
  rw [p.depth_advance] at hproceed
  exact hproceed

theorem resume_of_end (hend : p.peek.kind = .endOfInput) :
    p.resume d h goal cs s =
      tell h (Control.halt { depth := p.depth, goal, contexts := cs } p.peek).1 p s fun s =>
        ⟨p, s, .error (.malformed ⟨p.peek.position,
          (Control.halt { depth := p.depth, goal, contexts := cs } p.peek).2⟩)⟩ := by
  obtain ⟨consumed, rest, depth⟩ := p
  cases rest with
  | nil => rfl
  | cons t rest =>
    have hkind : t.kind = .endOfInput := hend
    rw [resume, run, if_pos hkind]
    rfl

theorem resume_of_token (hkind : p.peek.kind ≠ .endOfInput) {m : Move}
    (hmove : Control.move d { depth := p.depth, goal, contexts := cs } (previous p.consumed) p.peek = m) :
    p.resume d h goal cs s = tell h m.before p s (settle d h m.verdict p) := by
  obtain ⟨consumed, rest, depth⟩ := p
  cases rest with
  | nil => exact absurd (by cases consumed <;> rfl) hkind
  | cons t rest =>
    have ht : t.kind ≠ .endOfInput := hkind
    have hadvance : (Parser.mk consumed (t :: rest) depth).advance = ⟨t :: consumed, rest, depth⟩ :=
      if_neg ht
    rw [resume, run, if_neg ht]
    simp only [peek] at hmove
    simp only [hmove, tell, settle, proceed, hadvance, atDepth]
    cases h.deliver m.before s with
    | mk s₁ x =>
      cases x with
      | some x => rfl
      | none =>
        cases m.verdict with
        | refuse e => rfl
        | take next report =>
          cases report with
          | error e => rfl
          | ok event => rfl

end Parser

namespace Descent

variable {σ ε : Type} (d : Dialect) (h : Handler σ ε)

open Body (done fault report)

/-- What the automaton does from a round of a loop on, where `goal` has to come next. A round that lacks
    a comma has no counterpart in it. -/
def resumeRound (l : Loop) (first comma : Bool) (goal : Goal) (cs : List Context) (p : Parser) (s : σ) :
    Outcome σ ε :=
  if ¬(p.peek.kind = l.bracket ∨ p.peek.kind = .endOfInput) ∧ !first ∧ !comma then
    ⟨p, s, .error (.malformed ⟨p.peek.position, l.lacking⟩)⟩
  else p.resume d h goal cs s

/-- What the automaton does from the point of a call on, where `cs` is around the value at hand. -/
def Call.automaton (cs : List Context) (c : Call σ) : Outcome σ ε :=
  match c.procedure with
  | .members keys comma =>
    resumeRound d h .members keys.isEmpty comma (.member keys comma) cs c.parser c.state
  | .elements count comma =>
    resumeRound d h .elements (count == 0) comma (.element comma) cs c.parser c.state
  | _ => c.parser.resume d h .value cs c.state

/-- What the automaton makes of an outcome, where `cs` is around the value that was read. -/
def continued (cs : List Context) (o : Outcome σ ε) : Outcome σ ε :=
  match o.result with
  | .error _ => o
  | .ok ()   => Parser.proceed d h (.finish o.parser.depth cs) o.parser o.state

/-- The automaton comes to the outcome `out` along the body, provided that it goes along with the called
    procedures. -/
def Body.Follows (cs : List Context) (out : Outcome σ ε) : Body σ ε → Prop
  | .stop o      => continued d h cs o = out
  | .call c next => ∃ cs', c.automaton d h cs' = out ∧
      ∀ p s, Parser.proceed d h (.finish p.depth cs') p s = out → (next p s).Follows cs out

variable {d h} {cs : List Context} {p : Parser} {s : σ} {out : Outcome σ ε}

theorem continued_of_ends {b : Body σ ε} {o : Outcome σ ε} (hends : Ends d h b o)
    (hbody : ∀ (c : Call σ) cs, (body d h c).Follows d h cs (c.automaton d h cs))
    (hb : b.Follows d h cs out) : continued d h cs o = out := by
  induction hends generalizing cs out with
  | stop o => exact hb
  | failed _ hresult ih =>
    obtain ⟨cs', hcall, -⟩ := hb
    have hcontinued := ih (hbody _ cs')
    rw [continued, hresult] at hcontinued ⊢
    exact hcontinued.trans hcall
  | returned _ hresult _ ih ih' =>
    obtain ⟨cs', hcall, hnext⟩ := hb
    have hcontinued := ih (hbody _ cs')
    rw [continued, hresult] at hcontinued
    exact ih' (hnext _ _ (hcontinued.trans hcall))

theorem follows_report {e : Event} {next : σ → Body σ ε} {next' : σ → Outcome σ ε}
    (hnext : ∀ s, (next s).Follows d h cs (next' s)) :
    (report h e p s next).Follows d h cs (Parser.tell h (some e) p s next') := by
  unfold Body.report Parser.tell Handler.deliver
  split
  · rename_i hrefused
    simp only [hrefused]
    rfl
  · rename_i htaken
    simp only [htaken]
    exact hnext _

theorem follows_call {c : Call σ} (hc : c.automaton d h cs = out) :
    (Body.call c done).Follows d h cs out :=
  ⟨cs, hc, fun _ _ hp => hp⟩

theorem atDepth_finish (p : Parser) (cs : List Context) :
    p.advance.atDepth (Control.finish p.depth cs).depth = p.advance := by
  rw [Control.depth_finish, ← p.depth_advance]
  rfl

theorem resume_value (hkind : p.peek.kind ≠ .endOfInput) :
    p.resume d h .value cs s = Parser.settle d h (Control.value d p.depth cs p.peek) p s :=
  Parser.resume_of_token hkind rfl

theorem follows_done_advance :
    (done p.advance s).Follows d h cs
      (Parser.proceed d h (.finish p.depth cs) p.advance s) := by
  rw [← p.depth_advance]
  rfl

theorem follows_fault (position : Position) (reason : SyntaxReason) :
    (fault p s position reason : Body σ ε).Follows d h cs
      ⟨p, s, .error (.malformed ⟨position, reason⟩)⟩ := rfl

theorem follows_scalar (hbrace : p.peek.kind ≠ .leftBrace) (hbracket : p.peek.kind ≠ .leftBracket) :
    (scalar h p s).Follows d h cs (p.resume d h .value cs s) := by
  have htake : p.peek.kind ≠ .endOfInput →
      Control.value d p.depth cs p.peek =
        .take (.finish p.depth cs) (.ok (some (.scalar p.peek))) →
      (report h (.scalar p.peek) p.advance s (done p.advance)).Follows d h cs
        (p.resume d h .value cs s) := by
    intro hkind hverdict
    rw [resume_value hkind, hverdict, Parser.settle, atDepth_finish]
    exact follows_report fun s => follows_done_advance
  have hrefuse : ∀ reason, p.peek.kind ≠ .endOfInput →
      Control.value d p.depth cs p.peek = Control.refuse p.peek reason →
      (fault p s p.peek.position reason).Follows d h cs (p.resume d h .value cs s) := by
    intro reason hkind hverdict
    rw [resume_value hkind, hverdict]
    exact follows_fault _ _
  unfold scalar
  split
  · rename_i hkind
    exact htake (by rw [hkind]; decide) (by simp [Control.value, hkind])
  · rename_i hkind
    exact htake (by rw [hkind]; decide) (by simp [Control.value, hkind])
  · rename_i hkind
    exact htake (by rw [hkind]; decide) (by simp [Control.value, hkind])
  · rename_i hkind
    split
    · rename_i hliteral
      exact htake (by rw [hkind]; decide) (by simp [Control.value, hkind, hliteral])
    · rename_i hliteral
      exact hrefuse _ (by rw [hkind]; decide) (by simp [Control.value, hkind, hliteral])
  · rename_i hkind
    split
    · rename_i hliteral
      exact htake (by rw [hkind]; decide) (by simp [Control.value, hkind, hliteral])
    · rename_i hliteral
      exact hrefuse _ (by rw [hkind]; decide) (by simp [Control.value, hkind, hliteral])
  · by_cases hend : p.peek.kind = .endOfInput
    · rw [Parser.resume_of_end hend]
      exact follows_fault _ _
    · refine hrefuse _ hend ?_
      unfold Control.value
      split <;> first | contradiction | rfl

theorem follows_enter {event : Token → Event} {goal : Goal} {loop : Procedure}
    {hloop : ∀ p, loop.Ready p} (hgoal : goal ≠ .complete)
    (hautomaton : ∀ p s, Call.automaton d h cs ⟨loop, p, s, hloop p⟩ = p.resume d h goal cs s) :
    (enter d h event p s fun p s => .call ⟨loop, p, s, hloop p⟩ done).Follows d h cs
      (Parser.settle d h (Control.opening d p.depth cs p.peek goal (event p.peek)) p s) := by
  unfold enter Control.opening
  simp only
  split
  · exact follows_fault _ _
  · refine follows_report fun s => follows_call ?_
    rw [Parser.proceed_of_goal hgoal, hautomaton]

/-! ## Loops -/

/-- The goals belong to the loop: the automaton ends it with the same bracket, event and faults. The
    argument of a goal tells whether a comma came last. -/
structure Loop.Drives (d : Dialect) (l : Loop) (goal : Bool → Goal) : Prop where
  bracket_ne : l.bracket ≠ .endOfInput
  goal_ne : ∀ comma, goal comma ≠ .complete
  halt : ∀ comma depth cs t,
    Control.halt { depth, goal := goal comma, contexts := cs } t = (none, l.missing t.kind)
  close : ∀ comma depth cs previous t, t.kind = l.bracket →
    Control.move d { depth, goal := goal comma, contexts := cs } previous t =
      { verdict :=
          if comma ∧ !d.trailingCommas then .refuse ⟨previous, .trailingComma⟩
          else Control.closing depth cs (l.event t) }

theorem drives_members (d : Dialect) (keys : List Bytes) : Loop.members.Drives d (.member keys) where
  bracket_ne := by decide
  goal_ne := nofun
  halt := fun _ _ _ _ => rfl
  close := by
    intro comma depth cs previous t hbrace
    have hkind : t.kind = .rightBrace := hbrace
    simp only [Control.move]
    rw [if_neg (not_not.mpr hkind)]
    split <;> rfl

theorem drives_elements (d : Dialect) : Loop.elements.Drives d .element where
  bracket_ne := by decide
  goal_ne := nofun
  halt := fun _ _ _ _ => rfl
  close := by
    intro comma depth cs previous t hbracket
    have hkind : t.kind = .rightBracket := hbracket
    simp only [Control.move]
    rw [if_neg (not_not.mpr hkind)]
    split <;> rfl

variable {l : Loop} {goal : Bool → Goal} {first comma : Bool}

theorem resumeRound_of_end (hend : p.peek.kind = .endOfInput) {goal : Goal} :
    resumeRound d h l first comma goal cs p s = p.resume d h goal cs s :=
  if_neg fun hall => hall.1 (.inr hend)

theorem resumeRound_of_bracket (hbracket : p.peek.kind = l.bracket) {goal : Goal} :
    resumeRound d h l first comma goal cs p s = p.resume d h goal cs s :=
  if_neg fun hall => hall.1 (.inl hbracket)

theorem resumeRound_of_first {goal : Goal} :
    resumeRound d h l true comma goal cs p s = p.resume d h goal cs s :=
  if_neg fun hall => nomatch hall.2.1

theorem resumeRound_of_comma {goal : Goal} :
    resumeRound d h l first true goal cs p s = p.resume d h goal cs s :=
  if_neg fun hall => nomatch hall.2.2

theorem Loop.Drives.resume_of_end (hl : l.Drives d goal) (hend : p.peek.kind = .endOfInput) :
    p.resume d h (goal comma) cs s =
      ⟨p, s, .error (.malformed ⟨p.peek.position, l.missing p.peek.kind⟩)⟩ := by
  rw [Parser.resume_of_end hend, hl.halt]
  rfl

theorem Loop.Drives.resume_of_bracket (hl : l.Drives d goal) (hbracket : p.peek.kind = l.bracket) :
    p.resume d h (goal comma) cs s =
      Parser.settle d h
        (if comma ∧ !d.trailingCommas then .refuse ⟨Parser.previous p.consumed, .trailingComma⟩
          else Control.closing p.depth cs (l.event p.peek)) p s := by
  have hend : p.peek.kind ≠ .endOfInput := by
    rw [hbracket]
    exact hl.bracket_ne
  rw [Parser.resume_of_token hend (hl.close comma p.depth cs _ p.peek hbracket)]
  rfl

theorem follows_leave (hl : l.Drives d goal)
    (hkind : p.peek.kind = l.bracket ∨ p.peek.kind = .endOfInput) :
    (leave d h l comma p s).Follows d h cs (p.resume d h (goal comma) cs s) := by
  unfold leave
  by_cases hend : p.peek.kind = .endOfInput
  · rw [hl.resume_of_end hend, if_neg fun hall => hall.2.2 hend,
      if_pos (by rw [hend]; exact hl.bracket_ne.symm)]
    exact follows_fault _ _
  · have hbracket := hkind.resolve_right hend
    rw [hl.resume_of_bracket hbracket]
    by_cases htrailing : comma ∧ !d.trailingCommas
    · rw [if_pos htrailing, if_pos ⟨htrailing.1, htrailing.2, hend⟩]
      exact follows_fault _ _
    · rw [if_neg htrailing, if_neg fun hall => htrailing ⟨hall.1, hall.2.1⟩,
        if_neg (not_not.mpr hbracket)]
      simp only [Control.closing, Parser.settle, Control.depth_finish]
      exact follows_report fun s => rfl

theorem follows_round (hl : l.Drives d goal) {item : Parser → σ → Body σ ε}
    (hitem : p.peek.kind ≠ l.bracket → p.peek.kind ≠ .endOfInput →
      (item p s).Follows d h cs (p.resume d h (goal comma) cs s)) :
    (round d h l first comma item p s).Follows d h cs
      (resumeRound d h l first comma (goal comma) cs p s) := by
  unfold round resumeRound
  by_cases hkind : p.peek.kind = l.bracket ∨ p.peek.kind = .endOfInput
  · rw [if_pos hkind, if_neg fun hall => hall.1 hkind]
    exact follows_leave hl hkind
  · rw [if_neg hkind]
    by_cases hlacking : !first ∧ !comma
    · rw [if_pos hlacking, if_pos ⟨hkind, hlacking⟩]
      exact follows_fault _ _
    · rw [if_neg hlacking, if_neg fun hall => hlacking hall.2]
      exact hitem (not_or.mp hkind).1 (not_or.mp hkind).2

/-- Behind an item the automaton goes on as the loop does, with or without a comma. -/
theorem settle_itemEnd (hl : l.Drives d goal) (hend : p.peek.kind ≠ .endOfInput) {v : Verdict}
    (hv : v = if p.peek.kind = .comma then
        .take { depth := p.depth, goal := goal true, contexts := cs } (.ok none)
      else if p.peek.kind = l.bracket then Control.closing p.depth cs (l.event p.peek)
      else Control.refuse p.peek l.lacking) :
    Parser.settle d h v p s =
      if p.peek.kind = .comma then resumeRound d h l false true (goal true) cs p.advance s
      else resumeRound d h l false false (goal false) cs p s := by
  rw [hv]
  by_cases hcomma : p.peek.kind = .comma
  · rw [if_pos hcomma, if_pos hcomma, resumeRound_of_comma]
    exact Parser.settle_silent (hl.goal_ne true)
  · rw [if_neg hcomma, if_neg hcomma]
    by_cases hbracket : p.peek.kind = l.bracket
    · rw [if_pos hbracket, resumeRound_of_bracket hbracket, hl.resume_of_bracket hbracket]
      rfl
    · rw [if_neg hbracket, resumeRound, if_pos ⟨not_or.mpr ⟨hbracket, hend⟩, rfl, rfl⟩]
      rfl

theorem follows_again (loop : Bool → Procedure) (hloop : ∀ comma p, (loop comma).Ready p) :
    (again loop hloop p s).Follows d h cs
      (if p.peek.kind = .comma then Call.automaton d h cs ⟨loop true, p.advance, s, hloop _ _⟩
        else Call.automaton d h cs ⟨loop false, p, s, hloop _ _⟩) := by
  unfold again
  split
  · exact follows_call rfl
  · exact follows_call rfl

/-- Behind a member, the automaton reads on with the loop. -/
theorem resume_memberEnd {keys : List Bytes} (hkeys : keys.isEmpty = false) :
    p.resume d h (.memberEnd keys) cs s =
      Parser.tell h (some (.endMember p.peek)) p s fun s =>
        if p.peek.kind = .comma then
          Call.automaton d h cs ⟨.members keys true, p.advance, s, trivial⟩
        else Call.automaton d h cs ⟨.members keys false, p, s, trivial⟩ := by
  have hl := drives_members d keys
  simp only [Call.automaton, hkeys]
  by_cases hend : p.peek.kind = .endOfInput
  · rw [Parser.resume_of_end hend]
    refine congrArg (Parser.tell h _ p s) (funext fun s => ?_)
    rw [if_neg (by rw [hend]; decide), resumeRound_of_end hend, hl.resume_of_end hend]
    rfl
  · rw [Parser.resume_of_token hend rfl]
    refine congrArg (Parser.tell h _ p s) (funext fun s => settle_itemEnd hl hend ?_)
    simp only [Control.move]
    split
    · rename_i hcomma
      exact (if_pos hcomma).symm
    · rename_i hbrace
      exact ((if_neg (by rw [hbrace]; decide)).trans (if_pos hbrace)).symm
    · rename_i hcomma hbrace
      exact ((if_neg hcomma).trans (if_neg hbrace)).symm

/-- Behind an element, the automaton reads on with the loop. -/
theorem resume_elementEnd (count : Nat) :
    p.resume d h .elementEnd cs s =
      if p.peek.kind = .comma then
        Call.automaton d h cs ⟨.elements (count + 1) true, p.advance, s, trivial⟩
      else Call.automaton d h cs ⟨.elements (count + 1) false, p, s, trivial⟩ := by
  have hl := drives_elements d
  simp only [Call.automaton]
  by_cases hend : p.peek.kind = .endOfInput
  · rw [Parser.resume_of_end hend, if_neg (by rw [hend]; decide), resumeRound_of_end hend,
      hl.resume_of_end hend]
    rfl
  · rw [Parser.resume_of_token hend rfl]
    refine settle_itemEnd hl hend ?_
    simp only [Control.move]
    split
    · rename_i hcomma
      exact (if_pos hcomma).symm
    · rename_i hbracket
      exact ((if_neg (by rw [hbracket]; decide)).trans (if_pos hbracket)).symm
    · rename_i hcomma hbracket
      exact ((if_neg hcomma).trans (if_neg hbracket)).symm

/-! ## Procedures and automaton -/

theorem follows_memberValue {keys : List Bytes} (hkeys : keys.isEmpty = false) :
    (memberValue h keys p s).Follows d h cs (p.resume d h (.colon keys) cs s) := by
  unfold memberValue
  by_cases hcolon : p.peek.kind = .colon
  · rw [if_neg (not_not.mpr hcolon), Parser.resume_of_token (by rw [hcolon]; decide) rfl]
    refine ⟨.object keys :: cs, ?_, fun q s hq => ?_⟩
    · simp only [Call.automaton, Control.move, if_pos hcolon]
      exact (Parser.settle_silent (by simp)).symm
    · rw [← hq, Control.finish, Parser.proceed_of_goal (by simp)]
      rw [resume_memberEnd hkeys]
      exact follows_report fun s => follows_again (.members keys) fun _ _ => trivial
  · rw [if_pos hcolon]
    by_cases hend : p.peek.kind = .endOfInput
    · rw [Parser.resume_of_end hend]
      exact follows_fault _ _
    · rw [Parser.resume_of_token hend rfl]
      simp only [Control.move, if_neg hcolon]
      exact follows_fault _ _

theorem follows_member {keys : List Bytes} {comma : Bool} (hbrace : p.peek.kind ≠ .rightBrace)
    (hend : p.peek.kind ≠ .endOfInput) :
    (member h keys p s).Follows d h cs (p.resume d h (.member keys comma) cs s) := by
  have hresume : p.resume d h (.member keys comma) cs s =
      Parser.settle d h (Control.key p.depth cs keys p.peek) p s := by
    rw [Parser.resume_of_token hend rfl]
    simp only [Control.move, if_pos hbrace]
    rfl
  rw [hresume]
  unfold member Control.key
  cases p.peek.key? with
  | none => exact follows_fault _ _
  | some k =>
    have hdepth : p.advance.atDepth p.depth = p.advance := by
      rw [← p.depth_advance]
      rfl
    simp only
    split
    · rw [Parser.settle, hdepth]
      exact follows_fault _ _
    · rw [Parser.settle, hdepth]
      refine follows_report fun s => ?_
      rw [Parser.proceed_of_goal (by simp), hdepth]
      exact follows_memberValue rfl

theorem follows_value : (value h p s).Follows d h cs (p.resume d h .value cs s) := by
  unfold value
  split
  · exact follows_call rfl
  · split
    · exact follows_call rfl
    · exact follows_scalar ‹_› ‹_›

theorem follows_object (hbrace : p.peek.kind = .leftBrace) :
    (object d h p s).Follows d h cs (p.resume d h .value cs s) := by
  rw [resume_value (by rw [hbrace]; decide), Control.value]
  simp only [hbrace]
  exact follows_enter (by decide) fun q s => resumeRound_of_first

theorem follows_array (hbracket : p.peek.kind = .leftBracket) :
    (array d h p s).Follows d h cs (p.resume d h .value cs s) := by
  rw [resume_value (by rw [hbracket]; decide), Control.value]
  simp only [hbracket]
  exact follows_enter (by decide) fun q s => resumeRound_of_first

theorem follows_element {count : Nat} (hbracket : p.peek.kind ≠ .rightBracket)
    (hend : p.peek.kind ≠ .endOfInput) :
    (element count p s).Follows d h cs (p.resume d h (.element comma) cs s) := by
  have hvalue : p.resume d h .value (.array :: cs) s = p.resume d h (.element comma) cs s := by
    rw [resume_value hend, Parser.resume_of_token hend rfl]
    simp only [Control.move, if_pos hbracket]
    rfl
  refine ⟨.array :: cs, hvalue, fun q s hq => ?_⟩
  rw [← hq, Control.finish, Parser.proceed_of_goal (by simp)]
  have helement : q.resume d h .elementEnd cs s = _ := resume_elementEnd count
  exact helement ▸ follows_again (.elements (count + 1)) fun _ _ => trivial

theorem follows_body (c : Call σ) (cs : List Context) :
    (body d h c).Follows d h cs (c.automaton d h cs) := by
  obtain ⟨procedure, p, s, hready⟩ := c
  cases procedure with
  | value => exact follows_value
  | object => exact follows_object hready
  | array => exact follows_array hready
  | members keys comma => exact follows_round (drives_members d keys) follows_member
  | elements count comma => exact follows_round (drives_elements d) follows_element

/-- What is read is all there is to read, where nothing is around it. -/
theorem continued_nil (o : Outcome σ ε) : continued d h [] o = o := by
  obtain ⟨p, s, result⟩ := o
  cases result with
  | error e => rfl
  | ok _ => rfl

/-- The procedures do what the automaton does. -/
theorem returns_iff {c : Call σ} {o : Outcome σ ε} : Returns d h c o ↔ o = c.automaton d h [] := by
  have heq : ∀ o', Returns d h c o' → o' = c.automaton d h [] := by
    intro o' hreturns
    have hcontinued := continued_of_ends hreturns follows_body (follows_body c [])
    rwa [continued_nil] at hcontinued
  refine ⟨heq o, ?_⟩
  rintro rfl
  obtain ⟨o', hreturns⟩ := exists_returns d h c
  rwa [← heq o' hreturns]

theorem returns_value (p : Parser) (s : σ) :
    Returns d h ⟨.value, p, s, trivial⟩ (p.value d h s) :=
  returns_iff.mpr rfl

end Descent

/-! ## Values in a row -/

theorem Parser.unread_lt_of_parseOne {σ ε : Type} {d : Dialect} {h : Handler σ ε} {p : Parser} {s : σ}
    (hok : (p.parseOne d h s).result = .ok ()) : (p.parseOne d h s).parser.unread < p.unread := by
  unfold parseOne at hok ⊢
  split at hok
  · cases hok
  · rename_i hkind
    rw [if_neg hkind]
    exact Descent.unread_lt_of_returns (Descent.returns_value p s) hok

namespace Value

variable {d : Dialect} {p : Parser} {found : List Value} {r : List Value × Option ReadFailure}
  {n : Nat}

/-- To read values on behind those in `found` comes to the result `r` after `n` attempts to read
    one. -/
inductive Attempts (d : Dialect) :
    Parser → List Value → List Value × Option ReadFailure → Nat → Prop where
  | exhausted {p : Parser} {found : List Value} :
      (p.parseOne d Builder.handle []).result = .error .exhausted →
      Attempts d p found (found.reverse, none) 1
  | failed {p : Parser} {found : List Value} {e : ReadFailure} :
      (p.parseOne d Builder.handle []).result = .error e → e ≠ .exhausted →
      Attempts d p found (found.reverse, some e) 1
  | unfinished {p : Parser} {found : List Value} {e : BuildError} :
      (p.parseOne d Builder.handle []).result = .ok () →
      (p.parseOne d Builder.handle []).state.value = .error e →
      Attempts d p found (found.reverse, some (.refused e)) 1
  | read {p : Parser} {found : List Value} {v : Value} {r : List Value × Option ReadFailure}
      {n : Nat} :
      (p.parseOne d Builder.handle []).result = .ok () →
      (p.parseOne d Builder.handle []).state.value = .ok v →
      Attempts d (p.parseOne d Builder.handle []).parser (v :: found) r n →
      Attempts d p found r (n + 1)

theorem exists_attempts (d : Dialect) (p : Parser) (found : List Value) :
    ∃ n, Attempts d p found (readAll d p found) n := by
  induction hm : p.unread using Nat.strongRecOn generalizing p found with
  | ind m ih =>
    rw [readAll_eq]
    cases hresult : (p.parseOne d Builder.handle []).result with
    | error e =>
      cases e with
      | exhausted => exact ⟨1, .exhausted hresult⟩
      | malformed e => exact ⟨1, .failed hresult nofun⟩
      | refused e => exact ⟨1, .failed hresult nofun⟩
    | ok _ =>
      cases hvalue : (p.parseOne d Builder.handle []).state.value with
      | error e => exact ⟨1, .unfinished hresult hvalue⟩
      | ok v =>
        have hlt := Parser.unread_lt_of_parseOne hresult
        obtain ⟨n, hn⟩ := ih _ (hm ▸ hlt) _ (v :: found) rfl
        exact ⟨n + 1, .read hresult hvalue hn⟩

/-- Each attempt but the last reads a token. -/
theorem Attempts.le (h : Attempts d p found r n) : n ≤ p.unread + 1 := by
  induction h with
  | exhausted | failed | unfinished => exact Nat.le_add_left 1 _
  | read hresult _ _ ih =>
    have hlt := Parser.unread_lt_of_parseOne hresult
    omega

end Value

namespace Descent

variable {σ ε : Type}

/-- Both are rounds of a loop over members, or of a loop over elements. -/
def Procedure.SameLoop : Procedure → Procedure → Prop
  | .members _ _,  .members _ _  => True
  | .elements _ _, .elements _ _ => True
  | _,             _             => False

theorem Procedure.SameLoop.rank_eq {f g : Procedure} (hloop : f.SameLoop g) : f.rank = g.rank := by
  unfold SameLoop at hloop
  split at hloop
  · rfl
  · rfl
  · exact hloop.elim

/-- On any token sequence, with any dialect and handler: a call that succeeds has read a token, and so
    has each round of a loop before the next one; a call inside an object or array, or inside a call of
    the same procedure, has fewer tokens to read. So the recursion is well-founded, and every call comes
    to just one end, that of a value to the one the parser comes to. The values in a sequence are read in
    at most one attempt more than there are tokens. -/
theorem terminates (d : Dialect) (h : Handler σ ε) :
    (∀ c o, Returns d h c o → o.result = .ok () → o.parser.unread < c.parser.unread) ∧
    (∀ c c', Invokes d h c c' → c.procedure.SameLoop c'.procedure →
      c'.parser.unread < c.parser.unread) ∧
    (∀ c c', Relation.TransGen (Invokes d h) c c' →
      c.procedure = .object ∨ c.procedure = .array ∨ c.procedure = c'.procedure →
      c'.parser.unread < c.parser.unread) ∧
    (WellFounded fun c' c => Invokes d h c c') ∧
    (∀ c, ∃! o, Returns d h c o) ∧
    (∀ p s, Returns d h ⟨.value, p, s, trivial⟩ (p.value d h s)) ∧
    ∀ ts, (∃ n, Value.Attempts d (.ofTokens ts) [] (Value.readAll d (.ofTokens ts) []) n) ∧
      ∀ r n, Value.Attempts d (.ofTokens ts) [] r n → n ≤ ts.length + 1 := by
  refine ⟨fun c o => unread_lt_of_returns, fun c c' hinvokes hloop => ?_,
    fun c c' hcalls hprocedure => ?_, invokes_wellFounded d h, fun c => ?_, returns_value,
    fun ts => ⟨Value.exists_attempts d _ [], fun r n hattempts => ?_⟩⟩
  · exact unread_lt_of_transGen (.single hinvokes) hloop.rank_eq.le
  · refine unread_lt_of_transGen hcalls ?_
    rcases hprocedure with hobject | harray | hsame
    · rw [hobject]
      exact Nat.zero_le _
    · rw [harray]
      exact Nat.zero_le _
    · exact (congrArg Procedure.rank hsame).le
  · exact ⟨_, returns_iff.mpr rfl, fun o => returns_iff.mp⟩
  · have hle := hattempts.le
    have hunread := (Parser.ofTokens ts).unread_le_length
    have hrest : (Parser.ofTokens ts).rest.length = ts.length := rfl
    omega

end Descent

end RelaxedJson
