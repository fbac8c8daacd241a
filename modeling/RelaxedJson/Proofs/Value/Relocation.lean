-- SUMMARY: What is read from tokens does not depend on where they lie.
import RelaxedJson.Proofs.Value.EntryPoints

/-!
# Relocation

A parser looks at the place of a token only to say where a fault lies. So when its tokens are put
elsewhere it does the same with them, and its faults are put elsewhere in the same way
(`Parser.run_relocated`). The same goes for everything that is made of parsers. So texts whose scans
agree up to a relocation have the same values, and faults that agree up to it, as long as their
dialects have the same automaton (`Value.parse_of_agree`, `Value.parseAll_of_agree`).
-/

namespace RelaxedJson

/-- A way to put tokens elsewhere. The start of a text stays where it is: the end of an empty token
    sequence lies there. -/
structure Relocation where
  location : Location → Location
  position : Position → Position
  position_location (l : Location) : (location l).position = position l.position
  location_origin : location .origin = .origin

theorem Relocation.position_origin (ρ : Relocation) : ρ.position .origin = .origin := by
  have horigin := ρ.position_location .origin
  rw [ρ.location_origin] at horigin
  exact horigin.symm

/-! ## What has places -/

namespace Token

/-- A token that is put elsewhere. -/
def relocated (ρ : Relocation) (t : Token) : Token :=
  { t with location := ρ.location t.location }

variable (ρ : Relocation) (t : Token)

@[simp] theorem relocated_kind : (t.relocated ρ).kind = t.kind := rfl

@[simp] theorem relocated_hasLiteral : (t.relocated ρ).hasLiteral = t.hasLiteral := rfl

@[simp] theorem relocated_key? : (t.relocated ρ).key? = t.key? := rfl

@[simp] theorem relocated_position : (t.relocated ρ).position = ρ.position t.position :=
  ρ.position_location t.location

end Token

/-- An event with a token that is put elsewhere. -/
def Event.relocated (ρ : Relocation) : Event → Event
  | .beginObject t     => .beginObject (t.relocated ρ)
  | .endObject t       => .endObject (t.relocated ρ)
  | .beginArray t      => .beginArray (t.relocated ρ)
  | .endArray t        => .endArray (t.relocated ρ)
  | .beginMember key t => .beginMember key (t.relocated ρ)
  | .endMember t       => .endMember (t.relocated ρ)
  | .scalar t          => .scalar (t.relocated ρ)
  | .endOfInput t      => .endOfInput (t.relocated ρ)

def SyntaxError.relocated (ρ : Relocation) (e : SyntaxError) : SyntaxError :=
  { e with position := ρ.position e.position }

def BuildError.relocated (ρ : Relocation) : BuildError → BuildError
  | .unknownValue t => .unknownValue (t.relocated ρ)
  | e               => e

/-- A failure that is put elsewhere, where `f` does so to a handler's failures. -/
def ParseFailure.relocated {ε : Type} (ρ : Relocation) (f : ε → ε) : ParseFailure ε → ParseFailure ε
  | .malformed e => .malformed (e.relocated ρ)
  | .refused e   => .refused (f e)
  | .exhausted   => .exhausted

def ReadFailure.relocated (ρ : Relocation) : ReadFailure → ReadFailure :=
  ParseFailure.relocated ρ (BuildError.relocated ρ)

def Verdict.relocated (ρ : Relocation) : Verdict → Verdict
  | .refuse e              => .refuse (e.relocated ρ)
  | .take next (.error e)  => .take next (.error (e.relocated ρ))
  | .take next (.ok event) => .take next (.ok (event.map (Event.relocated ρ)))

def Move.relocated (ρ : Relocation) (m : Move) : Move :=
  { before := m.before.map (Event.relocated ρ), verdict := m.verdict.relocated ρ }

def Parser.relocated (ρ : Relocation) (p : Parser) : Parser :=
  { consumed := p.consumed.map (Token.relocated ρ), rest := p.rest.map (Token.relocated ρ),
    depth := p.depth }

def Outcome.relocated {σ ε : Type} (ρ : Relocation) (f : ε → ε) (o : Outcome σ ε) : Outcome σ ε :=
  { parser := o.parser.relocated ρ, state := o.state,
    result := o.result.mapError (ParseFailure.relocated ρ f) }

/-! ## The automaton -/

namespace Control

variable (d : Dialect) (ρ : Relocation) (depth : Nat) (cs : List Context) (t : Token)

theorem refuse_relocated (reason : SyntaxReason) :
    refuse (t.relocated ρ) reason = (refuse t reason).relocated ρ := by
  simp only [refuse, Token.relocated_position]
  rfl

theorem opening_relocated (goal : Goal) (event : Event) :
    opening d depth cs (t.relocated ρ) goal (event.relocated ρ) =
      (opening d depth cs t goal event).relocated ρ := by
  simp only [opening, Token.relocated_position]
  split <;> rfl

theorem value_relocated : value d depth cs (t.relocated ρ) = (value d depth cs t).relocated ρ := by
  unfold value
  rw [Token.relocated_kind, Token.relocated_hasLiteral]
  split
  · exact opening_relocated d ρ depth cs t _ (.beginObject t)
  · exact opening_relocated d ρ depth cs t _ (.beginArray t)
  · rfl
  · rfl
  · rfl
  · split
    · rfl
    · exact refuse_relocated ρ t _
  · split
    · rfl
    · exact refuse_relocated ρ t _
  · exact refuse_relocated ρ t _

theorem key_relocated (keys : List Bytes) :
    key depth cs keys (t.relocated ρ) = (key depth cs keys t).relocated ρ := by
  simp only [key, Token.relocated_key?, Token.relocated_position]
  split
  · exact refuse_relocated ρ t _
  · split <;> rfl

/-- What the automaton does with a token does not depend on its place. -/
theorem move_relocated (c : Control) (p : Position) :
    c.move d (ρ.position p) (t.relocated ρ) = (c.move d p t).relocated ρ := by
  obtain ⟨depth, goal, cs⟩ := c
  cases goal with
  | value =>
    simp only [move, value_relocated]
    rfl
  | member keys comma =>
    simp only [move, Token.relocated_kind, key_relocated]
    split
    · rfl
    · split <;> rfl
  | colon keys =>
    simp only [move, Token.relocated_kind, refuse_relocated]
    split <;> rfl
  | memberEnd keys =>
    simp only [move, Token.relocated_kind, refuse_relocated, Move.relocated]
    split <;> rfl
  | element comma =>
    simp only [move, Token.relocated_kind, value_relocated]
    split
    · rfl
    · split <;> rfl
  | elementEnd =>
    simp only [move, Token.relocated_kind, refuse_relocated, Move.relocated]
    split <;> rfl
  | complete =>
    simp only [move, Token.relocated_kind, refuse_relocated]
    rfl

theorem halt_relocated (c : Control) :
    c.halt (t.relocated ρ) = ((c.halt t).1.map (Event.relocated ρ), (c.halt t).2) := by
  obtain ⟨depth, goal, cs⟩ := c
  cases goal <;> rfl

end Control

/-! ## Handlers -/

/-- The handler does not look at places, and `f` puts its failures elsewhere. -/
def Handler.Follows {σ ε : Type} (h : Handler σ ε) (ρ : Relocation) (f : ε → ε) : Prop :=
  ∀ e s, h (e.relocated ρ) s = ((h e s).1, (h e s).2.map f)

theorem Handler.Follows.deliver {σ ε : Type} {h : Handler σ ε} {ρ : Relocation} {f : ε → ε}
    (hh : h.Follows ρ f) (event : Option Event) (s : σ) :
    h.deliver (event.map (Event.relocated ρ)) s =
      ((h.deliver event s).1, (h.deliver event s).2.map f) := by
  cases event with
  | none => rfl
  | some e => exact hh e s

namespace Builder

variable (ρ : Relocation)

theorem put_relocated (draft : Draft) (b : Builder) :
    (b.put draft).2.map (BuildError.relocated ρ) = (b.put draft).2 := by
  fun_cases put draft b <;> rfl

theorem close_relocated (close? : Part → Option (Option Draft)) {error : BuildError}
    (herror : error.relocated ρ = error) (b : Builder) :
    (b.close close? error).2.map (BuildError.relocated ρ) = (b.close close? error).2 := by
  unfold close
  split
  · rfl
  · split
    · simp [herror]
    · rfl
    · exact put_relocated ρ _ _

/-- A builder only shows a token that denotes no value, and otherwise does without places. -/
theorem follows_handle : Handler.Follows handle ρ (BuildError.relocated ρ) := by
  intro e b
  have hsame : ∀ x : Builder × Option BuildError, x.2.map (BuildError.relocated ρ) = x.2 →
      x = (x.1, x.2.map (BuildError.relocated ρ)) := by
    intro x hx
    rw [hx]
  cases e with
  | beginObject t => rfl
  | beginArray t => rfl
  | beginMember key t =>
    have hmember : (handle (.beginMember key t) b).2.map (BuildError.relocated ρ) =
        (handle (.beginMember key t) b).2 := by
      cases b with
      | nil => rfl
      | cons part b => cases part <;> rfl
    exact hsame _ hmember
  | endObject t => exact hsame _ (close_relocated ρ _ rfl b)
  | endArray t => exact hsame _ (close_relocated ρ _ rfl b)
  | endMember t => exact hsame _ (close_relocated ρ _ rfl b)
  | scalar t =>
    have hscalar : scalar? (t.relocated ρ) = scalar? t := rfl
    simp only [Event.relocated, handle, hscalar]
    split
    · exact hsame _ (put_relocated ρ _ b)
    · rfl
  | endOfInput t => rfl

/-- A builder without a value names no token. -/
theorem relocated_of_value {b : Builder} {e : BuildError} (h : b.value = .error e) :
    e.relocated ρ = e := by
  unfold value at h
  split at h
  · split at h <;> cases h
    rfl
  · cases h
    rfl

end Builder

/-! ## Parsers -/

namespace Parser

variable {σ ε : Type} {d : Dialect} {h : Handler σ ε} {ρ : Relocation} {f : ε → ε}

theorem previous_relocated (consumed : List Token) :
    previous (consumed.map (Token.relocated ρ)) = ρ.position (previous consumed) := by
  cases consumed with
  | nil => exact ρ.position_origin.symm
  | cons t _ => exact t.relocated_position ρ

theorem endBehind_relocated (consumed : List Token) :
    endBehind (consumed.map (Token.relocated ρ)) = (endBehind consumed).relocated ρ := by
  cases consumed with
  | nil => simp only [List.map_nil, endBehind, Token.relocated, ρ.location_origin]
  | cons t _ => rfl

theorem peek_relocated (p : Parser) : (p.relocated ρ).peek = p.peek.relocated ρ := by
  obtain ⟨consumed, rest, depth⟩ := p
  cases rest with
  | nil => exact endBehind_relocated consumed
  | cons t rest => rfl

theorem halt_relocated (hh : h.Follows ρ f) (c : Control) (consumed rest : List Token) (t : Token)
    (s : σ) :
    halt h c (consumed.map (Token.relocated ρ)) (rest.map (Token.relocated ρ)) (t.relocated ρ) s =
      (halt h c consumed rest t s).relocated ρ f := by
  simp only [halt, Control.halt_relocated, Token.relocated_position, hh.deliver]
  cases h.deliver (c.halt t).1 s with
  | mk s' failure => cases failure <;> rfl

/-- A parser does the same with tokens that are put elsewhere. -/
theorem run_relocated (hh : h.Follows ρ f) (c : Control) (consumed : List Token) (s : σ)
    (ts : List Token) :
    run d h c (consumed.map (Token.relocated ρ)) s (ts.map (Token.relocated ρ)) =
      (run d h c consumed s ts).relocated ρ f := by
  induction ts generalizing c consumed s with
  | nil =>
    rw [List.map_nil, run, endBehind_relocated]
    exact halt_relocated hh c consumed [] _ s
  | cons t rest ih =>
    by_cases hend : t.kind = .endOfInput
    · simp only [List.map_cons, run, Token.relocated_kind, hend, reduceIte]
      exact halt_relocated hh c consumed (t :: rest) t s
    · simp only [List.map_cons, run, Token.relocated_kind, hend, reduceIte, previous_relocated,
        Control.move_relocated, Move.relocated, hh.deliver]
      rcases h.deliver (c.move d (previous consumed) t).before s with ⟨s₁, _ | failure⟩
      · cases (c.move d (previous consumed) t).verdict with
        | refuse e => rfl
        | take next report =>
          cases report with
          | error e => rfl
          | ok event =>
            simp only [Option.map_none, Verdict.relocated, hh.deliver]
            rcases h.deliver event s₁ with ⟨s₂, _ | failure⟩
            · by_cases hnext : next.goal = .complete
              · simp only [Option.map_none, hnext, reduceIte]
                rfl
              · simp only [Option.map_none, hnext, reduceIte]
                exact ih next (t :: consumed) s₂
            · rfl
      · rfl

theorem value_relocated (hh : h.Follows ρ f) (p : Parser) (s : σ) :
    (p.relocated ρ).value d h s = (p.value d h s).relocated ρ f :=
  run_relocated hh _ p.consumed s p.rest

theorem parse_relocated (hh : h.Follows ρ f) (p : Parser) (s : σ) :
    (p.relocated ρ).parse d h s = (p.parse d h s).relocated ρ f := by
  simp only [parse, value_relocated hh]
  obtain ⟨q, s', result⟩ := p.value d h s
  cases result with
  | error e => rfl
  | ok _ =>
    simp only [Outcome.relocated, Except.mapError, peek_relocated, Token.relocated_kind,
      Token.relocated_position]
    by_cases hend : q.peek.kind = .endOfInput
    · have hstate := congrArg Prod.fst (hh (.endOfInput q.peek) s')
      simp only [Event.relocated] at hstate
      simp only [if_pos hend, hstate]
    · simp only [if_neg hend]
      rfl

theorem parseOne_relocated (hh : h.Follows ρ f) (p : Parser) (s : σ) :
    (p.relocated ρ).parseOne d h s = (p.parseOne d h s).relocated ρ f := by
  simp only [parseOne, peek_relocated, Token.relocated_kind]
  by_cases hend : p.peek.kind = .endOfInput
  · have hstate := congrArg Prod.fst (hh (.endOfInput p.peek) s)
    simp only [Event.relocated] at hstate
    simp only [if_pos hend, hstate]
    rfl
  · simp only [if_neg hend]
    exact value_relocated hh p s

end Parser

/-! ## Dialects -/

section

variable {d d' : Dialect} (hmove : Control.move d' = Control.move d)
include hmove

/-- A parser knows its dialect only by the moves of the automaton. -/
theorem Parser.run_of_move {σ ε : Type} (h : Handler σ ε) (c : Control) (consumed : List Token)
    (s : σ) (ts : List Token) : run d' h c consumed s ts = run d h c consumed s ts := by
  induction ts generalizing c consumed s with
  | nil => rfl
  | cons t rest ih => simp only [run, ih, hmove]

theorem Parser.parse_of_move {σ ε : Type} (h : Handler σ ε) (p : Parser) (s : σ) :
    p.parse d' h s = p.parse d h s := by
  have hvalue : p.value d' h s = p.value d h s := run_of_move hmove h _ _ s _
  simp only [parse, hvalue]

theorem Parser.parseOne_of_move {σ ε : Type} (h : Handler σ ε) (p : Parser) (s : σ) :
    p.parseOne d' h s = p.parseOne d h s := by
  have hvalue : p.value d' h s = p.value d h s := run_of_move hmove h _ _ s _
  simp only [parseOne, hvalue]

theorem Value.ofTokens_of_move (ts : List Token) : ofTokens d' ts = ofTokens d ts := by
  simp only [ofTokens, Parser.parse_of_move hmove]

theorem Value.readAll_of_move (p : Parser) (found : List Value) :
    readAll d' p found = readAll d p found := by
  fun_induction readAll d p found with
  | case1 p found hresult => rw [readAll_eq, Parser.parseOne_of_move hmove, hresult]
  | case2 p found f hmore hresult =>
    rw [readAll_eq, Parser.parseOne_of_move hmove, hresult]
    cases f with
    | exhausted => exact absurd rfl hmore
    | _ => rfl
  | case3 p found hresult e hvalue =>
    rw [readAll_eq, Parser.parseOne_of_move hmove, hresult]
    simp only [hvalue]
  | case4 p found hresult v hvalue hshorter ih =>
    rw [readAll_eq, Parser.parseOne_of_move hmove, hresult]
    simp only [hvalue, ih]

end

/-! ## Values -/

namespace Value

variable {d : Dialect}

theorem ofTokens_relocated (ρ : Relocation) (ts : List Token) :
    ofTokens d (ts.map (Token.relocated ρ)) =
      (ofTokens d ts).mapError (ReadFailure.relocated ρ) := by
  have hparse : (Parser.ofTokens (ts.map (Token.relocated ρ))).parse d Builder.handle [] =
      ((Parser.ofTokens ts).parse d Builder.handle []).relocated ρ (BuildError.relocated ρ) :=
    Parser.parse_relocated (Builder.follows_handle ρ) (.ofTokens ts) []
  simp only [ofTokens, hparse]
  obtain ⟨q, b, result⟩ := (Parser.ofTokens ts).parse d Builder.handle []
  cases result with
  | error f => rfl
  | ok _ =>
    simp only [Outcome.relocated, Except.mapError]
    cases hb : b.value with
    | error e =>
      simp only [ReadFailure.relocated, ParseFailure.relocated, b.relocated_of_value ρ hb]
    | ok v => rfl

theorem readAll_relocated (ρ : Relocation) (p : Parser) (found : List Value) :
    readAll d (p.relocated ρ) found =
      ((readAll d p found).1, (readAll d p found).2.map (ReadFailure.relocated ρ)) := by
  fun_induction readAll d p found with
  | case1 p found hresult =>
    rw [readAll_eq, Parser.parseOne_relocated (Builder.follows_handle ρ)]
    simp only [Outcome.relocated, hresult, Except.mapError, ParseFailure.relocated]
    rfl
  | case2 p found f hmore hresult =>
    rw [readAll_eq, Parser.parseOne_relocated (Builder.follows_handle ρ)]
    simp only [Outcome.relocated, hresult, Except.mapError]
    cases f with
    | exhausted => exact absurd rfl hmore
    | _ => rfl
  | case3 p found hresult e hvalue =>
    rw [readAll_eq, Parser.parseOne_relocated (Builder.follows_handle ρ)]
    simp only [Outcome.relocated, hresult, hvalue, Except.mapError, Option.map_some,
      ReadFailure.relocated, ParseFailure.relocated, Builder.relocated_of_value ρ hvalue]
  | case4 p found hresult v hvalue hshorter ih =>
    rw [readAll_eq, Parser.parseOne_relocated (Builder.follows_handle ρ)]
    simp only [Outcome.relocated, hresult, hvalue, Except.mapError]
    exact ih

section

variable {ρ : Relocation} {ts us : List Token}

/-- Token sequences that a relocation makes equal have the same value or the same fault, up to that
    relocation. -/
theorem ofTokens_of_relocated (h : us.map (Token.relocated ρ) = ts.map (Token.relocated ρ)) :
    (ofTokens d us).mapError (ReadFailure.relocated ρ) =
      (ofTokens d ts).mapError (ReadFailure.relocated ρ) := by
  rw [← ofTokens_relocated, ← ofTokens_relocated, h]

theorem readAll_of_relocated (h : us.map (Token.relocated ρ) = ts.map (Token.relocated ρ)) :
    (readAll d (.ofTokens us) []).1 = (readAll d (.ofTokens ts) []).1 ∧
      (readAll d (.ofTokens us) []).2.map (ReadFailure.relocated ρ) =
        (readAll d (.ofTokens ts) []).2.map (ReadFailure.relocated ρ) := by
  have hstart : (Parser.ofTokens us).relocated ρ = (Parser.ofTokens ts).relocated ρ := by
    simp only [Parser.relocated, Parser.ofTokens, h]
  have hread := readAll_relocated (d := d) ρ (.ofTokens us) []
  rw [hstart, readAll_relocated ρ (.ofTokens ts) []] at hread
  injection hread with hvalues hfault
  exact ⟨hvalues.symm, hfault.symm⟩

end

end Value

/-! ## Texts -/

/-- Two scans agree up to a relocation: both find the same tokens, or both meet the same fault. -/
inductive Token.AgreeUpTo (ρ : Relocation) :
    Except SyntaxError (List Token) → Except SyntaxError (List Token) → Prop where
  | ok {ts us : List Token} :
      us.map (Token.relocated ρ) = ts.map (Token.relocated ρ) → AgreeUpTo ρ (.ok ts) (.ok us)
  | error {e f : SyntaxError} :
      f.relocated ρ = e.relocated ρ → AgreeUpTo ρ (.error e) (.error f)

namespace Value

variable {d d' : Dialect} {ρ : Relocation} {text text' : Bytes}

/-- Texts whose scans agree have the same value or the same fault, up to the relocation. -/
theorem parse_of_agree (hmove : Control.move d' = Control.move d)
    (hscan : Token.AgreeUpTo ρ (Token.scan d text) (Token.scan d' text')) :
    (parse d' text').mapError (ReadFailure.relocated ρ) =
      (parse d text).mapError (ReadFailure.relocated ρ) := by
  unfold parse
  generalize Token.scan d text = found, Token.scan d' text' = found' at hscan
  cases hscan with
  | ok htokens =>
    simp only [ofTokens_of_move hmove]
    exact ofTokens_of_relocated htokens
  | error hfault => exact congrArg (Except.error ∘ ParseFailure.malformed) hfault

theorem parseAll_of_agree (hmove : Control.move d' = Control.move d)
    (hscan : Token.AgreeUpTo ρ (Token.scan d text) (Token.scan d' text')) :
    (parseAll d' text').1 = (parseAll d text).1 ∧
      (parseAll d' text').2.map (ReadFailure.relocated ρ) =
        (parseAll d text).2.map (ReadFailure.relocated ρ) := by
  unfold parseAll
  generalize Token.scan d text = found, Token.scan d' text' = found' at hscan
  cases hscan with
  | ok htokens =>
    simp only [readAll_of_move hmove]
    exact readAll_of_relocated htokens
  | error hfault => exact ⟨rfl, congrArg (some ∘ ParseFailure.malformed) hfault⟩

/-- Whether a text is valid can be told from its value or fault, wherever the fault is put. -/
theorem valid_of_mapError_parse {f : ReadFailure → ReadFailure}
    (h : (parse d' text').mapError f = (parse d text).mapError f) :
    valid d' text' = valid d text := by
  rw [Bool.eq_iff_iff, valid_iff, valid_iff]
  cases hparse : parse d text with
  | error e =>
    cases hparse' : parse d' text' with
    | error e' => simp
    | ok v' => simp [hparse, hparse', Except.mapError] at h
  | ok v =>
    cases hparse' : parse d' text' with
    | error e' => simp [hparse, hparse', Except.mapError] at h
    | ok v' => simp

end Value

end RelaxedJson
