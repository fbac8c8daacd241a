-- SUMMARY: From text to values.
import RelaxedJson.Event.Parser
import RelaxedJson.Token.Scan
import RelaxedJson.Value.Builder

/-!
# Reading values

Text becomes tokens, tokens become events, and events build a value. A text holds one value
(`Value.parse`) or any number of them (`Value.parseAll`).
-/

namespace RelaxedJson

/-! ## Progress -/

namespace Parser

variable {σ ε : Type}

/-- Giving up is never a success. -/
theorem halt_result_ne (h : Handler σ ε) (c : Control) (consumed rest : List Token) (t : Token)
    (s : σ) : (halt h c consumed rest t s).result ≠ .ok () := by
  unfold halt
  split <;> simp

/-- Reading a value uses up at least one token. -/
theorem run_rest_lt (d : Dialect) (h : Handler σ ε) (c : Control) (consumed : List Token) (s : σ)
    (ts : List Token) (hok : (run d h c consumed s ts).result = .ok ()) :
    (run d h c consumed s ts).parser.rest.length < ts.length := by
  fun_induction run d h c consumed s ts with
  | case1 c consumed s => exact absurd hok (halt_result_ne h c consumed _ _ s)
  | case2 c consumed s => exact absurd hok (halt_result_ne h c consumed _ _ s)
  | case7 => exact Nat.lt_succ_self _
  | case8 _ _ _ _ _ _ _ _ _ _ _ _ _ _ ih => exact Nat.lt_succ_of_lt (ih hok)
  | _ => cases hok

theorem parseOne_rest_lt (d : Dialect) (h : Handler σ ε) (p : Parser) (s : σ)
    (hok : (p.parseOne d h s).result = .ok ()) :
    (p.parseOne d h s).parser.rest.length < p.rest.length := by
  unfold parseOne at hok ⊢
  split at hok
  · cases hok
  · rename_i hkind
    simp only [hkind, if_false]
    exact run_rest_lt d h _ _ s _ hok

end Parser

/-! ## Entry points -/

/-- Why a text or a token sequence has no value. -/
abbrev ReadFailure := ParseFailure BuildError

namespace Value

/-- The value of a token sequence. -/
def ofTokens (d : Dialect) (ts : List Token) : Except ReadFailure Value :=
  let o := (Parser.ofTokens ts).parse d Builder.handle []
  match o.result with
  | .error e => .error e
  | .ok ()   => o.state.value.mapError .refused

/-- The value of a text. -/
def parse (d : Dialect) (text : Bytes) : Except ReadFailure Value :=
  match Token.scan d text with
  | .error e => .error (.malformed e)
  | .ok ts   => ofTokens d ts

/-- Reads values on behind those in `found`, latest first, until there are no more. -/
def readAll (d : Dialect) (p : Parser) (found : List Value) : List Value × Option ReadFailure :=
  match h : (p.parseOne d Builder.handle []).result with
  | .error .exhausted => (found.reverse, none)
  | .error e          => (found.reverse, some e)
  | .ok () =>
    match (p.parseOne d Builder.handle []).state.value with
    | .error e => (found.reverse, some (.refused e))
    | .ok v    =>
      have _shorter := Parser.parseOne_rest_lt d Builder.handle p [] h
      readAll d (p.parseOne d Builder.handle []).parser (v :: found)
termination_by p.rest.length

/-- All values of a text up to the first fault, and the fault. -/
def parseAll (d : Dialect) (text : Bytes) : List Value × Option ReadFailure :=
  match Token.scan d text with
  | .error e => ([], some (.malformed e))
  | .ok ts   => readAll d (.ofTokens ts) []

end Value

/-- Whether a text is a single value. -/
def valid (d : Dialect) (text : Bytes) : Bool :=
  match Token.scan d text with
  | .error _ => false
  | .ok ts   => ((Parser.ofTokens ts).parse d Handler.discard ()).result matches .ok ()

end RelaxedJson
