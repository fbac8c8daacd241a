-- SUMMARY: A scanner that is called step by step delivers what a whole scan finds.
import RelaxedJson.Proofs.Lexical.Scanning
import RelaxedJson.Token.Scanner

/-!
# Step-by-step scanning

A scanner goes on from where it is only when the next token is asked for. Asking for it is one round
of the whole scan (`Token.scanFrom_of_next`), so the scanner delivers the tokens that the scan finds
and then has finished or has met the same error, and stays as it is (`Scanner.exists_after`). What
it answers to a call depends only on how often the next token has been asked for before.
-/

namespace RelaxedJson

/-! ## One token -/

namespace Token

variable {d : Dialect}

theorem drop_of_taken {r : Rune} {rs taken rest : List Rune} (h : r :: rs = taken ++ rest)
    (hne : taken ≠ []) : rs.drop (taken.length - 1) = rest := by
  cases taken with
  | nil => exact absurd rfl hne
  | cons _ taken =>
    rw [List.cons_append] at h
    injection h with _ htail
    rw [htail, List.length_cons, Nat.add_sub_cancel, List.drop_left]

/-- Asking for the next token is one round of the whole scan: it fails with the same error, or comes
    to the end of the text, or finds a token behind which the scan goes on. -/
theorem scanFrom_of_next {p : Place} {bs : Bytes} {rs : List Rune} (hbs : Rune.decode bs = rs) :
    match Token.next d p rs with
    | .error e => ∀ found, scanFrom d p found rs = .error e
    | .ok (t, place, behind) =>
      (t.kind = .endOfInput ∧ ∀ found, scanFrom d p found rs = .ok (found.reverse ++ [t])) ∨
      (t.kind ≠ .endOfInput ∧ (∃ more, behind = Rune.decode more ∧ more.length < bs.length) ∧
        ∀ found, scanFrom d p found rs = scanFrom d place (t :: found) behind) := by
  fun_induction Token.next d p rs generalizing bs with
  | case1 p =>
    refine .inl ⟨rfl, fun found => ?_⟩
    rw [scanFrom, List.reverse_cons]
  | case2 p r rs fault hread =>
    intro found
    rw [scanFrom, hread]
  | case3 p r rs taken hread ih =>
    obtain ⟨rest, rfl, hruns, hpiece⟩ := GapPiece.of_read hbs hread
    have hne : taken ≠ [] := by
      rintro rfl
      exact lt_irrefl _ hpiece.length_lt
    have hscan : ∀ found, scanFrom d p found (r :: rs) =
        scanFrom d (p.advance d taken) found (rs.drop (taken.length - 1)) := by
      intro found
      rw [scanFrom, hread]
    simp only [hscan]
    have hrest := ih (drop_of_taken hruns hne).symm
    split at hrest
    · exact hrest
    · refine hrest.imp_right ?_
      rintro ⟨hkind, ⟨more, hmore, hlt⟩, hfound⟩
      exact ⟨hkind, ⟨more, hmore, hlt.trans hpiece.length_lt⟩, hfound⟩
  | case4 p r rs l hread =>
    obtain ⟨rest, rfl, hruns, hword⟩ := IsWord.of_read hbs hread
    have hne : l.runes ≠ [] := by
      intro hnil
      have hlt := hword.length_lt
      rw [hnil] at hlt
      exact lt_irrefl _ hlt
    refine .inr ⟨hword.kind_ne_end, ⟨rest, drop_of_taken hruns hne, hword.length_lt⟩, ?_⟩
    intro found
    rw [scanFrom, hread]

end Token

namespace Scanner

/-! ## Calls and answers -/

/-- What a scanner can be asked: to go on to the next token, for the token it holds, and for the
    error that stopped it. -/
inductive Call where
  | next
  | token
  | error
  deriving DecidableEq, Repr

/-- What a scanner answers. -/
inductive Answer where
  | next (found : Bool)
  | token (t : Token)
  | error (e : Option SyntaxError)
  deriving DecidableEq, Repr

/-- The answer to a call, and the scanner behind it. -/
def answer (s : Scanner) : Call → Answer × Scanner
  | .next  => (.next s.next.1, s.next.2)
  | .token => (.token s.token, s)
  | .error => (.error s.error?, s)

/-- The answers to calls that are made one after the other. -/
def answers (s : Scanner) : List Call → List Answer
  | []      => []
  | c :: cs => (s.answer c).1 :: (s.answer c).2.answers cs

/-- The scanner once the next token has been asked for `n` times. -/
def after (s : Scanner) : Nat → Scanner
  | 0     => s
  | n + 1 => s.next.2.after n

/-- An answer depends only on how often the next token has been asked for before. -/
theorem getElem?_answers (s : Scanner) (calls : List Call) (i : Nat) :
    (s.answers calls)[i]? =
      calls[i]?.map fun c => ((s.after ((calls.take i).count .next)).answer c).1 := by
  induction calls generalizing s i with
  | nil => rfl
  | cons c cs ih =>
    cases i with
    | zero => rfl
    | succ i =>
      rw [answers, List.getElem?_cons_succ, ih, List.getElem?_cons_succ, List.take_succ_cons]
      cases c with
      | next => rw [List.count_cons_self]; rfl
      | token | error => rw [List.count_cons_of_ne (by decide)]; rfl

/-- The answer that is due once the next token has been asked for `n` times, of a scanner that holds
    the token `held`, has the tokens `ts` ahead and will then have the error `e`. -/
def Call.due (held : Token) (ts : List Token) (e : Option SyntaxError) (n : Nat) : Call → Answer
  | .next  => .next (decide (n < ts.length))
  | .token => .token ((ts.take n).getLast?.getD held)
  | .error => .error (if n ≤ ts.length then none else e)

/-- A scanner holds the token `held`, has the tokens `ts` ahead and then the error `e`: whatever
    calls are made, each gets the answer that is due. -/
def Keeps (s : Scanner) (held : Token) (ts : List Token) (e : Option SyntaxError) : Prop :=
  ∀ (calls : List Call) (i : Nat) (c : Call), calls[i]? = some c →
    (s.answers calls)[i]? = some (c.due held ts e ((calls.take i).count .next))

theorem keeps_of_after {s : Scanner} {held : Token} {ts : List Token} {e : Option SyntaxError}
    (h : ∀ n c, ((s.after n).answer c).1 = c.due held ts e n) : s.Keeps held ts e := by
  intro calls i c hc
  rw [getElem?_answers, hc, Option.map_some, h]

/-! ## What is ahead -/

/-- Behind the first token, the answers that are due are those for the tokens that are left. -/
theorem Call.due_cons (held t : Token) (ts : List Token) (e : Option SyntaxError) (n : Nat)
    (c : Call) : c.due held (t :: ts) e (n + 1) = c.due t ts e n := by
  cases c with
  | next => simp [due]
  | token => simp [due, List.getLast?_cons]
  | error => simp [due]

theorem next_of_stopped {s : Scanner} (h : s.state ≠ .reading) : s.next = (false, s) := by
  unfold next
  split
  · rfl
  · rfl
  · exact absurd ‹_› h

theorem after_of_stopped {s : Scanner} (h : s.state ≠ .reading) (n : Nat) : s.after n = s := by
  induction n with
  | zero => rfl
  | succ n ih => rw [after, next_of_stopped h, ih]

theorem error?_of_reading {s : Scanner} (h : s.state = .reading) : s.error? = none := by
  rw [error?, h]

section

variable {s s' : Scanner} {ts : List Token} {e : Option SyntaxError}

/-- A scanner that fails on the next token has no tokens ahead. -/
theorem after_of_failed (hs : s.state = .reading) {f : SyntaxError} (hnext : s.next = (false, s'))
    (hstate : s'.state = .failed f) (htoken : s'.token = s.token) (n : Nat) (c : Call) :
    ((s.after n).answer c).1 = c.due s.token [] (some f) n := by
  have hstopped : s'.state ≠ .reading := by simp [hstate]
  cases n with
  | zero => cases c <;> simp [after, answer, Call.due, hnext, error?_of_reading hs]
  | succ n =>
    rw [after, hnext, after_of_stopped hstopped]
    cases c <;> simp [answer, Call.due, next_of_stopped hstopped, htoken, error?, hstate]

/-- A scanner that has finished has no tokens ahead, and no error. -/
theorem after_of_finished (hs : s.state = .finished) (n : Nat) (c : Call) :
    ((s.after n).answer c).1 = c.due s.token [] none n := by
  have hstopped : s.state ≠ .reading := by simp [hs]
  rw [after_of_stopped hstopped]
  cases c <;> simp [answer, Call.due, next_of_stopped hstopped, error?, hs]

/-- A scanner that finds a token has it ahead, and then what is ahead behind it. -/
theorem after_of_token (hs : s.state = .reading) (hnext : s.next = (true, s'))
    (h : ∀ n c, ((s'.after n).answer c).1 = c.due s'.token ts e n) (n : Nat) (c : Call) :
    ((s.after n).answer c).1 = c.due s.token (s'.token :: ts) e n := by
  cases n with
  | zero => cases c <;> simp [after, answer, Call.due, hnext, error?_of_reading hs]
  | succ n => rw [after, hnext, Call.due_cons, h]

end

/-! ## Whole texts -/

/-- A scanner that is reading has the tokens ahead that the whole scan would find from there, and
    then the error, if any, that the scan would meet. -/
theorem exists_after {s : Scanner} {bs : Bytes} (hs : s.state = .reading)
    (hbs : Rune.decode bs = s.rest) :
    ∃ (ts : List Token) (e : Option SyntaxError),
      (∀ n c, ((s.after n).answer c).1 = c.due s.token ts e n) ∧
      (∀ found, Token.scanFrom s.dialect s.place found s.rest =
        e.elim (.ok (found.reverse ++ ts)) .error) ∧
      (e ≠ none → ∀ t ∈ ts, t.kind ≠ .endOfInput) := by
  induction hn : bs.length using Nat.strongRecOn generalizing s bs with
  | ind n ih =>
    have hscan := Token.scanFrom_of_next (d := s.dialect) (p := s.place) hbs
    cases hread : Token.next s.dialect s.place s.rest with
    | error f =>
      have hnext : s.next = (false, { s with state := .failed f }) := by simp [next, hs, hread]
      rw [hread] at hscan
      exact ⟨[], some f, after_of_failed hs hnext rfl rfl, hscan, fun _ => List.forall_mem_nil _⟩
    | ok found =>
      obtain ⟨t, place, behind⟩ := found
      rw [hread] at hscan
      rcases hscan with ⟨hkind, hscan⟩ | ⟨hkind, ⟨more, rfl, hlt⟩, hscan⟩
      · let s' : Scanner := { s with token := t, place, rest := behind, state := .finished }
        have hnext : s.next = (true, s') := by simp [next, hs, hread, hkind, s']
        exact ⟨[t], none, after_of_token hs hnext (after_of_finished rfl), hscan,
          fun h => absurd rfl h⟩
      · let s' : Scanner := { s with token := t, place, rest := Rune.decode more }
        have hs' : s'.state = .reading := hs
        have hnext : s.next = (true, s') := by simp [next, hs, hread, hkind, s']
        obtain ⟨ts, e, hafter, hts, hends⟩ := ih _ (hn ▸ hlt) hs' rfl rfl
        refine ⟨t :: ts, e, after_of_token hs hnext hafter, fun found => ?_, fun he => ?_⟩
        · rw [hscan, hts, List.reverse_cons, List.append_assoc]
          rfl
        · exact List.forall_mem_cons.mpr ⟨hkind, hends he⟩

/-- Whatever calls are made on a scanner, there are fixed tokens that it delivers one by one, and it
    holds the latest of them. If the whole scan succeeds, they are its tokens, of which only the
    last is the end of input, and there is never an error. If it fails, none of them is the end of
    input, and from the first failing request on the error is that of the whole scan. -/
theorem keeps_of_scan (d : Dialect) (text : Bytes) :
    match Token.scan d text with
    | .ok ts =>
      (∃ front last, ts = front ++ [last] ∧ (∀ t ∈ front, t.kind ≠ .endOfInput) ∧
        last.kind = .endOfInput) ∧
      (ofText d text).Keeps .blank ts none
    | .error e =>
      ∃ ts, (∀ t ∈ ts, t.kind ≠ .endOfInput) ∧ (ofText d text).Keeps .blank ts (some e) := by
  have hrest : Rune.decode text = (ofText d text).rest := rfl
  obtain ⟨ts, e, hafter, hscan, hends⟩ := exists_after rfl hrest
  have htext : Token.scan d text = e.elim (.ok ts) .error := hscan []
  cases e with
  | none =>
    obtain ⟨front, last, rfl⟩ := Token.exists_concat_of_scan htext
    rw [htext]
    exact ⟨⟨front, last, rfl, Token.kind_of_scan htext⟩, keeps_of_after hafter⟩
  | some f =>
    rw [htext]
    exact ⟨ts, hends (Option.some_ne_none f), keeps_of_after hafter⟩

end Scanner

end RelaxedJson
