-- SUMMARY: What a scanner delivers, also in front of an error: the words of the text, with strings that are read strictly.
import RelaxedJson.Proofs.Lexical.Faults
import RelaxedJson.Proofs.Lexical.Segments
import RelaxedJson.Proofs.Lexical.Stepping

/-!
# Delivery

A scanner that is asked for the next token goes on over gaps to the next word, to the end of the text
or to a fault (`Token.next_of_scanned`). So each token that it delivers is a word of the text, even if
the text turns out to be faulty further on (`Scanner.Reaches.after`), and a string among them has
proper escapes only: `Escape.unquote` reads it the way a strict decoder does
(`Scanner.string_read_strictly`).
-/

namespace RelaxedJson

variable {d : Dialect}

/-! ## The next token -/

namespace Token

theorem next_gapPiece {piece rest : Bytes} (h : GapPiece d piece rest) (before : Bytes) :
    next d (.behind d before) (Rune.decode (piece ++ rest)) =
      next d (.behind d (before ++ piece)) (Rune.decode rest) := by
  obtain ⟨r, rs, hpiece, hdecode, hread⟩ := h.read
  have hplace := Place.advance_behind d before h.startsAscii
  rw [hpiece] at hplace
  rw [hdecode, List.cons_append, next, hread]
  simp only [hplace, List.length_cons, Nat.add_sub_cancel, List.drop_left]

theorem next_word {w : Word} {rest : Bytes} (h : IsWord d w rest) (before : Bytes) :
    next d (.behind d before) (Rune.decode (w.text ++ rest)) =
      .ok (Layout.token d before w, .behind d (before ++ w.text), Rune.decode rest) := by
  obtain ⟨r, rs, htext, hdecode, hread⟩ := h.read
  have hplace := Place.advance_behind d before h.startsAscii
  rw [htext] at hplace
  rw [hdecode, List.cons_append, next, hread]
  simp only [hplace, toToken_word h before htext, List.length_cons, Nat.add_sub_cancel,
    List.drop_left]

theorem next_fault {front rest : Bytes} {reason : SyntaxReason} (h : Fault d front rest reason)
    (before : Bytes) :
    next d (.behind d before) (Rune.decode (front ++ rest)) =
      .error ⟨Layout.positionBehind d (before ++ front), reason⟩ := by
  obtain ⟨r, rs, hdecode, hread⟩ := h.read
  rw [hdecode, next, hread]
  simp only [LexicalFault.toError, Place.advance_behind d before h.startsAscii]
  rfl

/-- A token is a word of the text, at its place behind gaps and words, or the end of input. -/
def OccursIn (d : Dialect) (text : Bytes) (t : Token) : Prop :=
  ∃ (before : Bytes) (w : Word) (rest : Bytes), text = before ++ (w.text ++ rest) ∧
    Scanned d before (w.text ++ rest) ∧ t = Layout.token d before w ∧
    (IsWord d w rest ∨ w = { kind := .endOfInput, text := [] } ∧ rest = [])

/-- Behind gaps and words, asking for the next token fails with the error of the whole scan, comes to
    the end of the text, or finds a word, behind which there are gaps and words again. -/
theorem next_of_scanned {before rest : Bytes} (h : Scanned d before rest) :
    match next d (.behind d before) (Rune.decode rest) with
    | .error e => scan d (before ++ rest) = .error e
    | .ok (t, place, behind) => t.OccursIn d (before ++ rest) ∧
      (t.kind ≠ .endOfInput → ∃ before' rest', before ++ rest = before' ++ rest' ∧
        Scanned d before' rest' ∧ place = .behind d before' ∧ behind = Rune.decode rest') := by
  induction hn : rest.length using Nat.strongRecOn generalizing before rest with
  | ind n ih =>
    cases hruns : Rune.decode rest with
    | nil =>
      cases Rune.eq_nil_of_decode_eq_nil hruns
      rw [next]
      have hend : (atEnd (.behind d before)).OccursIn d (before ++ []) :=
        ⟨before, { kind := .endOfInput, text := [] }, [], rfl, h, atEnd_behind before,
          .inr ⟨rfl, rfl⟩⟩
      exact ⟨hend, fun hkind => absurd rfl hkind⟩
    | cons r rs =>
      rw [← hruns]
      cases hread : Piece.read d r rs with
      | error f =>
        obtain ⟨front, more, reason, rfl, hfault⟩ := Fault.of_read hruns hread
        rw [next_fault hfault]
        exact scan_of_fault h hfault
      | ok p =>
        cases p with
        | gap taken =>
          obtain ⟨rest, rfl, -, hpiece⟩ := GapPiece.of_read hruns hread
          rw [next_gapPiece hpiece, ← List.append_assoc]
          exact ih _ (hn ▸ hpiece.length_lt) (h.gap hpiece) rfl
        | lexeme l =>
          obtain ⟨rest, rfl, -, hword⟩ := IsWord.of_read hruns hread
          rw [next_word hword]
          refine ⟨⟨before, _, rest, rfl, h, rfl, .inl hword⟩, fun _ => ?_⟩
          exact ⟨_, rest, (List.append_assoc _ _ _).symm, h.word hword, rfl, rfl⟩

end Token

/-! ## Scanners -/

namespace Scanner

/-- How a scanner of a text stands, whatever has been asked of it: behind gaps and words while it
    goes on, with a token of the text, and stopped only by the error of the whole scan. -/
structure Reaches (d : Dialect) (text : Bytes) (s : Scanner) : Prop where
  dialect : s.dialect = d
  place : s.state = .reading → ∃ before rest, text = before ++ rest ∧ Scanned d before rest ∧
    s.place = .behind d before ∧ s.rest = Rune.decode rest
  token : s.token = .blank ∨ s.token.OccursIn d text
  error : ∀ e, s.state = .failed e → Token.scan d text = .error e

variable {text : Bytes} {s : Scanner}

theorem reaches_ofText (d : Dialect) (text : Bytes) : (ofText d text).Reaches d text where
  dialect := rfl
  place _ := ⟨[], text, rfl, .nil, (Place.behind_nil d).symm, rfl⟩
  token := .inl rfl
  error _ he := by cases he

/-- Asking for one more token. -/
theorem Reaches.next (h : s.Reaches d text) : s.next.2.Reaches d text := by
  by_cases hs : s.state = .reading
  · obtain rfl := h.dialect
    obtain ⟨before, rest, rfl, hscanned, hplace, hrest⟩ := h.place hs
    have hnext := Token.next_of_scanned hscanned
    rw [← hplace, ← hrest] at hnext
    cases hread : Token.next s.dialect s.place s.rest with
    | error e =>
      rw [hread] at hnext
      have hs' : s.next.2 = { s with state := .failed e } := by simp [Scanner.next, hs, hread]
      rw [hs']
      refine ⟨rfl, fun hreading => ?_, h.token, fun f hf => ?_⟩
      · cases hreading
      · cases hf
        exact hnext
    | ok found =>
      obtain ⟨t, place, behind⟩ := found
      rw [hread] at hnext
      obtain ⟨htoken, hmore⟩ := hnext
      let state : ScannerState := if t.kind = .endOfInput then .finished else .reading
      have hs' : s.next.2 = { s with token := t, place, rest := behind, state } := by
        simp [Scanner.next, hs, hread, state]
      rw [hs']
      refine ⟨rfl, fun hreading => hmore fun hkind => ?_, .inr htoken, fun f hf => ?_⟩
      · simp [state, hkind] at hreading
      · simp only [state] at hf
        split at hf <;> cases hf
  · rw [next_of_stopped hs]
    exact h

theorem Reaches.after (h : s.Reaches d text) (n : Nat) : (s.after n).Reaches d text := by
  induction n generalizing s with
  | zero => exact h
  | succ n ih => exact ih h.next

/-- The error that stopped a scanner is that of the whole scan. -/
theorem Reaches.scan_eq_error (h : s.Reaches d text) {e : SyntaxError} (he : s.error? = some e) :
    Token.scan d text = .error e := by
  unfold error? at he
  split at he
  case h_1 hstate =>
    cases he
    exact h.error e hstate
  case h_2 => cases he

/-- Whatever calls are made, each answer is that of a scanner which has been asked for some number
    of tokens. -/
theorem exists_after_of_mem {a : Answer} {calls : List Call} (h : a ∈ s.answers calls) :
    ∃ n c, a = ((s.after n).answer c).1 := by
  obtain ⟨i, hi⟩ := List.mem_iff_getElem?.mp h
  rw [getElem?_answers, Option.map_eq_some_iff] at hi
  obtain ⟨c, -, hc⟩ := hi
  exact ⟨_, c, hc.symm⟩

end Scanner

/-! ## Strict reading -/

namespace Segment

/-- What segments stand for, one behind the other, if all of them are proper: a backslash only in
    front of one of the nine letters, or of `u` and four hexadecimal digits. -/
def readStrictly? : List Segment → Option Bytes
  | s :: t :: more =>
    match s.pair? t with
    | some c => (readStrictly? more).map (c.utf8 ++ ·)
    | none   => do return (← s.meaning?) ++ (← readStrictly? (t :: more))
  | [s] => s.meaning?
  | []  => some []

theorem meaning?_eq_alone {s : Segment} (h : s.meaning?.isSome) : s.meaning? = some s.alone := by
  obtain ⟨bs, hbs⟩ := Option.isSome_iff_exists.mp h
  rw [alone, hbs, Option.getD_some]

/-- Proper segments are read strictly, and no differently. -/
theorem readStrictly?_of_proper {segments : List Segment}
    (h : ∀ s ∈ segments, s.meaning?.isSome) : readStrictly? segments = some (read segments) := by
  fun_induction read segments with
  | case1 s t more c hpair ih =>
    have hmore : ∀ x ∈ more, x.meaning?.isSome :=
      fun x hx => h x (List.mem_cons_of_mem _ (List.mem_cons_of_mem _ hx))
    rw [readStrictly?, hpair, ih hmore]
    rfl
  | case2 s t more hpair ih =>
    obtain ⟨hs, hmore⟩ := List.forall_mem_cons.mp h
    rw [readStrictly?, hpair, ih hmore, meaning?_eq_alone hs]
    rfl
  | case3 s => exact meaning?_eq_alone (h s (List.mem_singleton_self s))
  | case4 => rfl

end Segment

namespace Division

/-- What a division stands for, if it is complete and all its segments are proper. -/
def readStrictly? (D : Division) : Option Bytes :=
  if D.ending = .complete then Segment.readStrictly? D.segments else none

theorem Proper.readStrictly?_eq {D : Division} (h : D.Proper) :
    D.readStrictly? = some (Segment.read D.segments) := by
  rw [readStrictly?, if_pos h.complete, Segment.readStrictly?_of_proper h.meanings]

end Division

/-! ## Strings -/

theorem Scanned.isUtf8_rest {before rest : Bytes} (h : Scanned d before rest)
    (htext : Bytes.isUtf8 (before ++ rest)) : rest.isUtf8 := by
  induction h with
  | nil => exact htext
  | gap _ hpiece ih =>
    rw [List.append_assoc] at htext
    exact hpiece.isUtf8_rest (ih htext)
  | word _ hword ih =>
    rw [List.append_assoc] at htext
    exact (hword.isUtf8 (ih htext)).2

theorem IsWord.exists_of_string {w : Word} {rest : Bytes} (h : IsWord d w rest)
    (hkind : w.kind = .string) :
    ∃ (mark : QuoteMark) (body : Bytes), StringBody d mark body ∧
      w.text = mark.char.ascii :: (body ++ [mark.char.ascii]) ∧
      w.literal = (Escape.unescape body).toOption.map .string := by
  cases h with
  | punctuation hword =>
    exact absurd hkind (ne_of_mem_of_not_mem (Piece.kind_of_punctuation? hword) (by decide))
  | keyword hword _ =>
    exact absurd hkind (ne_of_mem_of_not_mem (Piece.kind_of_keyword? hword) (by decide))
  | number _ _ | identifier _ _ _ => cases hkind
  | string _ hbody => exact ⟨_, _, hbody, rfl, rfl⟩

/-- A string is read strictly, and is well-formed and stands for a well-formed text if the text it is
    part of is well-formed. -/
theorem Token.OccursIn.string {text : Bytes} {t : Token} (h : t.OccursIn d text)
    (hkind : t.kind = .string) :
    ∃ (mark : QuoteMark) (body s : Bytes),
      t.lexeme = mark.char.ascii :: (body ++ [mark.char.ascii]) ∧
      Escape.unquote t.lexeme = .ok s ∧ t.literal = some (.string s) ∧
      (Division.ofBytes body).readStrictly? = some s ∧
      (text.isUtf8 → t.lexeme.isUtf8 ∧ s.isUtf8) := by
  obtain ⟨before, w, rest, rfl, hscanned, rfl, hw | ⟨rfl, -⟩⟩ := h
  · obtain ⟨mark, body, hbody, htext, hliteral⟩ := hw.exists_of_string hkind
    obtain ⟨s, hs, hutf8⟩ := Escape.unescape_of_body hbody
    have hproper := hbody.divides.1
    have hread : Segment.read (Division.ofBytes body).segments = s := by
      have hunescape := Escape.unescape_eq_read body
      rw [hs, Division.read, hproper.complete] at hunescape
      exact (Except.ok.inj hunescape).symm
    refine ⟨mark, body, s, htext, ?_, ?_, ?_, fun h => ?_⟩
    · rw [Layout.token, htext, Escape.unquote_marks, hs]
    · rw [Layout.token, hliteral, hs]
      rfl
    · rw [hproper.readStrictly?_eq, hread]
    · have hlexeme : w.text.isUtf8 := (hw.isUtf8 (hscanned.isUtf8_rest h)).1
      exact ⟨hlexeme, hutf8 (Escape.isUtf8_of_marks (htext ▸ hlexeme))⟩
  · cases hkind

namespace Scanner

/-- The strings that a scanner delivers, whatever comes behind them, have proper escapes only: reading
    the lexeme gives the literal, and so does reading it strictly. What comes of a well-formed text
    is well-formed. No string has the right form and cannot be read. -/
theorem string_read_strictly (d : Dialect) (text : Bytes) (calls : List Call) :
    (∀ t, .token t ∈ (ofText d text).answers calls → t.kind = .string →
      ∃ (mark : QuoteMark) (body s : Bytes),
        t.lexeme = mark.char.ascii :: (body ++ [mark.char.ascii]) ∧
        Escape.unquote t.lexeme = .ok s ∧ t.literal = some (.string s) ∧
        (Division.ofBytes body).readStrictly? = some s ∧
        (text.isUtf8 → t.lexeme.isUtf8 ∧ s.isUtf8)) ∧
    ∀ e, .error (some e) ∈ (ofText d text).answers calls →
      ∀ cause, e.reason ≠ .unreadableString cause := by
  constructor
  · intro t ht hkind
    obtain ⟨n, c, hanswer⟩ := exists_after_of_mem ht
    obtain rfl : t = ((ofText d text).after n).token := by
      cases c <;> cases hanswer
      rfl
    rcases ((reaches_ofText d text).after n).token with hblank | htoken
    · rw [hblank] at hkind
      cases hkind
    · exact htoken.string hkind
  · intro e he cause
    obtain ⟨n, c, hanswer⟩ := exists_after_of_mem he
    have herror : ((ofText d text).after n).error? = some e := by
      cases c with
      | next | token => cases hanswer
      | error => exact (Answer.error.inj hanswer).symm
    have hscan := ((reaches_ofText d text).after n).scan_eq_error herror
    obtain ⟨_, _, _, _, _, hfault, _⟩ := Token.scan_eq_error_iff_fault.mp hscan
    intro hreason
    rw [hreason] at hfault
    cases hfault

/-- A string with a pair of surrogates and an escaped apostrophe, in front of a fault. -/
def faultySample : Bytes :=
  "[\"\\ud83d\\uDE00\\'\"@".utf8

theorem string_read_strictly_faulty :
    ∃ t s, .token t ∈ (ofText .permissive faultySample).answers [.next, .next, .token, .next] ∧
      t.kind = .string ∧ Escape.unquote t.lexeme = .ok s ∧ t.literal = some (.string s) ∧
      t.lexeme.isUtf8 ∧ s.isUtf8 := by
  let t : Token :=
    { kind := .string, lexeme := "\"\\ud83d\\uDE00\\'\"".utf8, location := ⟨⟨1, 17⟩, ⟨1, 2⟩⟩,
      literal := some (.string "😀'".utf8) }
  have hanswer : ((ofText .permissive faultySample).answers [.next, .next, .token, .next])[2]? =
      some (.token t) := by
    cbv
  have ht := List.mem_of_getElem? hanswer
  have hutf8 : faultySample.isUtf8 :=
    Bytes.isUtf8_iff.mpr ⟨"[\"\\ud83d\\uDE00\\'\"@".toList, by decide⟩
  obtain ⟨-, -, s, -, hs, hliteral, -, hclean⟩ :=
    (string_read_strictly .permissive faultySample _).1 t ht rfl
  exact ⟨t, s, ht, rfl, hs, hliteral, hclean hutf8⟩

end Scanner

end RelaxedJson
