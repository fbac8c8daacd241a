-- SUMMARY: The JSON text of a value is laid out as words without gaps that derive the value again.
import RelaxedJson.Proofs.Grammar.Tree
import RelaxedJson.Proofs.Lexical.Scanning
import RelaxedJson.Proofs.Number.Notation
import RelaxedJson.Value.Json

/-!
# Writing values

A value is written in front of a text. If that text is laid out as words, so is the whole, and the
words in front are the tokens of a derivation of the sanitised value (`Extends.value`). The text
behind a value starts with a comma or a closing bracket, so numbers and names end where they should.
-/

namespace RelaxedJson

/-! ## What follows a value -/

/-- The text is empty or starts with a comma or a closing bracket. -/
def Bytes.Delimited (bs : Bytes) : Prop :=
  ∀ b ∈ bs.head?, b ∈ [','.ascii, ']'.ascii, '}'.ascii]

namespace Bytes.Delimited

theorem nil : Bytes.Delimited [] := nofun

theorem cons {b : UInt8} (hb : b ∈ [','.ascii, ']'.ascii, '}'.ascii]) (bs : Bytes) :
    Bytes.Delimited (b :: bs) := by
  intro b' hb'
  cases hb'
  exact hb

theorem not_startsWith {bs : Bytes} (h : bs.Delimited) {p : Char → Bool}
    (hp : p ',' = false ∧ p ']' = false ∧ p '}' = false) : ¬ bs.StartsWith p := by
  rintro ⟨c, rest, hc, hpc, rfl⟩
  have hmem := h c.ascii rfl
  simp only [List.mem_cons, List.not_mem_nil, or_false] at hmem
  rw [ascii_inj hc (by decide), ascii_inj hc (by decide), ascii_inj hc (by decide)] at hmem
  rcases hmem with rfl | rfl | rfl
  · rw [hp.1] at hpc
    cases hpc
  · rw [hp.2.1] at hpc
    cases hpc
  · rw [hp.2.2] at hpc
    cases hpc

theorem endsBefore {bs : Bytes} (h : bs.Delimited) (n : Numeral) : n.EndsBefore bs := by
  refine ⟨h.not_startsWith (by decide), fun _ => h.not_startsWith (by decide), ?_⟩
  rintro - - more rfl
  exact absurd (h _ rfl) (by decide)

end Bytes.Delimited

/-! ## Words in front of words -/

/-- The text is words in front of the words `ws`, and the tokens of these words, wherever they
    stand, satisfy `p`. -/
def Extends (d : Dialect) (ws : List (Word × Bytes)) (text : Bytes) (p : List Token → Prop) : Prop :=
  ∃ all, Word.spell all = text ∧ Layout.WordsFit d all ∧
    ∀ before, ∃ ts before', p ts ∧
      Layout.tokensFrom d before all = ts ++ Layout.tokensFrom d before' ws

namespace Extends

variable {d : Dialect} {ws : List (Word × Bytes)} {text : Bytes} {p q : List Token → Prop}

theorem nil (hws : Layout.WordsFit d ws) (hp : p []) : Extends d ws (Word.spell ws) p :=
  ⟨ws, rfl, hws, fun before => ⟨[], before, hp, rfl⟩⟩

theorem imp (h : Extends d ws text p) (hpq : ∀ ts, p ts → q ts) : Extends d ws text q := by
  obtain ⟨all, hspell, hall, htokens⟩ := h
  refine ⟨all, hspell, hall, fun before => ?_⟩
  obtain ⟨ts, before', hp, hts⟩ := htokens before
  exact ⟨ts, before', hpq ts hp, hts⟩

theorem word {w : Word} (h : Extends d ws text p) (hw : IsWord d w text) :
    Extends d ws (w.text ++ text) fun ts =>
      ∃ t ts', (t.kind = w.kind ∧ t.literal = w.literal) ∧ p ts' ∧ ts = t :: ts' := by
  obtain ⟨all, rfl, hall, htokens⟩ := h
  refine ⟨(w, []) :: all, rfl, ⟨hw, .nil, hall⟩, fun before => ?_⟩
  obtain ⟨ts, before', hp, hts⟩ := htokens (before ++ (w.text ++ []))
  refine ⟨Layout.token d before w :: ts, before', ⟨_, ts, ⟨rfl, rfl⟩, hp, rfl⟩, ?_⟩
  rw [Layout.tokensFrom, hts]
  rfl

theorem punctuation {c : Char} {kind : Kind} (h : Extends d ws text p)
    (hkind : Lexeme.punctuation? c = some kind) :
    Extends d ws (c.ascii :: text) fun ts => ∃ (t : Terminal kind) (ts' : List Token),
      p ts' ∧ ts = t.val :: ts' := by
  refine (h.word (.punctuation hkind)).imp ?_
  rintro - ⟨t, ts, ⟨ht, -⟩, hp, rfl⟩
  exact ⟨⟨t, ht⟩, ts, hp, rfl⟩

theorem quoted (h : Extends d ws text p) (s : Bytes) :
    Extends d ws (Escape.quote .double s ++ text) fun ts => ∃ t ts',
      (t.kind = .string ∧ t.literal = some (.string s.sanitise)) ∧ p ts' ∧ ts = t :: ts' := by
  have hmark : QuoteMark.double = .single → d.singleQuotes := nofun
  have hword : IsWord d _ text := .string hmark (StringBody.quoteChars hmark s.chars)
  refine (h.word hword).imp ?_
  rintro - ⟨t, ts, ⟨hkind, hliteral⟩, hp, rfl⟩
  rw [Escape.unescape_quoteChars] at hliteral
  exact ⟨t, ts, ⟨hkind, hliteral⟩, hp, rfl⟩

end Extends

/-! ## Values -/

theorem Value.delimited_elementsOnto (vs : List Value) {rest : Bytes} (h : rest.Delimited) :
    (elementsOnto [','.ascii] vs rest).Delimited := by
  cases vs with
  | nil => simpa only [elementsOnto] using h
  | cons v vs =>
    rw [elementsOnto]
    exact .cons (by simp) _

theorem Value.delimited_membersOnto (ms : List (Bytes × Value)) {rest : Bytes}
    (h : rest.Delimited) : (membersOnto [','.ascii] ms rest).Delimited := by
  cases ms with
  | nil => simpa only [membersOnto] using h
  | cons m ms =>
    rw [membersOnto]
    exact .cons (by simp) _

/-- Some tokens satisfy `p`, and in front of them is a derivation of the value. -/
def Tree.InFront (v : Value) (p : List Token → Prop) (ts : List Token) : Prop :=
  ∃ (T : Tree) (ts' : List Token), (T.value = v ∧ T.hasTrailingComma = false) ∧ p ts' ∧
    ts = T.tokens ++ ts'

def ElementsTail.InFront (vs : List Value) (p : List Token → Prop) (ts : List Token) : Prop :=
  ∃ (E : ElementsTail) (ts' : List Token), (E.values = vs ∧ E.hasTrailingComma = false) ∧ p ts' ∧
    ts = E.tokens ++ ts'

def MembersTail.InFront (ms : List (Bytes × Value)) (p : List Token → Prop) (ts : List Token) :
    Prop :=
  ∃ (M : MembersTail) (ts' : List Token), (M.members = ms ∧ M.hasTrailingComma = false) ∧ p ts' ∧
    ts = M.tokens ++ ts'

theorem Tree.InFront.scalar {v : Value} {p : List Token → Prop} {t : Token} {ts : List Token}
    (ht : t.value? = some v) (hp : p ts) : Tree.InFront v p (t :: ts) :=
  ⟨.scalar ⟨t, v, ht⟩, ts, ⟨rfl, rfl⟩, hp, rfl⟩

/-- The key that a string token is. -/
def Key.ofString {s : Bytes} (t : Token) (ht : t.kind = .string ∧ t.literal = some (.string s)) :
    Key where
  token := t
  text := s
  spells := by simp [Token.key?, ht]

namespace Extends

variable {d : Dialect} {ws : List (Word × Bytes)} {text : Bytes} {p : List Token → Prop}

theorem keyword {kind : Kind} {v : Value} (h : Extends d ws text p) (hend : text.Delimited)
    (name : Name) (hkind : Lexeme.keyword? name.chars = some kind)
    (hv : ∀ t : Token, t.kind = kind → t.value? = some v) :
    Extends d ws (Bytes.ofAscii name.chars ++ text) (Tree.InFront v p) := by
  refine (h.word (.keyword hkind (hend.not_startsWith (by decide)))).imp ?_
  rintro - ⟨t, ts, ⟨ht, -⟩, hp, rfl⟩
  exact .scalar (hv t ht) hp

theorem number {x : Binary64} (h : Extends d ws text p) (hend : text.Delimited)
    (hx : x.isFinite) :
    Extends d ws (Bytes.ofAscii x.jsonText ++ text) (Tree.InFront (.number x) p) := by
  obtain ⟨n, htext, hvalue⟩ := Binary64.jsonText_spec hx
  have hword : IsWord d _ text := .number (by rw [hvalue]; nofun) (hend.endsBefore n)
  rw [htext]
  refine (h.word hword).imp ?_
  rintro - ⟨t, ts, ⟨hkind, hliteral⟩, hp, rfl⟩
  rw [hvalue] at hliteral
  exact .scalar (by simp [Token.value?, hkind, hliteral, Except.toOption]) hp

mutual

/-- Writing a value puts the tokens of a derivation of it in front. -/
theorem value (v : Value) (hv : v.All Value.FiniteNumber) {text : Bytes} {p : List Token → Prop}
    (h : Extends d ws text p) (hend : text.Delimited) :
    Extends d ws (v.jsonOnto text) (Tree.InFront v.sanitise p) := by
  match v with
  | .null =>
    rw [Value.jsonOnto]
    exact h.keyword hend ⟨'n', ['u', 'l', 'l'], rfl, List.all_eq_true.mp (by decide)⟩ rfl
      fun t ht => by simp [Token.value?, ht, Value.sanitise, Value.mapTexts]
  | .bool true =>
    rw [Value.jsonOnto]
    exact h.keyword hend ⟨'t', ['r', 'u', 'e'], rfl, List.all_eq_true.mp (by decide)⟩ rfl
      fun t ht => by simp [Token.value?, ht, Value.sanitise, Value.mapTexts]
  | .bool false =>
    rw [Value.jsonOnto]
    exact h.keyword hend ⟨'f', ['a', 'l', 's', 'e'], rfl, List.all_eq_true.mp (by decide)⟩ rfl
      fun t ht => by simp [Token.value?, ht, Value.sanitise, Value.mapTexts]
  | .number x =>
    rw [Value.jsonOnto]
    exact h.number hend hv
  | .string s =>
    rw [Value.jsonOnto]
    refine (h.quoted s).imp ?_
    rintro - ⟨t, ts, ⟨hkind, hliteral⟩, hp, rfl⟩
    exact .scalar (by simp [Token.value?, hkind, hliteral, Value.sanitise, Value.mapTexts]) hp
  | .array [] =>
    rw [Value.jsonOnto, Value.elementsOnto]
    refine ((h.punctuation (c := ']') rfl).punctuation (c := '[') rfl).imp ?_
    rintro - ⟨l, -, ⟨r, ts, hp, rfl⟩, rfl⟩
    exact ⟨.emptyArray l r, ts, ⟨rfl, rfl⟩, hp, rfl⟩
  | .array (v :: vs) =>
    rw [Value.jsonOnto, Value.elementsOnto]
    have hclose : Bytes.Delimited (']'.ascii :: text) := .cons (by simp) _
    have htail := elements vs hv.2.2 (h.punctuation (c := ']') rfl) hclose
    have hfirst := value v hv.2.1 htail (Value.delimited_elementsOnto vs hclose)
    refine (hfirst.punctuation (c := '[') rfl).imp ?_
    rintro - ⟨l, -, ⟨T, -, hT, ⟨E, -, hE, ⟨r, ts, hp, rfl⟩, rfl⟩, rfl⟩, rfl⟩
    refine ⟨.array l T E r, ts, ⟨?_, ?_⟩, hp, ?_⟩
    · simp [Tree.value, hT.1, hE.1, Value.sanitise, Value.mapTexts, Value.mapElements]
    · simp [Tree.hasTrailingComma, hT.2, hE.2]
    · simp [Tree.tokens]
  | .object [] =>
    rw [Value.jsonOnto, Value.membersOnto]
    refine ((h.punctuation (c := '}') rfl).punctuation (c := '{') rfl).imp ?_
    rintro - ⟨l, -, ⟨r, ts, hp, rfl⟩, rfl⟩
    exact ⟨.emptyObject l r, ts, ⟨rfl, rfl⟩, hp, rfl⟩
  | .object ((k, v) :: ms) =>
    rw [Value.jsonOnto, Value.membersOnto]
    have hclose : Bytes.Delimited ('}'.ascii :: text) := .cons (by simp) _
    have htail := members ms hv.2.2 (h.punctuation (c := '}') rfl) hclose
    have hfirst := value v hv.2.1 htail (Value.delimited_membersOnto ms hclose)
    have hmember := (hfirst.punctuation (c := ':') rfl).quoted k
    refine (hmember.punctuation (c := '{') rfl).imp ?_
    rintro - ⟨l, -, ⟨t, -, ht, ⟨colon, -, ⟨T, -, hT, ⟨M, -, hM, ⟨r, ts, hp, rfl⟩, rfl⟩, rfl⟩, rfl⟩,
      rfl⟩, rfl⟩
    refine ⟨.object l (.ofString t ht) colon T M r, ts, ⟨?_, ?_⟩, hp, ?_⟩
    · simp [Tree.value, Key.ofString, hT.1, hM.1, Value.sanitise, Value.mapTexts, Value.mapMembers]
    · simp [Tree.hasTrailingComma, hT.2, hM.2]
    · simp [Tree.tokens, Key.ofString]

theorem elements (vs : List Value) (hvs : Value.AllElements Value.FiniteNumber vs) {text : Bytes}
    {p : List Token → Prop} (h : Extends d ws text p) (hend : text.Delimited) :
    Extends d ws (Value.elementsOnto [','.ascii] vs text)
      (ElementsTail.InFront (Value.mapElements Bytes.sanitise vs) p) := by
  match vs with
  | [] =>
    rw [Value.elementsOnto]
    exact h.imp fun ts hp => ⟨.done, ts, ⟨rfl, rfl⟩, hp, rfl⟩
  | v :: vs =>
    rw [Value.elementsOnto]
    have htail := elements vs hvs.2 h hend
    have hfirst := value v hvs.1 htail (Value.delimited_elementsOnto vs hend)
    refine (hfirst.punctuation (c := ',') rfl).imp ?_
    rintro - ⟨comma, -, ⟨T, -, hT, ⟨E, ts, hE, hp, rfl⟩, rfl⟩, rfl⟩
    refine ⟨.next comma T E, ts, ⟨?_, ?_⟩, hp, ?_⟩
    · simp [ElementsTail.values, hT.1, hE.1, Value.sanitise, Value.mapElements]
    · simp [ElementsTail.hasTrailingComma, hT.2, hE.2]
    · simp [ElementsTail.tokens]

theorem members (ms : List (Bytes × Value)) (hms : Value.AllMembers Value.FiniteNumber ms)
    {text : Bytes} {p : List Token → Prop} (h : Extends d ws text p) (hend : text.Delimited) :
    Extends d ws (Value.membersOnto [','.ascii] ms text)
      (MembersTail.InFront (Value.mapMembers Bytes.sanitise ms) p) := by
  match ms with
  | [] =>
    rw [Value.membersOnto]
    exact h.imp fun ts hp => ⟨.done, ts, ⟨rfl, rfl⟩, hp, rfl⟩
  | (k, v) :: ms =>
    rw [Value.membersOnto]
    have htail := members ms hms.2 h hend
    have hfirst := value v hms.1 htail (Value.delimited_membersOnto ms hend)
    have hmember := (hfirst.punctuation (c := ':') rfl).quoted k
    refine (hmember.punctuation (c := ',') rfl).imp ?_
    rintro - ⟨comma, -, ⟨t, -, ht, ⟨colon, -, ⟨T, -, hT, ⟨M, ts, hM, hp, rfl⟩, rfl⟩, rfl⟩, rfl⟩, rfl⟩
    refine ⟨.next comma (.ofString t ht) colon T M, ts, ⟨?_, ?_⟩, hp, ?_⟩
    · simp [MembersTail.members, Key.ofString, hT.1, hM.1, Value.sanitise, Value.mapMembers]
    · simp [MembersTail.hasTrailingComma, hT.2, hM.2]
    · simp [MembersTail.tokens, Key.ofString]

end

end Extends

end RelaxedJson
