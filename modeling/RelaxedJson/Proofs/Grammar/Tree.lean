-- SUMMARY: Derivation trees of the value grammar, and that the tokens of a tree determine it.
import RelaxedJson.Event.Control
import RelaxedJson.Proofs.Value.Shape

/-!
# Derivation trees

    value  := object | array | scalar
    object := '{' [ member (',' member)* [','] ] '}'
    array  := '[' [ value (',' value)* [','] ] ']'
    member := key ':' value

A tree is a derivation in this grammar: it has a constructor for each form of a value and keeps all
tokens, and only tokens of the right kinds fit into it. Which trees a dialect accepts is a matter of
three conditions on top (`Tree.Accepted`). The grammar is unambiguous, and no value is the beginning
of another (`Tree.tokens_append_inj`).
-/

namespace RelaxedJson

/-! ## Terminals -/

/-- The value that a token is by itself. -/
def Token.value? (t : Token) : Option Value :=
  match t.kind, t.literal with
  | .null,   _                => some .null
  | .true,   _                => some (.bool true)
  | .false,  _                => some (.bool false)
  | .string, some (.string s) => some (.string s)
  | .number, some (.number x) => some (.number x)
  | _,       _                => none

/-- A token of the given kind. -/
abbrev Terminal (kind : Kind) : Type := { t : Token // t.kind = kind }

/-- A token that is a value by itself, with the value. -/
structure Scalar where
  token : Token
  value : Value
  denotes : token.value? = some value

/-- A token that is a key, with its text. -/
structure Key where
  token : Token
  text : Bytes
  spells : token.key? = some text

/-! ## Trees -/

mutual

/-- A derivation of a value. -/
inductive Tree where
  | scalar (s : Scalar)
  | emptyArray (l : Terminal .leftBracket) (r : Terminal .rightBracket)
  | array (l : Terminal .leftBracket) (first : Tree) (rest : ElementsTail)
      (r : Terminal .rightBracket)
  | emptyObject (l : Terminal .leftBrace) (r : Terminal .rightBrace)
  | object (l : Terminal .leftBrace) (key : Key) (colon : Terminal .colon) (first : Tree)
      (rest : MembersTail) (r : Terminal .rightBrace)

/-- A derivation of `(',' value)* [',']`. -/
inductive ElementsTail where
  | done
  | trailing (comma : Terminal .comma)
  | next (comma : Terminal .comma) (element : Tree) (rest : ElementsTail)

/-- A derivation of `(',' member)* [',']`. -/
inductive MembersTail where
  | done
  | trailing (comma : Terminal .comma)
  | next (comma : Terminal .comma) (key : Key) (colon : Terminal .colon) (value : Tree)
      (rest : MembersTail)

end

mutual

/-- The tokens of a tree from left to right. -/
def Tree.tokens : Tree → List Token
  | .scalar s                      => [s.token]
  | .emptyArray l r                => [l, r]
  | .array l first rest r          => l :: (first.tokens ++ (rest.tokens ++ [r.val]))
  | .emptyObject l r               => [l, r]
  | .object l key colon first rest r =>
    l :: key.token :: colon :: (first.tokens ++ (rest.tokens ++ [r.val]))

def ElementsTail.tokens : ElementsTail → List Token
  | .done                    => []
  | .trailing comma          => [comma]
  | .next comma element rest => comma :: (element.tokens ++ rest.tokens)

def MembersTail.tokens : MembersTail → List Token
  | .done                            => []
  | .trailing comma                  => [comma]
  | .next comma key colon value rest =>
    comma :: key.token :: colon :: (value.tokens ++ rest.tokens)

end

mutual

/-- The value that a tree derives. -/
def Tree.value : Tree → Value
  | .scalar s                      => s.value
  | .emptyArray _ _                => .array []
  | .array _ first rest _          => .array (first.value :: rest.values)
  | .emptyObject _ _               => .object []
  | .object _ key _ first rest _   => .object ((key.text, first.value) :: rest.members)

def ElementsTail.values : ElementsTail → List Value
  | .done                => []
  | .trailing _          => []
  | .next _ element rest => element.value :: rest.values

def MembersTail.members : MembersTail → List (Bytes × Value)
  | .done                    => []
  | .trailing _              => []
  | .next _ key _ value rest => (key.text, value.value) :: rest.members

end

mutual

/-- Whether a comma stands before a closing bracket somewhere in a tree. -/
def Tree.hasTrailingComma : Tree → Bool
  | .array _ first rest _      => first.hasTrailingComma || rest.hasTrailingComma
  | .object _ _ _ first rest _ => first.hasTrailingComma || rest.hasTrailingComma
  | _                          => false

def ElementsTail.hasTrailingComma : ElementsTail → Bool
  | .done                => false
  | .trailing _          => true
  | .next _ element rest => element.hasTrailingComma || rest.hasTrailingComma

def MembersTail.hasTrailingComma : MembersTail → Bool
  | .done                  => false
  | .trailing _            => true
  | .next _ _ _ value rest => value.hasTrailingComma || rest.hasTrailingComma

end

/-- What a dialect demands of a derivation besides the grammar. -/
structure Tree.Accepted (d : Dialect) (T : Tree) : Prop where
  trailing : T.hasTrailingComma → d.trailingCommas
  keys : T.value.DistinctKeys
  depth : T.value.depth ≤ d.depthLimit

/-! ## Unambiguity -/

theorem Scalar.ext_token {s s' : Scalar} (h : s.token = s'.token) : s = s' := by
  obtain ⟨t, v, hv⟩ := s
  obtain ⟨t', v', hv'⟩ := s'
  cases h
  rw [hv] at hv'
  cases hv'
  rfl

theorem Key.ext_token {k k' : Key} (h : k.token = k'.token) : k = k' := by
  obtain ⟨t, s, hs⟩ := k
  obtain ⟨t', s', hs'⟩ := k'
  cases h
  rw [hs] at hs'
  cases hs'
  rfl

theorem Terminal.val_ne {k k' : Kind} (hk : k ≠ k') (t : Terminal k) (t' : Terminal k') :
    t.val ≠ t'.val := by
  intro h
  apply hk
  rw [← t.2, ← t'.2, h]

theorem Scalar.token_ne {k : Kind} (s : Scalar) (t : Terminal k)
    (hk : ∀ l, Token.value? { kind := k, literal := l } = none) : s.token ≠ t.val := by
  intro h
  have hs := s.denotes
  have hnone := hk s.token.literal
  simp only [Token.value?, h, t.2] at hs hnone
  rw [hnone] at hs
  cases hs

theorem Key.token_ne {k : Kind} (key : Key) (t : Terminal k)
    (hk : k ≠ .identifier) (hk' : k ≠ .string) : key.token ≠ t.val := by
  intro h
  have hkey := key.spells
  unfold Token.key? at hkey
  rw [h, t.2] at hkey
  split at hkey
  · exact hk rfl
  · exact hk' rfl
  · cases hkey

theorem Tree.tokens_ne_cons (T : Tree) {k : Kind} (t : Terminal k) (ts ts' : List Token)
    (hk : k = .rightBracket ∨ k = .rightBrace) : T.tokens ++ ts ≠ t.val :: ts' := by
  have hscalar : ∀ l, Token.value? { kind := k, literal := l } = none := by
    intro l
    rcases hk with rfl | rfl <;> rfl
  intro h
  cases T with
  | scalar s => exact s.token_ne t hscalar (List.cons.inj h).1
  | emptyArray l r =>
    exact Terminal.val_ne (by rcases hk with rfl | rfl <;> decide) l t (List.cons.inj h).1
  | array l first rest r =>
    exact Terminal.val_ne (by rcases hk with rfl | rfl <;> decide) l t (List.cons.inj h).1
  | emptyObject l r =>
    exact Terminal.val_ne (by rcases hk with rfl | rfl <;> decide) l t (List.cons.inj h).1
  | object l key colon first rest r =>
    exact Terminal.val_ne (by rcases hk with rfl | rfl <;> decide) l t (List.cons.inj h).1

theorem Tree.tokens_ne_nil (T : Tree) : T.tokens ≠ [] := by
  cases T <;> simp [Tree.tokens]

theorem Scalar.kind_ne {k : Kind} (s : Scalar)
    (hk : ∀ l, Token.value? { kind := k, literal := l } = none) : s.token.kind ≠ k :=
  fun hkind => s.token_ne ⟨s.token, hkind⟩ hk rfl

theorem Key.kind_ne {k : Kind} (key : Key) (hk : k ≠ .identifier) (hk' : k ≠ .string) :
    key.token.kind ≠ k :=
  fun hkind => key.token_ne ⟨key.token, hkind⟩ hk hk' rfl

theorem Terminal.kind_ne_end {k : Kind} (hk : k ≠ .endOfInput) (t : Terminal k) :
    t.val.kind ≠ .endOfInput := by
  rw [t.2]
  exact hk

mutual

/-- The end of input is no part of a derivation. -/
theorem Tree.kind_ne_end (T : Tree) : ∀ t ∈ T.tokens, t.kind ≠ .endOfInput := by
  intro t ht
  cases T with
  | scalar s =>
    cases List.mem_singleton.mp ht
    exact s.kind_ne fun _ => rfl
  | emptyArray l r =>
    simp only [Tree.tokens, List.mem_cons, List.not_mem_nil, or_false] at ht
    rcases ht with rfl | rfl
    · exact l.kind_ne_end (by decide)
    · exact r.kind_ne_end (by decide)
  | array l first rest r =>
    simp only [Tree.tokens, List.mem_cons, List.mem_append, List.not_mem_nil, or_false] at ht
    rcases ht with rfl | ht | ht | rfl
    · exact l.kind_ne_end (by decide)
    · exact Tree.kind_ne_end first t ht
    · exact ElementsTail.kind_ne_end rest t ht
    · exact r.kind_ne_end (by decide)
  | emptyObject l r =>
    simp only [Tree.tokens, List.mem_cons, List.not_mem_nil, or_false] at ht
    rcases ht with rfl | rfl
    · exact l.kind_ne_end (by decide)
    · exact r.kind_ne_end (by decide)
  | object l key colon first rest r =>
    simp only [Tree.tokens, List.mem_cons, List.mem_append, List.not_mem_nil, or_false] at ht
    rcases ht with rfl | rfl | rfl | ht | ht | rfl
    · exact l.kind_ne_end (by decide)
    · exact key.kind_ne (by decide) (by decide)
    · exact colon.kind_ne_end (by decide)
    · exact Tree.kind_ne_end first t ht
    · exact MembersTail.kind_ne_end rest t ht
    · exact r.kind_ne_end (by decide)

theorem ElementsTail.kind_ne_end (E : ElementsTail) : ∀ t ∈ E.tokens, t.kind ≠ .endOfInput := by
  intro t ht
  cases E with
  | done => cases ht
  | trailing comma =>
    cases List.mem_singleton.mp ht
    exact comma.kind_ne_end (by decide)
  | next comma element rest =>
    simp only [ElementsTail.tokens, List.mem_cons, List.mem_append] at ht
    rcases ht with rfl | ht | ht
    · exact comma.kind_ne_end (by decide)
    · exact Tree.kind_ne_end element t ht
    · exact ElementsTail.kind_ne_end rest t ht

theorem MembersTail.kind_ne_end (M : MembersTail) : ∀ t ∈ M.tokens, t.kind ≠ .endOfInput := by
  intro t ht
  cases M with
  | done => cases ht
  | trailing comma =>
    cases List.mem_singleton.mp ht
    exact comma.kind_ne_end (by decide)
  | next comma key colon value rest =>
    simp only [MembersTail.tokens, List.mem_cons, List.mem_append] at ht
    rcases ht with rfl | rfl | rfl | ht | ht
    · exact comma.kind_ne_end (by decide)
    · exact key.kind_ne (by decide) (by decide)
    · exact colon.kind_ne_end (by decide)
    · exact Tree.kind_ne_end value t ht
    · exact MembersTail.kind_ne_end rest t ht

end

mutual

/-- The tokens of a value determine its derivation, and where the value ends. -/
theorem Tree.tokens_append_inj (T T' : Tree) {ts ts' : List Token}
    (h : T.tokens ++ ts = T'.tokens ++ ts') : T = T' ∧ ts = ts' := by
  cases T with
  | scalar s =>
    cases T' with
    | scalar s' =>
      injection h with htok hts
      exact ⟨congrArg Tree.scalar (Scalar.ext_token htok), hts⟩
    | emptyArray l r => exact absurd (List.cons.inj h).1 (s.token_ne l fun _ => rfl)
    | array l first rest r => exact absurd (List.cons.inj h).1 (s.token_ne l fun _ => rfl)
    | emptyObject l r => exact absurd (List.cons.inj h).1 (s.token_ne l fun _ => rfl)
    | object l key colon first rest r =>
      exact absurd (List.cons.inj h).1 (s.token_ne l fun _ => rfl)
  | emptyArray l r =>
    cases T' with
    | scalar s => exact absurd (List.cons.inj h).1.symm (s.token_ne l fun _ => rfl)
    | emptyArray l' r' =>
      injection h with hl h
      injection h with hr hts
      cases Subtype.ext hl
      cases Subtype.ext hr
      exact ⟨rfl, hts⟩
    | array l' first rest r' =>
      simp only [Tree.tokens, List.cons_append, List.append_assoc, List.nil_append] at h
      exact absurd (List.cons.inj h).2.symm (first.tokens_ne_cons r _ _ (.inl rfl))
    | emptyObject l' r' => exact absurd (List.cons.inj h).1 (Terminal.val_ne (by decide) l l')
    | object l' key colon first rest r' =>
      exact absurd (List.cons.inj h).1 (Terminal.val_ne (by decide) l l')
  | array l first rest r =>
    cases T' with
    | scalar s => exact absurd (List.cons.inj h).1.symm (s.token_ne l fun _ => rfl)
    | emptyArray l' r' =>
      simp only [Tree.tokens, List.cons_append, List.append_assoc, List.nil_append] at h
      exact absurd (List.cons.inj h).2 (first.tokens_ne_cons r' _ _ (.inl rfl))
    | array l' first' rest' r' =>
      simp only [Tree.tokens, List.cons_append, List.append_assoc, List.nil_append] at h
      injection h with hl h
      cases Subtype.ext hl
      obtain ⟨rfl, htail⟩ := Tree.tokens_append_inj first first' h
      obtain ⟨rfl, rfl, hts⟩ := ElementsTail.tokens_append_inj rest rest' r r' htail
      exact ⟨rfl, hts⟩
    | emptyObject l' r' => exact absurd (List.cons.inj h).1 (Terminal.val_ne (by decide) l l')
    | object l' key colon first' rest' r' =>
      exact absurd (List.cons.inj h).1 (Terminal.val_ne (by decide) l l')
  | emptyObject l r =>
    cases T' with
    | scalar s => exact absurd (List.cons.inj h).1.symm (s.token_ne l fun _ => rfl)
    | emptyArray l' r' => exact absurd (List.cons.inj h).1 (Terminal.val_ne (by decide) l l')
    | array l' first rest r' =>
      exact absurd (List.cons.inj h).1 (Terminal.val_ne (by decide) l l')
    | emptyObject l' r' =>
      injection h with hl h
      injection h with hr hts
      cases Subtype.ext hl
      cases Subtype.ext hr
      exact ⟨rfl, hts⟩
    | object l' key colon first rest r' =>
      have hkey := (List.cons.inj (List.cons.inj h).2).1
      exact absurd hkey.symm (key.token_ne r (by decide) (by decide))
  | object l key colon first rest r =>
    cases T' with
    | scalar s => exact absurd (List.cons.inj h).1.symm (s.token_ne l fun _ => rfl)
    | emptyArray l' r' => exact absurd (List.cons.inj h).1 (Terminal.val_ne (by decide) l l')
    | array l' first' rest' r' =>
      exact absurd (List.cons.inj h).1 (Terminal.val_ne (by decide) l l')
    | emptyObject l' r' =>
      have hkey := (List.cons.inj (List.cons.inj h).2).1
      exact absurd hkey (key.token_ne r' (by decide) (by decide))
    | object l' key' colon' first' rest' r' =>
      simp only [Tree.tokens, List.cons_append, List.append_assoc, List.nil_append] at h
      injection h with hl h
      injection h with hkey h
      injection h with hcolon h
      cases Subtype.ext hl
      cases Key.ext_token hkey
      cases Subtype.ext hcolon
      obtain ⟨rfl, htail⟩ := Tree.tokens_append_inj first first' h
      obtain ⟨rfl, rfl, hts⟩ := MembersTail.tokens_append_inj rest rest' r r' htail
      exact ⟨rfl, hts⟩

theorem ElementsTail.tokens_append_inj (E E' : ElementsTail) (r r' : Terminal .rightBracket)
    {ts ts' : List Token} (h : E.tokens ++ (r.val :: ts) = E'.tokens ++ (r'.val :: ts')) :
    E = E' ∧ r = r' ∧ ts = ts' := by
  cases E with
  | done =>
    cases E' with
    | done =>
      injection h with hr hts
      exact ⟨rfl, Subtype.ext hr, hts⟩
    | trailing comma => exact absurd (List.cons.inj h).1 (Terminal.val_ne (by decide) r comma)
    | next comma element rest =>
      exact absurd (List.cons.inj h).1 (Terminal.val_ne (by decide) r comma)
  | trailing comma =>
    cases E' with
    | done => exact absurd (List.cons.inj h).1 (Terminal.val_ne (by decide) comma r')
    | trailing comma' =>
      injection h with hcomma h
      injection h with hr hts
      cases Subtype.ext hcomma
      exact ⟨rfl, Subtype.ext hr, hts⟩
    | next comma' element rest =>
      simp only [ElementsTail.tokens, List.cons_append, List.append_assoc] at h
      exact absurd (List.cons.inj h).2.symm (element.tokens_ne_cons r _ _ (.inl rfl))
  | next comma element rest =>
    cases E' with
    | done => exact absurd (List.cons.inj h).1 (Terminal.val_ne (by decide) comma r')
    | trailing comma' =>
      simp only [ElementsTail.tokens, List.cons_append, List.append_assoc] at h
      exact absurd (List.cons.inj h).2 (element.tokens_ne_cons r' _ _ (.inl rfl))
    | next comma' element' rest' =>
      simp only [ElementsTail.tokens, List.cons_append, List.append_assoc] at h
      injection h with hcomma h
      cases Subtype.ext hcomma
      obtain ⟨rfl, htail⟩ := Tree.tokens_append_inj element element' h
      obtain ⟨rfl, rfl, hts⟩ := ElementsTail.tokens_append_inj rest rest' r r' htail
      exact ⟨rfl, rfl, hts⟩

theorem MembersTail.tokens_append_inj (M M' : MembersTail) (r r' : Terminal .rightBrace)
    {ts ts' : List Token} (h : M.tokens ++ (r.val :: ts) = M'.tokens ++ (r'.val :: ts')) :
    M = M' ∧ r = r' ∧ ts = ts' := by
  cases M with
  | done =>
    cases M' with
    | done =>
      injection h with hr hts
      exact ⟨rfl, Subtype.ext hr, hts⟩
    | trailing comma => exact absurd (List.cons.inj h).1 (Terminal.val_ne (by decide) r comma)
    | next comma key colon value rest =>
      exact absurd (List.cons.inj h).1 (Terminal.val_ne (by decide) r comma)
  | trailing comma =>
    cases M' with
    | done => exact absurd (List.cons.inj h).1 (Terminal.val_ne (by decide) comma r')
    | trailing comma' =>
      injection h with hcomma h
      injection h with hr hts
      cases Subtype.ext hcomma
      exact ⟨rfl, Subtype.ext hr, hts⟩
    | next comma' key colon value rest =>
      have hkey := (List.cons.inj (List.cons.inj h).2).1
      exact absurd hkey.symm (key.token_ne r (by decide) (by decide))
  | next comma key colon value rest =>
    cases M' with
    | done => exact absurd (List.cons.inj h).1 (Terminal.val_ne (by decide) comma r')
    | trailing comma' =>
      have hkey := (List.cons.inj (List.cons.inj h).2).1
      exact absurd hkey (key.token_ne r' (by decide) (by decide))
    | next comma' key' colon' value' rest' =>
      simp only [MembersTail.tokens, List.cons_append, List.append_assoc] at h
      injection h with hcomma h
      injection h with hkey h
      injection h with hcolon h
      cases Subtype.ext hcomma
      cases Key.ext_token hkey
      cases Subtype.ext hcolon
      obtain ⟨rfl, htail⟩ := Tree.tokens_append_inj value value' h
      obtain ⟨rfl, rfl, hts⟩ := MembersTail.tokens_append_inj rest rest' r r' htail
      exact ⟨rfl, rfl, hts⟩

end

end RelaxedJson
