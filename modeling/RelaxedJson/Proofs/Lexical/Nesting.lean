-- SUMMARY: Block comments nest: one ends where as many marks have been closed as opened.
import RelaxedJson.Proofs.Lexical.Stepping

/-!
# Nested comments

Inside a block comment the marks are read as units and all else rune by rune. The reader keeps a depth,
but what it finds is a matter of counting: it stops behind the first closing mark at which as many marks
are closed as opened (`Lexeme.block_eq_some_iff`). So a text in which each comment is complete can
itself be made a comment (`CommentUnit.isComment_enclosed`), unless the slash at its end would go
together with the star behind it.
-/

namespace RelaxedJson

/-! ## Units -/

/-- What a block comment consists of: marks, and single runes. -/
inductive CommentUnit where
  | opening
  | closing
  | rune (r : Rune)
  deriving DecidableEq, Repr

namespace CommentUnit

/-- The runes of a unit. -/
def runes : CommentUnit → List Rune
  | .opening => [.valid '/', .valid '*']
  | .closing => [.valid '*', .valid '/']
  | .rune r  => [r]

/-- The units of a text, read from left to right: a mark where one comes next, and else a rune. -/
def ofRunes : List Rune → List CommentUnit
  | []                             => []
  | .valid '/' :: .valid '*' :: rs => .opening :: ofRunes rs
  | .valid '*' :: .valid '/' :: rs => .closing :: ofRunes rs
  | r :: rs                        => .rune r :: ofRunes rs

/-- The units of a byte string. -/
def ofBytes (bs : Bytes) : List CommentUnit :=
  ofRunes (Rune.decode bs)

theorem ofBytes_nil : ofBytes [] = [] := by
  rw [ofBytes, Rune.decode_nil, ofRunes]

theorem ofRunes_opening (rs : List Rune) :
    ofRunes (.valid '/' :: .valid '*' :: rs) = .opening :: ofRunes rs := by
  rw [ofRunes]

theorem ofRunes_closing (rs : List Rune) :
    ofRunes (.valid '*' :: .valid '/' :: rs) = .closing :: ofRunes rs := by
  rw [ofRunes]

theorem ofRunes_rune {r : Rune} {rs : List Rune}
    (hopening : ∀ rs', r = .valid '/' → rs = .valid '*' :: rs' → False)
    (hclosing : ∀ rs', r = .valid '*' → rs = .valid '/' :: rs' → False) :
    ofRunes (r :: rs) = .rune r :: ofRunes rs := by
  rw [ofRunes]
  · exact hopening
  · exact hclosing

/-- Reading units loses nothing. -/
theorem runes_ofRunes (rs : List Rune) : (ofRunes rs).flatMap runes = rs := by
  fun_induction ofRunes rs with
  | case1 => rfl
  | case2 rs ih | case3 rs ih => rw [List.flatMap_cons, ih]; rfl
  | case4 r rs _ _ ih => rw [List.flatMap_cons, ih]; rfl

theorem runes_of_ofRunes_eq_append {rs : List Rune} {us vs : List CommentUnit}
    (h : ofRunes rs = us ++ vs) : rs = us.flatMap runes ++ vs.flatMap runes := by
  rw [← List.flatMap_append, ← h, runes_ofRunes]

theorem getLast?_of_cons {u v : CommentUnit} {us : List CommentUnit}
    (h : (u :: us).getLast? ≠ some v) : us.getLast? ≠ some v := by
  intro hlast
  rw [List.getLast?_cons, hlast] at h
  exact h rfl

/-- A closing mark behind a text is read as a unit, unless the star goes with a slash in front. -/
theorem ofRunes_append_closing {rs : List Rune}
    (hslash : (ofRunes rs).getLast? ≠ some (.rune (.valid '/'))) (rest : List Rune) :
    ofRunes (rs ++ .valid '*' :: .valid '/' :: rest) = ofRunes rs ++ .closing :: ofRunes rest := by
  fun_induction ofRunes rs with
  | case1 => exact ofRunes_closing rest
  | case2 rs ih =>
    rw [List.cons_append, List.cons_append, ofRunes_opening, ih (getLast?_of_cons hslash),
      List.cons_append]
  | case3 rs ih =>
    rw [List.cons_append, List.cons_append, ofRunes_closing, ih (getLast?_of_cons hslash),
      List.cons_append]
  | case4 r rs hopening hclosing ih =>
    rw [List.cons_append, ofRunes_rune, ih (getLast?_of_cons hslash), List.cons_append]
    · rintro rs' rfl hnext
      cases rs with
      | nil => exact hslash rfl
      | cons x rs => exact hopening rs rfl (by rw [(List.cons.inj hnext).1])
    · rintro rs' rfl hnext
      cases rs with
      | nil => cases (List.cons.inj hnext).1
      | cons x rs => exact hclosing rs rfl (by rw [(List.cons.inj hnext).1])

/-! ## Counting -/

/-- Behind `depth` marks that are open, as many marks are closed as opened. -/
def Balances (depth : Nat) (us : List CommentUnit) : Prop :=
  us.count .closing = depth + us.count .opening

theorem balances_opening {depth : Nat} {us : List CommentUnit} :
    Balances depth (.opening :: us) ↔ Balances (depth + 1) us := by
  simp only [Balances, List.count_cons_self, List.count_cons_of_ne, ne_eq, reduceCtorEq,
    not_false_eq_true]
  omega

theorem balances_closing {depth : Nat} {us : List CommentUnit} :
    Balances (depth + 1) (.closing :: us) ↔ Balances depth us := by
  simp only [Balances, List.count_cons_self, List.count_cons_of_ne, ne_eq, reduceCtorEq,
    not_false_eq_true]
  omega

theorem balances_rune {depth : Nat} {r : Rune} {us : List CommentUnit} :
    Balances depth (.rune r :: us) ↔ Balances depth us := by
  simp only [Balances, List.count_cons_of_ne, ne_eq, reduceCtorEq, not_false_eq_true]

/-- Behind `depth` marks that are open, the units end with the first closing mark at which as many
    marks are closed as opened. -/
structure Ends (depth : Nat) (us : List CommentUnit) : Prop where
  closed : ∃ front, us = front ++ [.closing]
  balanced : Balances depth us
  first : ∀ front, front ++ [.closing] <+: us → Balances depth (front ++ [.closing]) →
    front ++ [.closing] = us

theorem not_ends_nil {depth : Nat} : ¬ Ends depth [] := by
  rintro ⟨⟨front, hfront⟩, -, -⟩
  simp at hfront

/-- A unit that is not the end changes the depth for what follows. -/
theorem ends_cons {depth depth' : Nat} {u : CommentUnit} {us : List CommentUnit}
    (hshift : ∀ us, Balances depth (u :: us) ↔ Balances depth' us)
    (hu : u = .closing → depth' ≠ 0) : Ends depth (u :: us) ↔ Ends depth' us := by
  have hnot : u = .closing → ¬ Balances depth [u] := by
    intro hclosing hbalances
    have hzero : 0 = depth' + 0 := (hshift []).mp hbalances
    exact hu hclosing (by omega)
  constructor
  · rintro ⟨⟨front, hfront⟩, hbalanced, hfirst⟩
    have hclosed : ∃ front', us = front' ++ [.closing] := by
      cases front with
      | nil =>
        cases hfront
        exact absurd hbalanced (hnot rfl)
      | cons x front =>
        cases hfront
        exact ⟨front, rfl⟩
    refine ⟨hclosed, (hshift us).mp hbalanced, fun front' hprefix hfront' => ?_⟩
    have hcons := hfirst (u :: front') ((List.prefix_cons_inj u).mpr hprefix)
      ((hshift _).mpr hfront')
    exact (List.cons.inj hcons).2
  · rintro ⟨⟨front, rfl⟩, hbalanced, hfirst⟩
    refine ⟨⟨u :: front, rfl⟩, (hshift _).mpr hbalanced, fun front' hprefix hfront' => ?_⟩
    cases front' with
    | nil =>
      obtain ⟨tail, htail⟩ := hprefix
      cases htail
      exact absurd hfront' (hnot rfl)
    | cons x front' =>
      obtain ⟨rfl, hrest⟩ := List.cons_prefix_cons.mp hprefix
      exact congrArg (x :: ·) (hfirst front' hrest ((hshift _).mp hfront'))

theorem ends_opening {depth : Nat} {us : List CommentUnit} :
    Ends depth (.opening :: us) ↔ Ends (depth + 1) us :=
  ends_cons (fun _ => balances_opening) nofun

theorem ends_rune {depth : Nat} {r : Rune} {us : List CommentUnit} :
    Ends depth (.rune r :: us) ↔ Ends depth us :=
  ends_cons (fun _ => balances_rune) nofun

theorem ends_closing {depth : Nat} {us : List CommentUnit} :
    Ends (depth + 2) (.closing :: us) ↔ Ends (depth + 1) us :=
  ends_cons (fun _ => balances_closing) fun _ => Nat.succ_ne_zero depth

theorem ends_last {us : List CommentUnit} : Ends 1 (.closing :: us) ↔ us = [] := by
  constructor
  · intro h
    have hone := h.first [] ⟨us, rfl⟩ rfl
    cases hone
    rfl
  · rintro rfl
    refine ⟨⟨[], rfl⟩, rfl, fun front hprefix _ => ?_⟩
    exact hprefix.eq_of_length_le (by simp)

/-- Up to the end no more marks are closed than are open. -/
theorem Ends.count_le {depth : Nat} {us front : List CommentUnit} (h : Ends (depth + 1) us)
    (hfront : front <+: us) : front.count .closing ≤ depth + 1 + front.count .opening := by
  induction us generalizing depth front with
  | nil => exact absurd h not_ends_nil
  | cons u us ih =>
    cases front with
    | nil => exact Nat.zero_le _
    | cons x front =>
      obtain ⟨rfl, hrest⟩ := List.cons_prefix_cons.mp hfront
      cases x with
      | opening =>
        have hle := ih (ends_opening.mp h) hrest
        simp only [List.count_cons, beq_iff_eq, reduceCtorEq, if_true, if_false] at hle ⊢
        omega
      | rune r =>
        have hle := ih (ends_rune.mp h) hrest
        simpa [List.count_cons] using hle
      | closing =>
        cases depth with
        | zero =>
          rw [ends_last.mp h] at hrest
          rw [List.prefix_nil.mp hrest]
          decide
        | succ depth =>
          have hle := ih (ends_closing.mp h) hrest
          simp only [List.count_cons, beq_iff_eq, reduceCtorEq, if_true, if_false] at hle ⊢
          omega

/-! ## Complete comments -/

/-- A block comment from its first mark on: it ends with the first closing mark at which as many marks
    are closed as opened. -/
structure IsComment (us : List CommentUnit) : Prop where
  opens : us.head? = some .opening
  ends : Ends 0 us

/-- Read from left to right, a text never closes more marks than it has opened, and in the end it has
    closed them all. -/
structure Nested (us : List CommentUnit) : Prop where
  within : ∀ front, front <+: us → front.count .closing ≤ front.count .opening
  balanced : us.count .closing = us.count .opening

/-- A text in which all comments are complete. -/
inductive Region : List CommentUnit → Prop where
  | nil : Region []
  | rune (r : Rune) {us : List CommentUnit} : Region us → Region (.rune r :: us)
  | comment {cs us : List CommentUnit} : IsComment cs → Region us → Region (cs ++ us)

theorem IsComment.exists_cons {us : List CommentUnit} (h : IsComment us) :
    ∃ us', us = .opening :: us' ∧ Ends 1 us' := by
  obtain ⟨us', rfl⟩ := List.head?_eq_some_iff.mp h.opens
  exact ⟨us', rfl, ends_opening.mp h.ends⟩

theorem IsComment.nested {us : List CommentUnit} (h : IsComment us) : Nested us := by
  obtain ⟨us', rfl, hends⟩ := h.exists_cons
  refine ⟨fun front hfront => ?_, by simpa [Balances] using h.ends.balanced⟩
  cases front with
  | nil => exact Nat.le_refl _
  | cons x front =>
    obtain ⟨rfl, hrest⟩ := List.cons_prefix_cons.mp hfront
    have hle := hends.count_le hrest
    simp only [List.count_cons, beq_iff_eq, reduceCtorEq, if_true, if_false]
    omega

theorem Nested.append {us vs : List CommentUnit} (hus : Nested us) (hvs : Nested vs) :
    Nested (us ++ vs) where
  within := by
    intro front hfront
    rcases List.prefix_or_prefix_of_prefix hfront (List.prefix_append us vs) with h | ⟨rest, rfl⟩
    · exact hus.within front h
    · have hle := hvs.within rest ((List.prefix_append_right_inj us).mp hfront)
      have hbalanced := hus.balanced
      rw [List.count_append, List.count_append]
      omega
  balanced := by rw [List.count_append, List.count_append, hus.balanced, hvs.balanced]

theorem nested_rune (r : Rune) : Nested [.rune r] where
  within := by
    intro front hfront
    rcases List.prefix_cons_iff.mp hfront with rfl | ⟨rest, rfl, hrest⟩
    · exact Nat.le_refl _
    · rw [List.prefix_nil.mp hrest]
      rfl
  balanced := rfl

theorem Region.nested {us : List CommentUnit} (h : Region us) : Nested us := by
  induction h with
  | nil =>
    refine ⟨fun front hfront => ?_, rfl⟩
    rw [List.prefix_nil.mp hfront]
    exact Nat.le_refl _
  | rune r _ ih => exact (nested_rune r).append ih
  | comment hcomment _ ih => exact hcomment.nested.append ih

/-- Marks around a nested text make one comment of it. -/
theorem isComment_enclosed {us : List CommentUnit} (h : Nested us) :
    IsComment (.opening :: (us ++ [.closing])) := by
  refine ⟨rfl, ends_opening.mpr ⟨⟨us, rfl⟩, ?_, fun front hfront hbalances => ?_⟩⟩
  · rw [Balances, List.count_append, List.count_append, h.balanced, Nat.zero_add, Nat.add_comm]
    rfl
  · rcases List.prefix_concat_iff.mp hfront with heq | hwithin
    · exact heq
    · have hle := h.within _ hwithin
      rw [Balances] at hbalances
      omega

end CommentUnit

/-! ## Reading -/

open CommentUnit (ofRunes ofBytes Ends IsComment Nested Region)

namespace Lexeme

/-- How an end is found behind the unit `u`, which itself is none. -/
theorem exists_end_cons_iff {depth depth' : Nat} {u : CommentUnit} {units : List CommentUnit}
    (hends : ∀ us, Ends depth (u :: us) ↔ Ends depth' us) (taken out : List Rune) :
    (∃ us vs, u :: units = us ++ vs ∧ Ends depth us ∧
      out = taken.reverse ++ us.flatMap CommentUnit.runes) ↔
    ∃ us vs, units = us ++ vs ∧ Ends depth' us ∧
      out = (u.runes.reverse ++ taken).reverse ++ us.flatMap CommentUnit.runes := by
  constructor
  · rintro ⟨us, vs, hunits, hus, rfl⟩
    cases us with
    | nil => exact absurd hus CommentUnit.not_ends_nil
    | cons x us =>
      cases hunits
      exact ⟨us, vs, rfl, (hends us).mp hus, by simp⟩
  · rintro ⟨us, vs, rfl, hus, rfl⟩
    exact ⟨u :: us, vs, rfl, (hends us).mpr hus, by simp⟩

/-- The reader stops behind the first closing mark at which as many marks are closed as opened. -/
theorem block_eq_some_iff {depth : Nat} {taken rs out : List Rune} :
    block depth taken rs = some out ↔ ∃ us vs, ofRunes rs = us ++ vs ∧ Ends (depth + 1) us ∧
      out = taken.reverse ++ us.flatMap CommentUnit.runes := by
  fun_induction block depth taken rs with
  | case1 depth taken =>
    constructor
    · intro hnone
      cases hnone
    · rintro ⟨us, vs, hunits, hus, -⟩
      rw [(List.append_eq_nil_iff.mp hunits.symm).1] at hus
      exact absurd hus CommentUnit.not_ends_nil
  | case2 depth taken rs ih =>
    rw [CommentUnit.ofRunes_opening, ih,
      exists_end_cons_iff (fun _ => CommentUnit.ends_opening) taken out]
    rfl
  | case3 taken rs =>
    rw [CommentUnit.ofRunes_closing, Option.some.injEq]
    constructor
    · rintro rfl
      exact ⟨[.closing], ofRunes rs, rfl, CommentUnit.ends_last.mpr rfl, by simp [CommentUnit.runes]⟩
    · rintro ⟨us, vs, hunits, hus, rfl⟩
      cases us with
      | nil => exact absurd hus CommentUnit.not_ends_nil
      | cons x us =>
        obtain ⟨rfl, -⟩ := List.cons.inj hunits
        rw [CommentUnit.ends_last.mp hus]
        simp [CommentUnit.runes]
  | case4 taken rs depth ih =>
    rw [CommentUnit.ofRunes_closing, ih,
      exists_end_cons_iff (fun _ => CommentUnit.ends_closing) taken out]
    rfl
  | case5 depth taken r rs hopening hclosing ih =>
    rw [CommentUnit.ofRunes_rune hopening hclosing, ih,
      exists_end_cons_iff (fun _ => CommentUnit.ends_rune) taken out]
    rfl

/-- What is read behind the first slash of a block comment. -/
theorem comment_eq_ok_iff {rs taken : List Rune} :
    comment (.valid '*' :: rs) = .ok taken ↔
      ∃ us vs, ofRunes (.valid '/' :: .valid '*' :: rs) = us ++ vs ∧ IsComment us ∧
        taken = us.flatMap CommentUnit.runes := by
  have hblock : comment (.valid '*' :: rs) = .ok taken ↔
      block 0 [.valid '*', .valid '/'] rs = some taken := by
    rw [comment]
    cases block 0 [.valid '*', .valid '/'] rs <;> simp
  rw [hblock, block_eq_some_iff, CommentUnit.ofRunes_opening]
  constructor
  · rintro ⟨us, vs, hunits, hus, rfl⟩
    refine ⟨.opening :: us, vs, by rw [hunits, List.cons_append], ?_, rfl⟩
    exact ⟨rfl, CommentUnit.ends_opening.mpr hus⟩
  · rintro ⟨us, vs, hunits, hus, rfl⟩
    obtain ⟨us, rfl, hends⟩ := hus.exists_cons
    exact ⟨us, vs, (List.cons.inj hunits).2, hends, rfl⟩

/-- A block comment is read, or it is unterminated. -/
theorem comment_eq_error_iff {rs : List Rune} {f : LexicalFault} :
    comment (.valid '*' :: rs) = .error f ↔
      (∀ taken, comment (.valid '*' :: rs) ≠ .ok taken) ∧ f = ⟨[], .unterminatedComment⟩ := by
  rw [comment]
  cases block 0 [.valid '*', .valid '/'] rs <;> simp [eq_comm]

end Lexeme

/-! ## Comments in a text -/

/-- A text as a block comment. -/
def Bytes.commentedOut (t : Bytes) : Bytes :=
  '/'.ascii :: '*'.ascii :: (t ++ ['*'.ascii, '/'.ascii])

theorem Bytes.commentedOut_append (t rest : Bytes) :
    t.commentedOut ++ rest = '/'.ascii :: '*'.ascii :: (t ++ '*'.ascii :: '/'.ascii :: rest) := by
  simp [commentedOut]

theorem Rune.decode_commentedOut_append (t rest : Bytes) :
    decode (t.commentedOut ++ rest) =
      .valid '/' :: .valid '*' :: (decode t ++ .valid '*' :: .valid '/' :: decode rest) := by
  rw [Bytes.commentedOut_append, decode_ascii_cons (by decide), decode_ascii_cons (by decide),
    decode_append t (Bytes.startsAscii_cons (by decide) _), decode_ascii_cons (by decide),
    decode_ascii_cons (by decide)]

theorem CommentUnit.ofBytes_commentedOut_append {t : Bytes}
    (hslash : (ofBytes t).getLast? ≠ some (.rune (.valid '/'))) (rest : Bytes) :
    ofBytes (t.commentedOut ++ rest) = .opening :: (ofBytes t ++ .closing :: ofBytes rest) := by
  rw [ofBytes, Rune.decode_commentedOut_append, ofRunes_opening, ofRunes_append_closing hslash]
  rfl

theorem CommentUnit.isComment_commentedOut {t : Bytes} (ht : Nested (ofBytes t))
    (hslash : (ofBytes t).getLast? ≠ some (.rune (.valid '/'))) :
    IsComment (ofBytes t.commentedOut) := by
  have hunits := ofBytes_commentedOut_append hslash []
  rw [List.append_nil, ofBytes_nil] at hunits
  rw [hunits]
  exact isComment_enclosed ht

namespace Token

variable {d : Dialect}

/-- Behind a gap the next token is looked for where the gap ends. -/
theorem next_of_gap {p : Place} {r : Rune} {rs taken rest : List Rune}
    (hread : Piece.read d r rs = .ok (.gap taken)) (hruns : r :: rs = taken ++ rest)
    (hne : taken ≠ []) : Token.next d p (r :: rs) = Token.next d (p.advance d taken) rest := by
  rw [Token.next, hread]
  simp only [drop_of_taken hruns hne]

/-- A block comment is passed over as a whole. -/
theorem read_of_isComment (hd : d.comments) {text : Bytes} {rs : List Rune}
    {us vs : List CommentUnit} (htext : Rune.decode text = .valid '/' :: .valid '*' :: rs)
    (hunits : ofBytes text = us ++ vs) (hus : IsComment us) :
    Piece.read d (.valid '/') (.valid '*' :: rs) = .ok (.gap (us.flatMap CommentUnit.runes)) := by
  rw [ofBytes, htext] at hunits
  rw [Piece.read_comment hd, Lexeme.comment_eq_ok_iff.mpr ⟨us, vs, hunits, hus, rfl⟩]
  rfl

theorem next_of_isComment (hd : d.comments) (p : Place) {text : Bytes} {rs : List Rune}
    {us vs : List CommentUnit} (htext : Rune.decode text = .valid '/' :: .valid '*' :: rs)
    (hunits : ofBytes text = us ++ vs) (hus : IsComment us) :
    Token.next d p (Rune.decode text) =
      Token.next d (p.advance d (us.flatMap CommentUnit.runes))
        (vs.flatMap CommentUnit.runes) := by
  have hread := read_of_isComment hd htext hunits hus
  have hruns := CommentUnit.runes_of_ofRunes_eq_append hunits
  have hne : us.flatMap CommentUnit.runes ≠ [] := by
    obtain ⟨us, rfl, -⟩ := hus.exists_cons
    exact List.cons_ne_nil _ _
  rw [htext] at hruns ⊢
  exact next_of_gap hread hruns hne

/-- Exactly where no comment is complete, the reader gives up. -/
theorem read_eq_unterminated_iff (hd : d.comments) {text : Bytes} {rs : List Rune}
    (htext : Rune.decode text = .valid '/' :: .valid '*' :: rs) :
    Piece.read d (.valid '/') (.valid '*' :: rs) = .error ⟨[], .unterminatedComment⟩ ↔
      ∀ us vs, ofBytes text = us ++ vs → ¬ IsComment us := by
  have hread : Piece.read d (.valid '/') (.valid '*' :: rs) = .error ⟨[], .unterminatedComment⟩ ↔
      ∀ taken, Lexeme.comment (.valid '*' :: rs) ≠ .ok taken := by
    have hfault := @Lexeme.comment_eq_error_iff rs ⟨[], .unterminatedComment⟩
    rw [and_iff_left rfl] at hfault
    rw [← hfault, Piece.read_comment hd]
    cases Lexeme.comment (.valid '*' :: rs) <;> simp [Except.map]
  rw [hread, ofBytes, htext]
  constructor
  · intro hnone us vs hunits hus
    exact hnone _ (Lexeme.comment_eq_ok_iff.mpr ⟨us, vs, hunits, hus, rfl⟩)
  · intro hnone taken htaken
    obtain ⟨us, vs, hunits, hus, -⟩ := Lexeme.comment_eq_ok_iff.mp htaken
    exact hnone us vs hunits hus

theorem next_of_unterminated (hd : d.comments) (p : Place) {text : Bytes} {rs : List Rune}
    (htext : Rune.decode text = .valid '/' :: .valid '*' :: rs)
    (hnone : ∀ us vs, ofBytes text = us ++ vs → ¬ IsComment us) :
    Token.next d p (Rune.decode text) = .error ⟨p.position, .unterminatedComment⟩ := by
  rw [htext, Token.next, (read_eq_unterminated_iff hd htext).mpr hnone]
  rfl

/-- A nested text between marks is passed over as one comment, whatever stands behind it. -/
theorem next_commentedOut (hd : d.comments) (p : Place) {t : Bytes} (ht : Nested (ofBytes t))
    (hslash : (ofBytes t).getLast? ≠ some (.rune (.valid '/'))) (rest : Bytes) :
    Token.next d p (Rune.decode (t.commentedOut ++ rest)) =
      Token.next d (p.advance d (Rune.decode t.commentedOut)) (Rune.decode rest) := by
  have hunits : ofBytes (t.commentedOut ++ rest) = ofBytes t.commentedOut ++ ofBytes rest := by
    have hwhole := CommentUnit.ofBytes_commentedOut_append hslash []
    rw [List.append_nil] at hwhole
    rw [CommentUnit.ofBytes_commentedOut_append hslash, hwhole, CommentUnit.ofBytes_nil,
      List.cons_append, List.append_assoc]
    rfl
  have hcomment := CommentUnit.isComment_commentedOut ht hslash
  rw [next_of_isComment hd p (Rune.decode_commentedOut_append t rest) hunits hcomment]
  simp only [ofBytes, CommentUnit.runes_ofRunes]

/-- Where comments are read, a block comment ends behind the first closing mark at which as many marks
    are closed as opened; without one, the error is at its first slash. So a text that is nested and
    does not end in a single slash becomes one comment between marks, and one in which all comments
    are complete is nested. -/
theorem block_comments_nest (hd : d.comments) (p : Place) :
    (∀ (text : Bytes) (rs : List Rune), Rune.decode text = .valid '/' :: .valid '*' :: rs →
      (∀ us vs, ofBytes text = us ++ vs → IsComment us →
        Piece.read d (.valid '/') (.valid '*' :: rs) = .ok (.gap (us.flatMap CommentUnit.runes)) ∧
        Token.next d p (Rune.decode text) =
          Token.next d (p.advance d (us.flatMap CommentUnit.runes))
            (vs.flatMap CommentUnit.runes)) ∧
      (Piece.read d (.valid '/') (.valid '*' :: rs) = .error ⟨[], .unterminatedComment⟩ ↔
        ∀ us vs, ofBytes text = us ++ vs → ¬ IsComment us) ∧
      ((∀ us vs, ofBytes text = us ++ vs → ¬ IsComment us) →
        Token.next d p (Rune.decode text) = .error ⟨p.position, .unterminatedComment⟩)) ∧
    (∀ t : Bytes, Nested (ofBytes t) → (ofBytes t).getLast? ≠ some (.rune (.valid '/')) →
      IsComment (ofBytes t.commentedOut) ∧
      ∀ rest, Token.next d p (Rune.decode (t.commentedOut ++ rest)) =
        Token.next d (p.advance d (Rune.decode t.commentedOut)) (Rune.decode rest)) ∧
    ∀ us, Region us → Nested us := by
  refine ⟨fun text rs htext => ⟨fun us vs hunits hus => ?_, read_eq_unterminated_iff hd htext,
    next_of_unterminated hd p htext⟩, fun t ht hslash => ⟨?_, next_commentedOut hd p ht hslash⟩,
    fun us hus => hus.nested⟩
  · exact ⟨read_of_isComment hd htext hunits hus, next_of_isComment hd p htext hunits hus⟩
  · exact CommentUnit.isComment_commentedOut ht hslash

/-- Two opening marks and a slash, and a region with a byte that encodes nothing, a quote and a
    comment. -/
theorem block_comments_nest_samples :
    Token.next .permissive .start (Rune.decode (Bytes.ofAscii "/*/*/".toList)) =
      .error ⟨.origin, .unterminatedComment⟩ ∧
    ∀ rest, Token.next .permissive .start
        (Rune.decode (Bytes.commentedOut (0xFF :: Bytes.ofAscii "\"/**/".toList) ++ rest)) =
      Token.next .permissive
        (Place.start.advance .permissive
          (Rune.decode (Bytes.commentedOut (0xFF :: Bytes.ofAscii "\"/**/".toList))))
        (Rune.decode rest) := by
  have hopen : ofBytes (Bytes.ofAscii "/*/*/".toList) =
      [.opening, .opening, .rune (.valid '/')] := by cbv
  have hregion : ofBytes (0xFF :: Bytes.ofAscii "\"/**/".toList) =
      [.rune (.invalid 0xFF), .rune (.valid '"'), .opening, .closing] := by cbv
  obtain ⟨hread, hwrap, hnested⟩ := block_comments_nest (d := .permissive) rfl .start
  constructor
  · refine (hread _ [.valid '/', .valid '*', .valid '/'] (by cbv)).2.2 fun us vs hunits hus => ?_
    obtain ⟨front, rfl⟩ := hus.ends.closed
    have hclosing : CommentUnit.closing ∈ ofBytes (Bytes.ofAscii "/*/*/".toList) := by
      rw [hunits]
      simp
    rw [hopen] at hclosing
    simp at hclosing
  · refine (hwrap _ (hnested _ ?_) ?_).2
    · have hcomment : IsComment [.opening, .closing] :=
        ⟨rfl, CommentUnit.ends_opening.mpr (CommentUnit.ends_last.mpr rfl)⟩
      rw [hregion]
      exact .rune _ (.rune _ (.comment hcomment .nil))
    · rw [hregion]
      simp

end Token

end RelaxedJson
