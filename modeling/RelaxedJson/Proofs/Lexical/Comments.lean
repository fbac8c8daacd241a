-- SUMMARY: Reading white space and comments: the reader takes exactly the pieces of gaps.
import RelaxedJson.Proofs.Lexical.Grammar

/-!
# Comments

`Lexeme.block` reads runes and counts marks, `BlockBody` describes bytes. As in strings, the bytes
of a longer character are as good as ordinary bytes. A line comment ends in front of a line feed,
which the reader leaves for the next piece.
-/

namespace RelaxedJson

/-! ## Block comments -/

namespace BlockBody

variable {depth : Nat} {bs : Bytes}

theorem high_append {xs : Bytes} (hxs : ∀ x ∈ xs, 128 ≤ x.toNat) (h : BlockBody depth bs) :
    BlockBody depth (xs ++ bs) := by
  induction xs with
  | nil => exact h
  | cons x xs ih =>
    have hx := hxs x List.mem_cons_self
    have hmark : ∀ c c' : Char, c.toNat < 128 → ¬ [c.ascii, c'.ascii] <+: x :: (xs ++ bs) := by
      rintro c c' hc ⟨tail, htail⟩
      exact ne_ascii_of_le hx hc (List.cons.inj htail).1.symm
    exact .other (hmark _ _ (by decide)) (hmark _ _ (by decide))
      (ih fun y hy => hxs y (List.mem_cons_of_mem x hy))

theorem of_high_append {xs : Bytes} (hxs : ∀ x ∈ xs, 128 ≤ x.toNat)
    (h : BlockBody depth (xs ++ bs)) : BlockBody depth bs := by
  induction xs with
  | nil => exact h
  | cons x xs ih =>
    have hx := hxs x List.mem_cons_self
    have hrest : BlockBody depth (xs ++ bs) := by
      rw [List.cons_append] at h
      generalize hall : x :: (xs ++ bs) = all at h
      cases h with
      | close => exact absurd (List.cons.inj hall).1 (ne_ascii_of_le hx (by decide))
      | leave _ => exact absurd (List.cons.inj hall).1 (ne_ascii_of_le hx (by decide))
      | enter _ => exact absurd (List.cons.inj hall).1 (ne_ascii_of_le hx (by decide))
      | other _ _ h =>
        cases hall
        exact h
    exact ih (fun y hy => hxs y (List.mem_cons_of_mem x hy)) hrest

theorem exists_concat (h : BlockBody depth bs) : ∃ as : Bytes, bs = as ++ ['/'.ascii] := by
  induction h with
  | close => exact ⟨['*'.ascii], rfl⟩
  | leave _ ih =>
    obtain ⟨as, rfl⟩ := ih
    exact ⟨_ :: _ :: as, rfl⟩
  | enter _ ih =>
    obtain ⟨as, rfl⟩ := ih
    exact ⟨_ :: _ :: as, rfl⟩
  | other _ _ _ ih =>
    obtain ⟨as, rfl⟩ := ih
    exact ⟨_ :: as, rfl⟩

/-- A text may be cut behind a block comment. -/
theorem decode_append (h : BlockBody depth bs) (rest : Bytes) :
    Rune.decode (bs ++ rest) = Rune.decode bs ++ Rune.decode rest := by
  obtain ⟨as, rfl⟩ := h.exists_concat
  exact Rune.decode_concat_append as (by decide) rest

/-- A byte that starts no mark may start a longer rune, which then has no mark in it. -/
theorem behind_first {b : UInt8} {tail : Bytes} (henter : ¬ ['/'.ascii, '*'.ascii] <+: b :: bs)
    (hleave : ¬ ['*'.ascii, '/'.ascii] <+: b :: bs) (h : BlockBody depth bs)
    (htail : b :: bs = (Rune.first b bs).bytes ++ tail) : BlockBody depth tail := by
  by_cases hb : b.toNat < 128
  · rw [Rune.bytes_first_of_ascii hb] at htail
    cases htail
    exact h
  · have hbody : BlockBody depth (b :: bs) := .other henter hleave h
    rw [htail] at hbody
    exact hbody.of_high_append (Rune.high_first (Nat.le_of_not_lt hb) bs).bytes

/-- A mark among the runes is a mark among the bytes. -/
theorem leads_of_first {b : UInt8} {tail : Bytes} {c c' : Char} (hc : c.toNat < 128)
    (hc' : c'.toNat < 128) (h : BlockBody depth bs)
    (htail : b :: bs = (Rune.first b bs).bytes ++ tail) (hfirst : Rune.first b bs = .valid c)
    {rest rs : List Rune} (hnext : Rune.decode tail ++ rest = .valid c' :: rs) :
    [c.ascii, c'.ascii] <+: b :: bs := by
  rw [hfirst, Rune.bytes, utf8_of_ascii hc] at htail
  cases htail
  cases hruns : Rune.decode tail with
  | nil =>
    obtain ⟨as, rfl⟩ := h.exists_concat
    exact absurd (Rune.eq_nil_of_decode_eq_nil hruns) (by simp)
  | cons r ss =>
    rw [hruns, List.cons_append] at hnext
    obtain ⟨cs, rfl, -⟩ :=
      Rune.decode_eq_ascii_cons hc' (hruns.trans (by rw [(List.cons.inj hnext).1]))
    exact ⟨cs, rfl⟩

end BlockBody

namespace Lexeme

theorem block_other {depth : Nat} {r : Rune} {rs : List Rune}
    (henter : ∀ rs', r = .valid '/' → rs = .valid '*' :: rs' → False)
    (hleave : ∀ rs', r = .valid '*' → rs = .valid '/' :: rs' → False) (taken : List Rune) :
    block depth taken (r :: rs) = block depth (r :: taken) rs := by
  rw [block]
  · exact henter
  · exact hleave

/-- The reader takes every body. -/
theorem block_of_body {depth : Nat} {bs : Bytes} (h : BlockBody depth bs) (taken rest : List Rune) :
    block depth taken (Rune.decode bs ++ rest) = some (taken.reverse ++ Rune.decode bs) := by
  induction hn : bs.length using Nat.strongRecOn generalizing depth bs taken with
  | ind n ih =>
    cases h with
    | close =>
      rw [Rune.decode_ascii_cons (by decide), Rune.decode_ascii_cons (by decide), Rune.decode_nil]
      simp [block]
    | @leave depth bs h =>
      have hlen : bs.length < n := by
        simp only [List.length_cons] at hn
        omega
      rw [Rune.decode_ascii_cons (by decide), Rune.decode_ascii_cons (by decide), List.cons_append,
        List.cons_append, block, ih _ hlen h _ rfl]
      simp
    | @enter depth bs h =>
      have hlen : bs.length < n := by
        simp only [List.length_cons] at hn
        omega
      rw [Rune.decode_ascii_cons (by decide), Rune.decode_ascii_cons (by decide), List.cons_append,
        List.cons_append, block, ih _ hlen h _ rfl]
      simp
    | @other depth b bs henter hleave h =>
      obtain ⟨tail, htail, hlen, hdecode⟩ := Rune.exists_decode_cons b bs
      have hrest := h.behind_first henter hleave htail
      rw [hdecode, List.cons_append, block_other, ih _ (hn ▸ hlen) hrest _ rfl]
      · simp
      · intro rs hfirst hnext
        exact henter (h.leads_of_first (by decide) (by decide) htail hfirst hnext)
      · intro rs hfirst hnext
        exact hleave (h.leads_of_first (by decide) (by decide) htail hfirst hnext)

/-- What the reader takes is a body. -/
theorem body_of_block {depth : Nat} {taken rs out : List Rune} (hrs : ∀ r ∈ rs, r.IsRead)
    (h : block depth taken rs = some out) :
    ∃ body rest, rs = body ++ rest ∧ BlockBody depth (Rune.encode body) ∧
      out = taken.reverse ++ body := by
  fun_induction block depth taken rs with
  | case1 => cases h
  | case2 depth taken rs ih =>
    obtain ⟨body, rest, rfl, hbody, rfl⟩ :=
      ih (fun r hr => hrs r (List.mem_cons_of_mem _ (List.mem_cons_of_mem _ hr))) h
    refine ⟨.valid '/' :: .valid '*' :: body, rest, rfl, ?_, by simp⟩
    exact .enter hbody
  | case3 taken rs =>
    cases h
    exact ⟨[.valid '*', .valid '/'], rs, rfl, .close, by simp⟩
  | case4 taken rs depth ih =>
    obtain ⟨body, rest, rfl, hbody, rfl⟩ :=
      ih (fun r hr => hrs r (List.mem_cons_of_mem _ (List.mem_cons_of_mem _ hr))) h
    refine ⟨.valid '*' :: .valid '/' :: body, rest, rfl, ?_, by simp⟩
    exact .leave hbody
  | case5 depth taken r rs henter hleave ih =>
    have hread : ∀ x ∈ rs, x.IsRead := fun x hx => hrs x (List.mem_cons_of_mem _ hx)
    obtain ⟨body, rest, rfl, hbody, rfl⟩ := ih hread h
    refine ⟨r :: body, rest, rfl, ?_, by simp⟩
    rw [Rune.encode_cons]
    rcases (hrs r List.mem_cons_self).ascii_or_high with ⟨c, rfl, hc, hbytes⟩ | hhigh
    · rw [hbytes]
      -- A mark among the bytes is a mark among the runes.
      have hmark : ∀ x y : Char, x.toNat < 128 → y.toNat < 128 →
          (∀ rs', Rune.valid c = .valid x → body ++ rest = .valid y :: rs' → False) →
          ¬ [x.ascii, y.ascii] <+: c.ascii :: Rune.encode body := by
        rintro x y hx hy hnot ⟨tail, htail⟩
        injection htail with hhead hnext
        obtain ⟨ss, rfl, -⟩ := Rune.encode_eq_ascii_cons
          (fun r hr => hread r (List.mem_append_left _ hr)) hy hnext.symm
        exact hnot _ (by rw [(ascii_inj hx hc).mp hhead]) rfl
      exact .other (hmark _ _ (by decide) (by decide) henter)
        (hmark _ _ (by decide) (by decide) hleave) hbody
    · exact hbody.high_append hhigh.bytes

/-- The reader finds no end exactly if no beginning of the text is a body. -/
theorem block_eq_none_iff {bs : Bytes} (taken : List Rune) :
    block 0 taken (Rune.decode bs) = none ↔
      ∀ body rest : Bytes, bs = body ++ rest → ¬ BlockBody 0 body := by
  constructor
  · rintro hnone body rest rfl hbody
    rw [hbody.decode_append, block_of_body hbody] at hnone
    cases hnone
  · intro hnot
    cases hread : block 0 taken (Rune.decode bs) with
    | none => rfl
    | some out =>
      obtain ⟨body, runes, hsplit, hbody, -⟩ :=
        body_of_block (fun r => Rune.isRead_of_mem_decode) hread
      obtain ⟨rest, rfl, -⟩ := Rune.decode_eq_append hsplit
      exact absurd hbody (hnot _ rest rfl)

end Lexeme

/-! ## Line comments -/

namespace Lexeme

theorem ne_valid_of_mem_decode {bs : Bytes} {c : Char} (hc : c.toNat < 128)
    (hbs : ∀ b ∈ bs, b ≠ c.ascii) {r : Rune} (hr : r ∈ Rune.decode bs) : r ≠ .valid c := by
  rintro rfl
  refine hbs c.ascii ?_ rfl
  rw [← Rune.encode_decode bs, Rune.encode, List.mem_flatMap]
  exact ⟨_, hr, by rw [Rune.bytes, utf8_of_ascii hc]; exact List.mem_cons_self⟩

theorem comment_of_line {body rest : Bytes} (hbody : ∀ b ∈ body, b ≠ '\n'.ascii)
    (hrest : ∀ b ∈ rest.head?, b = '\n'.ascii) :
    comment (.valid '/' :: (Rune.decode body ++ Rune.decode rest)) =
      .ok (.valid '/' :: .valid '/' :: Rune.decode body) := by
  rw [comment, takeWhile_append_exact]
  · intro r hr
    simpa using ne_valid_of_mem_decode (by decide) hbody hr
  · intro r hr
    cases rest with
    | nil => simp at hr
    | cons b rest =>
      rw [hrest b rfl, Rune.decode_ascii_cons (by decide)] at hr
      cases hr
      simp

theorem comment_of_block {body : Bytes} (hbody : BlockBody 0 body) (rest : List Rune) :
    comment (.valid '*' :: (Rune.decode body ++ rest)) =
      .ok (.valid '/' :: .valid '*' :: Rune.decode body) := by
  rw [comment, block_of_body hbody]
  rfl

/-- What the reader takes is the rest of a line, or up to the end of a block. -/
theorem comment_cases {rs taken : List Rune} (hrs : ∀ r ∈ rs, r.IsRead)
    (h : comment rs = .ok taken) :
    (∃ body rest, taken = .valid '/' :: .valid '/' :: body ∧ rs = .valid '/' :: body ++ rest ∧
        (∀ b ∈ Rune.encode body, b ≠ '\n'.ascii) ∧ ∀ r ∈ rest.head?, r = .valid '\n') ∨
      ∃ body rest, taken = .valid '/' :: .valid '*' :: body ∧ rs = .valid '*' :: body ++ rest ∧
        BlockBody 0 (Rune.encode body) := by
  unfold comment at h
  split at h
  · rename_i rs
    cases h
    refine .inl ⟨rs.takeWhile (· ≠ .valid '\n'), rs.dropWhile (· ≠ .valid '\n'), rfl, ?_, ?_, ?_⟩
    · rw [List.cons_append, List.takeWhile_append_dropWhile]
    · intro b hb
      obtain ⟨r, hr, hb⟩ := List.mem_flatMap.mp hb
      have hread := hrs r (List.mem_cons_of_mem _ ((List.takeWhile_sublist _).mem hr))
      have hne := List.all_eq_true.mp List.all_takeWhile r hr
      exact hread.ne_ascii_of_mem (by decide) (by simpa using hne) hb
    · intro r hr
      simpa using head?_dropWhile hr
  · rename_i rs
    split at h
    · rename_i out hout
      cases h
      obtain ⟨body, rest, rfl, hbody, rfl⟩ :=
        body_of_block (fun r hr => hrs r (List.mem_cons_of_mem _ hr)) hout
      exact .inr ⟨body, rest, rfl, rfl, hbody⟩
    · cases h
  · cases h

/-! ## Faults -/

theorem comment_of_unterminated {bs : Bytes}
    (h : ∀ body rest : Bytes, bs = body ++ rest → ¬ BlockBody 0 body) :
    comment (.valid '*' :: Rune.decode bs) = .error ⟨[], .unterminatedComment⟩ := by
  rw [comment, (block_eq_none_iff _).mpr h]

/-- The characters that make a comment of the slash in front of them. -/
def isCommentMark (c : Char) : Bool :=
  c = '/' || c = '*'

theorem lt_of_isCommentMark {c : Char} (h : isCommentMark c) : c.toNat < 128 := by
  simp only [isCommentMark, Bool.or_eq_true, decide_eq_true_eq] at h
  rcases h with rfl | rfl <;> decide

theorem comment_of_stray {rs : List Rune} (h : Rune.Stops isCommentMark rs) :
    comment rs = .error ⟨[], .unexpectedRune (.valid '/')⟩ := by
  unfold comment
  split
  · cases h _ rfl
  · cases h _ rfl
  · rfl

/-- Behind a slash, either a comment is read, or it does not end, or the slash is a stray one. -/
theorem comment_fault {bs : Bytes} {f : LexicalFault} (h : comment (Rune.decode bs) = .error f) :
    (∃ cs, bs = '*'.ascii :: cs ∧ (∀ body rest : Bytes, cs = body ++ rest → ¬ BlockBody 0 body) ∧
      f = ⟨[], .unterminatedComment⟩) ∨
    (¬ bs.StartsWith isCommentMark ∧ f = ⟨[], .unexpectedRune (.valid '/')⟩) := by
  by_cases hstray : Rune.Stops isCommentMark (Rune.decode bs)
  · rw [comment_of_stray hstray] at h
    cases h
    exact .inr ⟨(Rune.stops_decode_iff fun c => lt_of_isCommentMark).mp hstray, rfl⟩
  · obtain ⟨c, rs, hruns, hc⟩ := Rune.exists_of_not_stops hstray
    obtain ⟨cs, rfl, rfl⟩ := Rune.decode_eq_ascii_cons (lt_of_isCommentMark hc) hruns
    simp only [isCommentMark, Bool.or_eq_true, decide_eq_true_eq] at hc
    rw [hruns] at h
    rcases hc with rfl | rfl
    · cases h
    · rw [comment] at h
      split at h
      · cases h
      · rename_i hnone
        cases h
        exact .inl ⟨cs, rfl, (block_eq_none_iff _).mp hnone, rfl⟩

end Lexeme

end RelaxedJson
