-- SUMMARY: Words of a text may be spaced in any other way, and remain the same words.
import RelaxedJson.Proofs.Lexical.Scanning

/-!
# Separators

A separator is a gap that is complete in itself: it goes in front of any text, so its line comments
have their line feeds (`Separator.gap`). No word goes on into white space or a comment
(`IsWord.of_endsWord`). So when the words of a text are written down again, with separators between
them, the scanner finds the same words (`Token.scan_spaced`).
-/

namespace RelaxedJson

/-! ## Ends of words -/

/-- A text that continues no word in front of it: it is empty, or starts with white space or with a
    slash. -/
def Bytes.EndsWord (bs : Bytes) : Prop :=
  ∀ b ∈ bs.head?, ∃ c : Char, b = c.ascii ∧ (Lexeme.isSpace c ∨ c = '/')

namespace Bytes

theorem endsWord_nil : EndsWord [] := nofun

theorem endsWord_cons {c : Char} (hc : Lexeme.isSpace c ∨ c = '/') (bs : Bytes) :
    EndsWord (c.ascii :: bs) := by
  rintro _ ⟨⟩
  exact ⟨c, rfl, hc⟩

theorem lt_of_ends {c : Char} (hc : Lexeme.isSpace c ∨ c = '/') : c.toNat < 128 := by
  rcases hc with hc | rfl
  · exact Piece.lt_of_isSpace hc
  · decide

/-- No class that leaves out white space and the slash goes on. -/
theorem EndsWord.not_startsWith {bs : Bytes} (h : bs.EndsWord) {p : Char → Bool}
    (hp : ∀ c, Lexeme.isSpace c ∨ c = '/' → p c = false) : ¬ bs.StartsWith p := by
  rintro ⟨c, rest, hc, hpc, rfl⟩
  obtain ⟨c', hascii, hc'⟩ := h _ rfl
  rw [(ascii_inj hc (lt_of_ends hc')).mp hascii, hp c' hc'] at hpc
  cases hpc

end Bytes

namespace Lexeme

theorem isDigit_of_ends {c : Char} (hc : isSpace c ∨ c = '/') : c.isDigit = false := by
  rcases hc with hc | rfl
  · rcases Piece.eq_of_isSpace hc with rfl | rfl | rfl | rfl <;> rfl
  · rfl

theorem isExponentLetter_of_ends {c : Char} (hc : isSpace c ∨ c = '/') :
    isExponentLetter c = false := by
  rcases hc with hc | rfl
  · rcases Piece.eq_of_isSpace hc with rfl | rfl | rfl | rfl <;> rfl
  · rfl

theorem isNameChar_of_ends {c : Char} (hc : isSpace c ∨ c = '/') : isNameChar c = false := by
  rcases hc with hc | rfl
  · rcases Piece.eq_of_isSpace hc with rfl | rfl | rfl | rfl <;> rfl
  · rfl

end Lexeme

theorem Numeral.endsBefore_of_endsWord (n : Numeral) {rest : Bytes} (h : rest.EndsWord) :
    n.EndsBefore rest where
  digit := h.not_startsWith fun _ => Lexeme.isDigit_of_ends
  letter _ := h.not_startsWith fun _ => Lexeme.isExponentLetter_of_ends
  point := by
    rintro - - more rfl
    obtain ⟨c, hascii, hc⟩ := h _ rfl
    rw [← (ascii_inj (by decide) (Bytes.lt_of_ends hc)).mp hascii] at hc
    exact absurd hc (by decide)

/-- A word stays one in front of another text, if numbers and names still end there. -/
theorem IsWord.imp {d : Dialect} {w : Word} {rest rest' : Bytes} (h : IsWord d w rest)
    (hnumber : ∀ n : Numeral, n.EndsBefore rest → n.EndsBefore rest')
    (hname : ¬ rest.StartsWith Lexeme.isNameChar → ¬ rest'.StartsWith Lexeme.isNameChar) :
    IsWord d w rest' := by
  cases h with
  | punctuation hkind => exact .punctuation hkind
  | string hmark hbody => exact .string hmark hbody
  | number hrange hends => exact .number hrange (hnumber _ hends)
  | keyword hkind hends => exact .keyword hkind (hname hends)
  | identifier hd hkind hends => exact .identifier hd hkind (hname hends)

theorem IsWord.of_endsWord {d : Dialect} {w : Word} {rest rest' : Bytes} (h : IsWord d w rest)
    (hrest : rest'.EndsWord) : IsWord d w rest' :=
  h.imp (fun n _ => n.endsBefore_of_endsWord hrest)
    (fun _ => hrest.not_startsWith fun _ => Lexeme.isNameChar_of_ends)

/-! ## Separators -/

/-- White space and comments that are complete in themselves. -/
inductive Separator (d : Dialect) : Bytes → Prop where
  | nil : Separator d []
  | space {c : Char} {more : Bytes} : Lexeme.isSpace c → Separator d more →
      Separator d (c.ascii :: more)
  /-- A line comment with its line feed. -/
  | line {body more : Bytes} : d.comments → (∀ b ∈ body, b ≠ '\n'.ascii) → Separator d more →
      Separator d ('/'.ascii :: '/'.ascii :: (body ++ '\n'.ascii :: more))
  | block {body more : Bytes} : d.comments → BlockBody 0 body → Separator d more →
      Separator d ('/'.ascii :: '*'.ascii :: (body ++ more))

namespace Separator

variable {d : Dialect} {sep : Bytes}

/-- A separator is a gap in front of any text. -/
theorem gap (h : Separator d sep) (rest : Bytes) : Gap d sep rest := by
  induction h with
  | nil => exact .nil
  | space hc _ ih => exact .cons (.space hc) ih
  | @line body more hd hbody _ ih =>
    have hfeed : ∀ b ∈ ('\n'.ascii :: more ++ rest).head?, b = '\n'.ascii := by
      rintro _ ⟨⟩
      rfl
    exact .cons (.line hd hbody hfeed) (.cons (.space (by decide)) ih)
  | @block body more hd hbody _ ih => exact .cons (.block hd hbody) ih

/-- No word goes on into a separator. -/
theorem endsWord (h : Separator d sep) (hne : sep ≠ []) (rest : Bytes) :
    (sep ++ rest).EndsWord := by
  cases h with
  | nil => exact absurd rfl hne
  | space hc _ => exact Bytes.endsWord_cons (.inl hc) _
  | line _ _ _ => exact Bytes.endsWord_cons (.inr rfl) _
  | block _ _ _ => exact Bytes.endsWord_cons (.inr rfl) _

end Separator

/-! ## Tokens without their places -/

/-- A token without its place: its kind, its text and its literal. -/
def Token.unplaced (t : Token) : Token :=
  { t with location := .origin }

namespace Layout

variable {d : Dialect}

/-- The words of a text are its tokens apart from their places. -/
theorem map_unplaced_tokensFrom (before before' : Bytes) {words words' : List (Word × Bytes)}
    (h : words.map Prod.fst = words'.map Prod.fst) :
    (tokensFrom d before words).map Token.unplaced =
      (tokensFrom d before' words').map Token.unplaced := by
  induction words generalizing before before' words' with
  | nil =>
    cases words' with
    | nil => rfl
    | cons w' words' => cases h
  | cons w words ih =>
    cases words' with
    | nil => cases h
    | cons w' words' =>
      obtain ⟨w, gap⟩ := w
      obtain ⟨w', gap'⟩ := w'
      injection h with hw hwords
      subst hw
      simp only [tokensFrom, List.map_cons]
      rw [ih _ (before' ++ (w.text ++ gap')) hwords]
      rfl

/-- The words of a text, with separators in place of their gaps. -/
theorem exists_spaced {words : List (Word × Bytes)} (h : WordsFit d words) {before : Bytes}
    {parts : List (Token × Bytes)} {last : Token}
    (htokens : tokensFrom d before words = parts.map Prod.fst ++ [last])
    (hseparators : ∀ part ∈ parts, Separator d part.2)
    (hbetween : ∀ part ∈ parts.dropLast, part.2 ≠ []) :
    ∃ spaced, WordsFit d spaced ∧ spaced.map Prod.fst = words.map Prod.fst ∧
      Word.spell spaced = parts.flatMap fun part => part.1.lexeme ++ part.2 := by
  induction words generalizing before parts with
  | nil =>
    cases parts with
    | nil => exact ⟨[], trivial, rfl, rfl⟩
    | cons part parts =>
      have hlength := congrArg List.length htokens
      simp [tokensFrom] at hlength
  | cons w words ih =>
    cases parts with
    | nil =>
      have hlength := congrArg List.length htokens
      cases words <;> simp [tokensFrom] at hlength
    | cons part parts =>
      obtain ⟨w, gap⟩ := w
      obtain ⟨t, separator⟩ := part
      obtain ⟨hword, -, hwords⟩ := h
      injection htokens with ht htokens
      have hseparator : Separator d separator := hseparators _ List.mem_cons_self
      have hmore : ∀ part ∈ parts.dropLast, part.2 ≠ [] := by
        cases parts with
        | nil => exact List.forall_mem_nil _
        | cons => exact fun part hpart => hbetween part (List.mem_cons_of_mem _ hpart)
      obtain ⟨spaced, hfit, hmap, hspell⟩ :=
        ih hwords htokens (fun part hpart => hseparators part (List.mem_cons_of_mem _ hpart)) hmore
      -- Only behind the last word may the separator be empty, and there the text ends.
      have hends : (separator ++ Word.spell spaced).EndsWord := by
        by_cases hne : separator = []
        · cases parts with
          | nil =>
            rw [hne, hspell]
            exact Bytes.endsWord_nil
          | cons next parts => exact absurd hne (hbetween (t, separator) List.mem_cons_self)
        · exact hseparator.endsWord hne _
      refine ⟨(w, separator) :: spaced, ⟨hword.of_endsWord hends, hseparator.gap _, hfit⟩, ?_, ?_⟩
      · rw [List.map_cons, List.map_cons, hmap]
      · rw [Word.spell, hspell, List.flatMap_cons, ← ht, List.append_assoc]
        rfl

end Layout

/-- The texts of tokens, each with something behind it, and something in front of all. -/
def Token.spaced (lead : Bytes) (parts : List (Token × Bytes)) : Bytes :=
  lead ++ parts.flatMap fun part => part.1.lexeme ++ part.2

/-- Spacing the tokens of a text in another way changes nothing but their places. -/
theorem Token.scan_spaced {d : Dialect} {text lead : Bytes} {parts : List (Token × Bytes)}
    {last : Token} (hscan : scan d text = .ok (parts.map Prod.fst ++ [last]))
    (hlead : Separator d lead) (hseparators : ∀ part ∈ parts, Separator d part.2)
    (hbetween : ∀ part ∈ parts.dropLast, part.2 ≠ []) :
    ∃ us, scan d (spaced lead parts) = .ok us ∧
      us.map unplaced = (parts.map Prod.fst ++ [last]).map unplaced := by
  obtain ⟨L, hL, -, htokens⟩ := layout_of_scan hscan
  obtain ⟨words, hfit, hmap, hspell⟩ :=
    Layout.exists_spaced hL.words htokens hseparators hbetween
  have hspaced : Layout.Fits d ⟨lead, words⟩ := ⟨hlead.gap _, hfit⟩
  refine ⟨Layout.tokens d ⟨lead, words⟩, ?_, ?_⟩
  · rw [spaced, ← hspell]
    exact scan_of_layout hspaced
  · rw [← htokens]
    exact Layout.map_unplaced_tokensFrom _ _ hmap

end RelaxedJson
