-- SUMMARY: Values on lines of their own are read one after the other.
import RelaxedJson.Proofs.Lexical.Joining
import RelaxedJson.Proofs.Value.Sequences
import RelaxedJson.Proofs.Value.Spacing

/-!
# Lines

Texts that are values each, with a line feed behind each of them, are read as the sequence of these
values (`Value.parseAll_lines`). A line feed keeps neighbours apart, so the tokens of the whole are
those of the lines one after the other, at other places. Each line is a part of a division of these
tokens, and places do not matter to the value of a part.
-/

namespace RelaxedJson

/-- The texts with a line feed behind each of them. -/
def Bytes.lines (texts : List Bytes) : Bytes :=
  texts.flatMap (· ++ ['\n'.ascii])

namespace Value

variable {d : Dialect}

/-- A value stays the same when its tokens are further on in a text. -/
theorem ofTokens_moved {ts : List Token} {v : Value} (s : Shift) (h : ofTokens d ts = .ok v) :
    ofTokens d (ts.map (Token.moved s)) = .ok v := by
  have hplaces : (ts.map (Token.moved s)).map (Token.relocated .nowhere) =
      ts.map (Token.relocated .nowhere) := by
    rw [List.map_map]
    rfl
  have hvalue := ofTokens_of_relocated (d := d) hplaces
  rw [h] at hvalue
  cases hmoved : ofTokens d (ts.map (Token.moved s)) with
  | error e => simp [hmoved, Except.mapError] at hvalue
  | ok w => simpa [hmoved, Except.mapError] using hvalue

/-- A value without the end of input behind it is the same value. -/
theorem ofTokens_of_concat_end {ts : List Token} {last : Token} {v : Value}
    (hts : ∀ t ∈ ts, t.kind ≠ .endOfInput) (hlast : last.kind = .endOfInput)
    (h : ofTokens d (ts ++ [last]) = .ok v) : ofTokens d ts = .ok v := by
  obtain ⟨T, hT, hbody, rfl⟩ := tree_of_ofTokens h
  have hend : Token.AtEnd [last] := by
    rintro _ ⟨⟩
    exact hlast
  rw [Token.body_append hts hend] at hbody
  rw [← hbody]
  exact ofTokens_tokens hT

theorem exists_tokens_of_parse {text : Bytes} {v : Value} (h : parse d text = .ok v) :
    ∃ ts last, Token.scan d text = .ok (ts ++ [last]) ∧ ofTokens d ts = .ok v := by
  cases hscan : Token.scan d text with
  | error e =>
    simp only [parse, hscan] at h
    cases h
  | ok us =>
    simp only [parse, hscan] at h
    obtain ⟨ts, last, rfl⟩ := Token.exists_concat_of_scan hscan
    obtain ⟨hts, hlast⟩ := Token.kind_of_scan hscan
    exact ⟨ts, last, rfl, ofTokens_of_concat_end hts hlast h⟩

theorem not_ofTokens_nil : ¬ ∃ v, ofTokens d [] = .ok v := by
  rintro ⟨v, hv⟩
  cases hv

theorem exists_value_of_mem {parts : List (List Token)} {vs : List Value}
    (h : parts.map (ofTokens d) = vs.map .ok) {part : List Token} (hpart : part ∈ parts) :
    ∃ v, ofTokens d part = .ok v := by
  have hmem : ofTokens d part ∈ vs.map .ok := h ▸ List.mem_map_of_mem hpart
  obtain ⟨v, -, hv⟩ := List.mem_map.mp hmem
  exact ⟨v, hv.symm⟩

/-- The tokens of lines are those of one value behind the other. -/
theorem exists_parts_of_lines {texts : List Bytes} {vs : List Value}
    (h : texts.map (parse d) = vs.map .ok) :
    ∃ (parts : List (List Token)) (last : Token),
      Token.scan d (Bytes.lines texts) = .ok (parts.flatten ++ [last]) ∧
      parts.map (ofTokens d) = vs.map .ok := by
  induction vs generalizing texts with
  | nil =>
    rw [List.map_nil, List.map_eq_nil_iff] at h
    subst h
    exact ⟨[], .atEnd .start, by simp [Bytes.lines, Token.scan, Token.scanFrom], rfl⟩
  | cons v vs ih =>
    obtain ⟨text, texts, rfl, hparse, hrest⟩ := List.map_eq_cons_iff.mp h
    obtain ⟨ts, last, hscan, hvalue⟩ := exists_tokens_of_parse hparse
    obtain ⟨parts, last', hscan', hvalues⟩ := ih hrest
    -- Behind the line feed the scanner finds the parts of the other lines, further on.
    let s := Shift.behindLine text
    refine ⟨ts :: parts.map (List.map (Token.moved s)), last'.moved s, ?_, ?_⟩
    · have hline : Bytes.lines (text :: texts) = text ++ '\n'.ascii :: Bytes.lines texts := by
        simp [Bytes.lines]
      have hmoved := Token.scanFrom_moved (d := d) (s := s) .start [] ts
        (Rune.decode (Bytes.lines texts))
      rw [← Token.scan, hscan'] at hmoved
      rw [hline, Token.scan_feed hscan, Place.behind_feed]
      refine hmoved.trans ?_
      simp [List.map_flatten]
    · have hparts : ∀ part ∈ parts, ofTokens d (part.map (Token.moved s)) = ofTokens d part := by
        intro part hpart
        obtain ⟨w, hw⟩ := exists_value_of_mem hvalues hpart
        exact (ofTokens_moved s hw).trans hw.symm
      rw [List.map_cons, List.map_cons, hvalue, List.map_map, ← hvalues]
      exact congrArg _ (List.map_congr_left hparts)

/-- Values on lines of their own are read one after the other. -/
theorem parseAll_lines {texts : List Bytes} {vs : List Value}
    (h : texts.map (parse d) = vs.map .ok) : parseAll d (Bytes.lines texts) = (vs, none) := by
  obtain ⟨parts, last, hscan, hvalues⟩ := exists_parts_of_lines h
  obtain ⟨hts, hlast⟩ := Token.kind_of_scan hscan
  have hdivision : IsDivision d parts.flatten parts [] := by
    refine ⟨List.append_nil _, fun _ => exists_value_of_mem hvalues, ?_⟩
    intro front hprefix
    rw [List.prefix_nil.mp hprefix]
    exact not_ofTokens_nil
  have hall : parseAll d (Bytes.lines texts) = readAll d { rest := parts.flatten ++ [last] } [] := by
    simp only [parseAll, hscan]
    rfl
  obtain ⟨hread, hfault⟩ := readAll_of_division hdivision hts hlast [] []
  rw [← hall] at hread hfault
  rw [hvalues, List.reverse_nil, List.map_nil, List.nil_append] at hread
  refine Prod.ext (List.map_injective_iff.mpr (fun v w hvw => by injection hvw) hread) ?_
  rcases hfault with ⟨hnone, -⟩ | ⟨-, -, hrest, -⟩
  · exact hnone
  · exact absurd rfl hrest

end Value

end RelaxedJson
