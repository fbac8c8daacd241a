-- SUMMARY: Scanning goes line by line: a text behind a line feed is scanned as if it stood alone.
import RelaxedJson.Proofs.Lexical.Positions
import RelaxedJson.Proofs.Lexical.Separators

/-!
# Joined texts

A text that can be scanned to its end leaves the scanner between two tokens, and a line feed behind
it ends its last word or line comment (`Token.scanFrom_words_feed`). At the start of the next line
the scanner is where it is at the start of a text, some bytes and lines further on. What it does
there is the same, with all places moved (`Token.scanFrom_moved`), in success and in failure. So
scanning is compositional in texts that are joined by a line feed (`Token.scan_append_line`).
-/

namespace RelaxedJson

/-! ## Moves -/

/-- A move onward to the same column, by a number of bytes and lines. -/
structure Shift where
  bytes : Nat
  lines : Nat

/-- The move from the start of a text to the line behind the text `front`. -/
def Shift.behindLine (front : Bytes) : Shift :=
  ⟨front.length + 1, front.count '\n'.ascii + 1⟩

def Position.moved (s : Shift) (p : Position) : Position :=
  ⟨p.line + s.lines, p.column⟩

def Place.moved (s : Shift) (p : Place) : Place :=
  ⟨p.offset + s.bytes, p.position.moved s⟩

def Location.moved (s : Shift) (l : Location) : Location :=
  ⟨⟨l.span.start + s.bytes, l.span.stop + s.bytes⟩, l.position.moved s⟩

def Token.moved (s : Shift) (t : Token) : Token :=
  { t with location := t.location.moved s }

def SyntaxError.moved (s : Shift) (e : SyntaxError) : SyntaxError :=
  { e with position := e.position.moved s }

variable {d : Dialect} {s : Shift}

theorem Position.advance_moved (tab : Int64) (p : Position) (r : Rune) :
    (p.moved s).advance tab r = (p.advance tab r).moved s := by
  unfold advance moved
  split
  · simp only [Position.mk.injEq, and_true]
    omega
  · rfl
  · rfl

theorem Position.advanceAll_moved (tab : Int64) (p : Position) (rs : List Rune) :
    (p.moved s).advanceAll tab rs = (p.advanceAll tab rs).moved s := by
  induction rs generalizing p with
  | nil => rfl
  | cons r rs ih =>
    unfold advanceAll at ih ⊢
    rw [List.foldl_cons, advance_moved, ih, List.foldl_cons]

theorem Place.advance_moved (p : Place) (rs : List Rune) :
    (p.moved s).advance d rs = (p.advance d rs).moved s := by
  simp only [advance, moved, Position.advanceAll_moved, Rune.foldl_width, Place.mk.injEq, and_true]
  omega

theorem LexicalFault.toError_moved (p : Place) (f : LexicalFault) :
    f.toError d (p.moved s) = (f.toError d p).moved s := by
  rw [toError, Place.advance_moved]
  rfl

theorem Lexeme.toToken_moved (p : Place) (l : Lexeme) :
    l.toToken d (p.moved s) = (l.toToken d p).moved s := by
  simp only [toToken, Place.locate, Place.advance_moved]
  simp [Token.moved, Location.moved, Place.moved]

theorem Token.atEnd_moved (p : Place) : atEnd (p.moved s) = (atEnd p).moved s := by
  simp [atEnd, moved, Location.moved, Place.moved]

/-- Further on in a text the scanner does the same. -/
theorem Token.scanFrom_moved (p : Place) (found front : List Token) (rs : List Rune) :
    scanFrom d (p.moved s) (found.map (moved s) ++ front.reverse) rs =
      match scanFrom d p found rs with
      | .ok ts   => .ok (front ++ ts.map (moved s))
      | .error e => .error (e.moved s) := by
  fun_induction scanFrom d p found rs with
  | case1 p found =>
    rw [scanFrom, atEnd_moved]
    simp
  | case2 p found r rs fault hread =>
    rw [scanFrom, hread]
    simp only [LexicalFault.toError_moved]
  | case3 p found r rs taken hread ih =>
    rw [scanFrom, hread]
    simp only [Place.advance_moved]
    exact ih
  | case4 p found r rs l hread ih =>
    rw [scanFrom, hread]
    simp only [Place.advance_moved, Lexeme.toToken_moved]
    exact ih

/-! ## Line feeds behind a text -/

/-- No class without the line feed goes on into the next line. -/
theorem Bytes.startsWith_of_feed {p : Char → Bool} (hp : p '\n' = false) {bs more : Bytes}
    (h : (bs ++ '\n'.ascii :: more).StartsWith p) : bs.StartsWith p := by
  obtain ⟨c, rest, hc, hpc, hsplit⟩ := h
  cases bs with
  | nil =>
    injection hsplit with hfeed
    rw [← (ascii_inj (by decide) hc).mp hfeed, hp] at hpc
    cases hpc
  | cons b bs =>
    injection hsplit with hb
    exact ⟨c, bs, hc, hpc, by rw [hb]⟩

theorem Numeral.EndsBefore.append_feed {n : Numeral} {rest : Bytes} (h : n.EndsBefore rest)
    (more : Bytes) : n.EndsBefore (rest ++ '\n'.ascii :: more) where
  digit hdigit := h.digit (Bytes.startsWith_of_feed (by decide) hdigit)
  letter hnone hletter := h.letter hnone (Bytes.startsWith_of_feed (by decide) hletter)
  point := by
    intro hexponent hfraction tail hsplit hdigit
    cases rest with
    | nil =>
      injection hsplit with hfeed
      exact absurd hfeed (by decide)
    | cons b rest =>
      injection hsplit with hb htail
      rw [← htail] at hdigit
      exact h.point hexponent hfraction rest (by rw [hb])
        (Bytes.startsWith_of_feed (by decide) hdigit)

theorem IsWord.append_feed {w : Word} {rest : Bytes} (h : IsWord d w rest) (more : Bytes) :
    IsWord d w (rest ++ '\n'.ascii :: more) := by
  apply h.imp
  · intro n hn
    exact hn.append_feed more
  · intro hrest hmore
    exact hrest (Bytes.startsWith_of_feed (by decide) hmore)

/-- A line comment that went on to the end of the text now ends in front of the line feed. -/
theorem GapPiece.append_feed {piece rest : Bytes} (h : GapPiece d piece rest) (more : Bytes) :
    GapPiece d piece (rest ++ '\n'.ascii :: more) := by
  cases h with
  | space hc => exact .space hc
  | block hd hbody => exact .block hd hbody
  | line hd hbody hrest =>
    refine .line hd hbody ?_
    cases rest with
    | nil =>
      rintro _ ⟨⟩
      rfl
    | cons b rest => exact hrest

theorem Gap.append_feed {gap rest : Bytes} (h : Gap d gap rest) (more : Bytes) :
    Gap d gap (rest ++ '\n'.ascii :: more) := by
  induction h with
  | nil => exact .nil
  | cons hpiece _ ih =>
    refine .cons ?_ ih
    rw [← List.append_assoc]
    exact hpiece.append_feed more

namespace Token

/-- The scanner gets over words and a line feed, whatever the next line holds. -/
theorem scanFrom_words_feed {words : List (Word × Bytes)} (h : Layout.WordsFit d words)
    {before : Bytes} {ts : List Token} {last : Token}
    (htokens : Layout.tokensFrom d before words = ts ++ [last]) (found : List Token)
    (more : Bytes) :
    scanFrom d (.behind d before) found (Rune.decode (Word.spell words ++ '\n'.ascii :: more)) =
      scanFrom d (.behind d (before ++ Word.spell words ++ ['\n'.ascii])) (ts.reverse ++ found)
        (Rune.decode more) := by
  induction words generalizing before ts found with
  | nil =>
    cases ts with
    | nil =>
      have hfeed : GapPiece d ['\n'.ascii] more := .space (by decide)
      have hscan := scanFrom_gapPiece hfeed before found
      simpa [Word.spell] using hscan
    | cons t ts => simp [Layout.tokensFrom] at htokens
  | cons w words ih =>
    obtain ⟨w, gap⟩ := w
    obtain ⟨hword, hgap, hwords⟩ := h
    cases ts with
    | nil => cases words <;> simp [Layout.tokensFrom] at htokens
    | cons t ts =>
      injection htokens with ht htokens
      subst ht
      have hword' := hword.append_feed more
      have hgap' := hgap.append_feed more
      rw [List.append_assoc] at hword'
      rw [Word.spell, List.append_assoc, List.append_assoc, scanFrom_word hword',
        scanFrom_gap hgap', List.append_assoc before, ih hwords htokens]
      simp only [List.reverse_cons, List.append_assoc, List.cons_append, List.nil_append]

theorem scan_feed {front : Bytes} {ts : List Token} {last : Token}
    (h : scan d front = .ok (ts ++ [last])) (more : Bytes) :
    scan d (front ++ '\n'.ascii :: more) =
      scanFrom d (.behind d (front ++ ['\n'.ascii])) ts.reverse (Rune.decode more) := by
  obtain ⟨L, hL, rfl, htokens⟩ := layout_of_scan h
  rw [scan, ← Place.behind_nil d, Layout.text, List.append_assoc,
    scanFrom_gap (hL.lead.append_feed more), List.nil_append,
    scanFrom_words_feed hL.words htokens, List.append_nil]

end Token

/-- Behind a line feed the scanner is where it is at the start of a text, but further on. -/
theorem Place.behind_feed (front : Bytes) :
    Place.behind d (front ++ ['\n'.ascii]) = Place.start.moved (.behindLine front) := by
  have hposition : Layout.positionBehind d (front ++ ['\n'.ascii]) =
      Position.origin.moved (.behindLine front) := by
    rw [Layout.positionBehind_eq, Position.endLine, Position.endColumn, Bytes.lastLine_concat_feed,
      List.count_append, List.count_singleton_self]
    simp [Position.moved, Position.origin, Shift.behindLine]
  simp only [behind, hposition, moved, start, Shift.behindLine, List.length_append,
    List.length_singleton, Nat.zero_add]

/-- Scanning is compositional in texts that are joined by a line feed. The tokens of the first text
    stay as they are, and the tokens of the second, or its error, are found that many bytes and
    lines further on. -/
theorem Token.scan_append_line (d : Dialect) (front more : Bytes) (ts : List Token) (last : Token)
    (h : scan d front = .ok (ts ++ [last])) :
    last.kind = .endOfInput ∧
    scan d (front ++ '\n'.ascii :: more) =
      match scan d more with
      | .ok us   => .ok (ts ++ us.map (moved (.behindLine front)))
      | .error e => .error (e.moved (.behindLine front)) := by
  refine ⟨(kind_of_scan h).2, ?_⟩
  rw [scan_feed h, Place.behind_feed]
  exact scanFrom_moved .start [] ts (Rune.decode more)

/-- A line comment that breaks off inside a rune does not reach into the next line, where a bracket
    is a token and a quotation mark alone is an error. -/
theorem Token.scan_append_line_truncated :
    scan .permissive ("[//".utf8 ++ 0xE2 :: "\n]".utf8) =
        .ok [{ kind := .leftBracket, lexeme := "[".utf8, location := ⟨⟨0, 1⟩, ⟨1, 1⟩⟩ },
          { kind := .rightBracket, lexeme := "]".utf8, location := ⟨⟨5, 6⟩, ⟨2, 1⟩⟩ },
          { kind := .endOfInput, location := ⟨⟨6, 6⟩, ⟨2, 2⟩⟩ }] ∧
      scan .permissive ("[//".utf8 ++ 0xE2 :: "\n'".utf8) =
        .error ⟨⟨2, 1⟩, .unclosedQuote⟩ := by
  have hfront : scan .permissive ("[//".utf8 ++ [0xE2]) =
      .ok ([{ kind := .leftBracket, lexeme := "[".utf8, location := ⟨⟨0, 1⟩, ⟨1, 1⟩⟩ }] ++
        [{ kind := .endOfInput, location := ⟨⟨4, 4⟩, ⟨1, 5⟩⟩ }]) := by cbv
  have hmore : scan .permissive "]".utf8 =
      .ok [{ kind := .rightBracket, lexeme := "]".utf8, location := ⟨⟨0, 1⟩, ⟨1, 1⟩⟩ },
        { kind := .endOfInput, location := ⟨⟨1, 1⟩, ⟨1, 2⟩⟩ }] := by cbv
  have hquote : scan .permissive "'".utf8 = .error ⟨⟨1, 1⟩, .unclosedQuote⟩ := by cbv
  constructor
  · have hjoined := (scan_append_line .permissive _ "]".utf8 _ _ hfront).2
    rw [hmore] at hjoined
    exact hjoined
  · have hjoined := (scan_append_line .permissive _ "'".utf8 _ _ hfront).2
    rw [hquote] at hjoined
    exact hjoined

end RelaxedJson
