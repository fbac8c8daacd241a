-- SUMMARY: However a text is spaced, it has the same values and the same fault.
import RelaxedJson.Proofs.Lexical.Separators
import RelaxedJson.Proofs.Value.Relocation

/-!
# Spacing

Spacing the tokens of a text in another way changes nothing but their places (`Token.scan_spaced`).
To put all tokens in one place is a relocation, so what is read from them is the same up to the
places of faults (`Value.parse_spaced`).
-/

namespace RelaxedJson

/-! ## Without places -/

/-- Puts everything at the start of the text. -/
def Relocation.nowhere : Relocation where
  location _ := .origin
  position _ := .origin
  position_location _ := rfl
  location_origin := rfl

/-- A fault that may be anywhere. -/
def SyntaxError.unplaced (e : SyntaxError) : SyntaxError :=
  { e with position := .origin }

def BuildError.unplaced : BuildError → BuildError
  | .unknownValue t => .unknownValue t.unplaced
  | e               => e

/-- A failure without its place, where `forget` takes the places out of a handler's failures. -/
def ParseFailure.unplaced {ε : Type} (forget : ε → ε) : ParseFailure ε → ParseFailure ε
  | .malformed e => .malformed e.unplaced
  | .refused e   => .refused (forget e)
  | .exhausted   => .exhausted

def ReadFailure.unplaced : ReadFailure → ReadFailure :=
  ParseFailure.unplaced BuildError.unplaced

theorem ReadFailure.relocated_nowhere : ReadFailure.relocated .nowhere = ReadFailure.unplaced := by
  funext f
  cases f with
  | malformed e => rfl
  | refused e => cases e <;> rfl
  | exhausted => rfl

/-! ## Texts -/

namespace Value

section

variable {d : Dialect} {text text' : Bytes} {ts us : List Token}

theorem agree_of_unplaced (hscan : Token.scan d text = .ok ts)
    (hscan' : Token.scan d text' = .ok us)
    (hus : us.map Token.unplaced = ts.map Token.unplaced) :
    Token.AgreeUpTo .nowhere (Token.scan d text) (Token.scan d text') := by
  rw [hscan, hscan']
  exact .ok hus

/-- Texts with the same tokens apart from their places have the same value or the same fault. -/
theorem parse_of_unplaced (hscan : Token.scan d text = .ok ts)
    (hscan' : Token.scan d text' = .ok us)
    (hus : us.map Token.unplaced = ts.map Token.unplaced) :
    (parse d text').mapError ReadFailure.unplaced =
      (parse d text).mapError ReadFailure.unplaced := by
  rw [← ReadFailure.relocated_nowhere]
  exact parse_of_agree rfl (agree_of_unplaced hscan hscan' hus)

theorem parseAll_of_unplaced (hscan : Token.scan d text = .ok ts)
    (hscan' : Token.scan d text' = .ok us)
    (hus : us.map Token.unplaced = ts.map Token.unplaced) :
    (parseAll d text').1 = (parseAll d text).1 ∧
      (parseAll d text').2.map ReadFailure.unplaced =
        (parseAll d text).2.map ReadFailure.unplaced := by
  rw [← ReadFailure.relocated_nowhere]
  exact parseAll_of_agree rfl (agree_of_unplaced hscan hscan' hus)

theorem valid_of_unplaced
    (h : (parse d text').mapError ReadFailure.unplaced =
      (parse d text).mapError ReadFailure.unplaced) : valid d text' = valid d text :=
  valid_of_mapError_parse h

end

/-- The spacing of a text does not matter: when its tokens are written down with other separators,
    the scanner finds the same tokens, and all that is read from them is the same, apart from the
    places of errors. -/
theorem parse_spaced (d : Dialect) (text lead : Bytes) (parts : List (Token × Bytes)) (last : Token)
    (hscan : Token.scan d text = .ok (parts.map Prod.fst ++ [last]))
    (hlead : Separator d lead) (hseparators : ∀ part ∈ parts, Separator d part.2)
    (hbetween : ∀ part ∈ parts.dropLast, part.2 ≠ []) :
    let text' := Token.spaced lead parts
    (∃ us, Token.scan d text' = .ok us ∧
      us.map Token.unplaced = (parts.map Prod.fst ++ [last]).map Token.unplaced) ∧
    (parse d text').mapError ReadFailure.unplaced = (parse d text).mapError ReadFailure.unplaced ∧
    (parseAll d text').1 = (parseAll d text).1 ∧
    (parseAll d text').2.map ReadFailure.unplaced = (parseAll d text).2.map ReadFailure.unplaced ∧
    valid d text' = valid d text := by
  obtain ⟨us, hscan', hus⟩ := Token.scan_spaced hscan hlead hseparators hbetween
  have hparse := parse_of_unplaced hscan hscan' hus
  have hall := parseAll_of_unplaced hscan hscan' hus
  exact ⟨⟨us, hscan', hus⟩, hparse, hall.1, hall.2, valid_of_unplaced hparse⟩

/-- The tokens of `[,]` with separators behind them: a line comment with its line feed, a block
    comment and a space. -/
def spacedSample : List (Token × Bytes) :=
  [({ kind := .leftBracket, lexeme := "[".utf8, location := ⟨⟨0, 1⟩, ⟨1, 1⟩⟩ },
      ['/'.ascii, '/'.ascii, '\n'.ascii]),
   ({ kind := .comma, lexeme := ",".utf8, location := ⟨⟨1, 2⟩, ⟨1, 2⟩⟩ },
      ['/'.ascii, '*'.ascii, '*'.ascii, '/'.ascii]),
   ({ kind := .rightBracket, lexeme := "]".utf8, location := ⟨⟨2, 3⟩, ⟨1, 3⟩⟩ }, [' '.ascii])]

theorem separator_of_mem_spacedSample {d : Dialect} (hd : d.comments) :
    ∀ part ∈ spacedSample, Separator d part.2 := by
  have hline : Separator d ['/'.ascii, '/'.ascii, '\n'.ascii] :=
    @Separator.line d [] [] hd (List.forall_mem_nil _) .nil
  simp only [spacedSample, List.forall_mem_cons]
  exact ⟨hline, .block hd .close .nil, .space (by decide) .nil, List.forall_mem_nil _⟩

/-- The comma is a fault in either spacing, though not in the same place. -/
theorem parse_spaced_missing_value :
    parse { comments := true } "[,]".utf8 = .error (.malformed ⟨⟨1, 2⟩, .expectedValue .comma⟩) ∧
    (parse { comments := true } "[//\n,/**/] ".utf8).mapError ReadFailure.unplaced =
      .error (.malformed ⟨.origin, .expectedValue .comma⟩) := by
  have hparse : parse { comments := true } "[,]".utf8 =
      .error (.malformed ⟨⟨1, 2⟩, .expectedValue .comma⟩) := by cbv
  have hscan : Token.scan { comments := true } "[,]".utf8 =
      .ok (spacedSample.map Prod.fst ++
        [{ kind := .endOfInput, location := ⟨⟨3, 3⟩, ⟨1, 4⟩⟩ }]) := by cbv
  have hspaced := parse_spaced _ _ _ _ _ hscan .nil (separator_of_mem_spacedSample rfl) (by decide)
  refine ⟨hparse, ?_⟩
  rw [hparse] at hspaced
  exact hspaced.2.1

end Value

end RelaxedJson
