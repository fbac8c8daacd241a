-- SUMMARY: Parsing undoes writing, and what was parsed can be written and parsed again.
import RelaxedJson.Proofs.Grammar.Acceptance
import RelaxedJson.Proofs.Value.Reading
import RelaxedJson.Proofs.Value.Writing

/-!
# Round trips

The JSON text of a value parses to the value itself, up to the bytes that are no UTF-8, whatever the
dialect, unless two keys of an object become the same that way (`parse_json_iff`). A value that was
parsed from well-formed text has all that this needs, so its text is strict JSON for the same value.
-/

namespace RelaxedJson

namespace Value

/-- The text of a value has a derivation of the sanitised value, without trailing commas. -/
theorem exists_tree_json (d : Dialect) {v : Value} (hfinite : v.All FiniteNumber) :
    ∃ (ts : List Token) (T : Tree), Token.scan d v.json = .ok ts ∧ T.tokens = Token.body ts ∧
      T.value = v.sanitise ∧ T.hasTrailingComma = false := by
  have hnil : Extends d [] [] (fun ts => ts = []) := .nil trivial rfl
  obtain ⟨words, hspell, hfit, htokens⟩ := hnil.value v hfinite .nil
  obtain ⟨ts, before, ⟨T, -, ⟨hvalue, hstrict⟩, rfl, rfl⟩, hts⟩ := htokens []
  refine ⟨Layout.tokensFrom d [] words, T, ?_, ?_, hvalue, hstrict⟩
  · have hlayout : (Layout.mk [] words).Fits d := ⟨.nil, hfit⟩
    have htext : (Layout.mk [] words).text = v.json := hspell
    rw [← htext]
    exact Token.scan_of_layout hlayout
  · rw [hts, List.append_nil, Token.body_append T.kind_ne_end]
    intro t ht
    cases ht
    rfl

/-- The text of a value is read back as the sanitised value, unless that has a key twice. -/
theorem parse_json_iff {d : Dialect} {v w : Value} (hfinite : v.All FiniteNumber)
    (hdepth : v.depth ≤ d.depthLimit) :
    parse d v.json = .ok w ↔ v.sanitise.DistinctKeys ∧ w = v.sanitise := by
  obtain ⟨ts, T, hscan, hbody, hvalue, hstrict⟩ := exists_tree_json d hfinite
  constructor
  · intro h
    obtain ⟨ts', T', hscan', hT', hbody', rfl⟩ := tree_of_parse h
    rw [hscan] at hscan'
    cases hscan'
    have htokens : T'.tokens ++ [] = T.tokens ++ [] := by rw [hbody, hbody']
    obtain ⟨rfl, -⟩ := T'.tokens_append_inj T htokens
    exact ⟨hvalue ▸ hT'.keys, hvalue⟩
  · rintro ⟨hkeys, rfl⟩
    have hlimit : v.sanitise.depth ≤ d.depthLimit := by
      rw [sanitise, depth_mapTexts]
      exact hdepth
    have haccepted : T.Accepted d := ⟨by simp [hstrict], hvalue ▸ hkeys, hvalue ▸ hlimit⟩
    rw [parse_of_tree hscan haccepted hbody, hvalue]

theorem parse_json {d : Dialect} {v : Value} (hfinite : v.All FiniteNumber)
    (hkeys : v.sanitise.DistinctKeys) (hdepth : v.depth ≤ d.depthLimit) :
    parse d v.json = .ok v.sanitise :=
  (parse_json_iff hfinite hdepth).mpr ⟨hkeys, rfl⟩

/-- Parsing undoes writing: the text of a value whose numbers are finite, whose keys stay distinct
    and which does not nest too deeply is read back, in every dialect. -/
theorem parse_json_eq_ok (d : Dialect) (v : Value) (hfinite : v.All FiniteNumber)
    (hkeys : v.All fun u => (u.keys.map Bytes.sanitise).Nodup) (hdepth : v.depth ≤ d.depthLimit) :
    parse d v.json = .ok v.sanitise ∧ (v.All Utf8Texts → parse d v.json = .ok v) := by
  have hparse := parse_json hfinite (distinctKeys_mapTexts v hkeys) hdepth
  refine ⟨hparse, fun hutf8 => ?_⟩
  rw [hparse, sanitise, sanitise_of_utf8Texts v hutf8]

/-- A value with a key that is no UTF-8, a negative zero, and characters to escape. -/
def sample : Value :=
  .object [([0xFF], .array [.number ⟨0x8000000000000000⟩, .string [0x1F, 0x22], .null])]

theorem parse_json_sample :
    parse .permissive sample.json =
      .ok (.object [(Bytes.sanitise [0xFF],
        .array [.number ⟨0x8000000000000000⟩, .string (Bytes.sanitise [0x1F, 0x22]), .null])]) := by
  have hfinite : sample.All FiniteNumber := by
    simp only [sample, All, AllMembers, AllElements, FiniteNumber, true_and, and_true]
    decide
  have hkeys : sample.All fun u => (u.keys.map Bytes.sanitise).Nodup := by
    simp [sample, All, AllMembers, AllElements, keys]
  exact (parse_json_eq_ok .permissive sample hfinite hkeys (by decide)).1

/-- What is parsed from well-formed text has all that writing and parsing it again needs. -/
theorem writable_of_parse {d : Dialect} {text : Bytes} {v : Value} (hutf8 : text.isUtf8)
    (h : parse d text = .ok v) :
    v.All Writable ∧ v.DistinctKeys ∧ v.depth ≤ d.depthLimit := by
  obtain ⟨ts, T, hscan, hT, hbody, rfl⟩ := tree_of_parse h
  refine ⟨T.all_writable fun t ht => ?_, hT.keys, hT.depth⟩
  exact Token.clean_of_mem_scan hutf8 hscan (Token.mem_of_mem_body (hbody ▸ ht))

/-- What was parsed from well-formed text is read back in every dialect that nests as deeply. -/
theorem parse_json_of_depthLimit_le {d d' : Dialect} {text : Bytes} {v : Value}
    (hutf8 : text.isUtf8) (h : parse d text = .ok v) (hlimit : d.depthLimit ≤ d'.depthLimit) :
    parse d' v.json = .ok v := by
  obtain ⟨hwritable, hkeys, hdepth⟩ := writable_of_parse hutf8 h
  have hsanitise : v.sanitise = v :=
    sanitise_of_utf8Texts v (All.imp (fun _ hu => hu.2) v hwritable)
  have hfinite := All.imp (fun _ hu => hu.1) v hwritable
  rw [parse_json hfinite (hsanitise.symm ▸ hkeys) (hdepth.trans hlimit), hsanitise]

/-- Writing is faithful: what was parsed from well-formed text in any dialect is written as strict
    JSON for the same value. -/
theorem parse_json_of_parse (d : Dialect) (text : Bytes) (v : Value) (hutf8 : text.isUtf8)
    (h : parse d text = .ok v) (tab : Int) :
    parse { tabWidth := tab, maxDepth := d.maxDepth } v.json = .ok v := by
  have hlimit : d.depthLimit ≤ Dialect.depthLimit { tabWidth := tab, maxDepth := d.maxDepth } :=
    le_rfl
  exact parse_json_of_depthLimit_le hutf8 h hlimit

/-- All relaxations at once: a bare key, single quotes, a trailing comma and a comment. -/
theorem parse_json_of_relaxed :
    parse { tabWidth := 8, maxDepth := 2 } (object [("a".utf8, array [string "é".utf8])]).json =
      .ok (object [("a".utf8, array [string "é".utf8])]) :=
  parse_json_of_parse { Dialect.permissive with maxDepth := 2 }
    "\x7ba:['é',]\x7d//".utf8 _ (by decide +kernel) (by cbv) 8

/-! ## Texts that are not well-formed -/

theorem finite_of_parse {d : Dialect} {text : Bytes} {v : Value} (h : parse d text = .ok v) :
    v.All FiniteNumber ∧ v.depth ≤ d.depthLimit := by
  obtain ⟨ts, T, hscan, hT, hbody, rfl⟩ := tree_of_parse h
  refine ⟨T.all_finiteNumber fun t ht => ?_, hT.depth⟩
  exact Token.finiteLiteral_of_mem_scan hscan (Token.mem_of_mem_body (hbody ▸ ht))

/-- What was parsed from any text is written as strict JSON for the sanitised value, unless two keys
    of an object differ only in bytes that are no UTF-8: then it is written as a text that is
    rejected. -/
theorem parse_json_of_parse_iff (d : Dialect) (text : Bytes) (v : Value)
    (h : parse d text = .ok v) (tab : Int) (w : Value) :
    parse { tabWidth := tab, maxDepth := d.maxDepth } v.json = .ok w ↔
      v.sanitise.DistinctKeys ∧ w = v.sanitise := by
  obtain ⟨hfinite, hdepth⟩ := finite_of_parse h
  exact parse_json_iff hfinite hdepth

/-- One key is no UTF-8, and stays apart from the other one. -/
theorem parse_json_of_invalid_key :
    parse { tabWidth := 2, maxDepth := 1 } (object [([0xFF], null), ("a".utf8, null)]).json =
      .ok (object [(Bytes.sanitise [0xFF], null), (Bytes.sanitise "a".utf8, null)]) := by
  have hparse : parse { Dialect.permissive with maxDepth := 1 }
      ("\x7b'".utf8 ++ 0xFF :: "':null,a:null\x7d".utf8) =
        .ok (object [([0xFF], null), ("a".utf8, null)]) := by cbv
  have hkeys : (object [([0xFF], null), ("a".utf8, null)]).sanitise.DistinctKeys := by
    have hne : Bytes.sanitise [0xFF] ≠ Bytes.sanitise "a".utf8 := by decide +kernel
    simp [sanitise, mapTexts, mapMembers, DistinctKeys, All, AllMembers, keys, hne]
  exact (parse_json_of_parse_iff _ _ _ hparse 2 _).mpr ⟨hkeys, rfl⟩

/-- An object with two keys, of one byte each, that are written alike. -/
def clashing : Value :=
  .object [([0xFF], .null), ([0xFE], .null)]

/-- Keys that are written alike are accepted, but not what is written for them. -/
theorem parse_json_clashing :
    parse {} ("\x7b\"".utf8 ++ 0xFF :: "\":null,\"".utf8 ++ 0xFE :: "\":null\x7d".utf8) =
        .ok clashing ∧
      parse {} clashing.json =
        .error (.malformed ⟨⟨1, 16⟩, .duplicateKey (Bytes.sanitise [0xFF])⟩) :=
  ⟨by cbv, by cbv⟩

end Value

end RelaxedJson
