-- SUMMARY: The YAML nodes of a value determine it up to the sign of zero.
import RelaxedJson.Proofs.Lexical.Pieces
import RelaxedJson.Proofs.Number.Whole
import RelaxedJson.Proofs.Value.Shape

/-!
# Values behind YAML nodes

The nodes of a document are all of one type: a mapping has its keys and values in turn as children,
and a scalar says by its tag what it is. Nothing about a value is lost in them but the sign of zero,
which whole numbers do not show. The proof reads the nodes back (`Yaml.Tree.value?`).
-/

namespace RelaxedJson

/-! ## Zero -/

namespace Binary64

/-- The zero with a minus sign. -/
def negativeZero : Binary64 := ⟨0x8000000000000000⟩

/-- The number without the sign of a zero. -/
def unsignedZero (x : Binary64) : Binary64 :=
  if x = negativeZero then ⟨0⟩ else x

/-- Nothing but the two zeros is of magnitude zero. -/
theorem unsignedZero_of_magnitude_eq_zero {x : Binary64} (h : x.magnitude = 0) :
    x.unsignedZero = ⟨0⟩ := by
  have hsignificand : x.significand = 0 := by
    rcases Nat.mul_eq_zero.mp h with h | h
    · exact h
    · exact absurd h (Nat.two_pow_pos _).ne'
  have hscale : x.scale = 0 := by
    by_contra hpos
    have hle := le_significand (Nat.pos_of_ne_zero hpos)
    omega
  have hbits := x.bits_eq
  have hlow : x.lowBits = 0 := by rw [lowBits, hsignificand, hscale, Nat.zero_mul]
  rw [hlow] at hbits
  unfold unsignedZero
  split
  · rfl
  · rename_i hne
    cases hnegative : x.negative with
    | false =>
      rw [hnegative] at hbits
      exact congrArg mk (UInt64.toNat_inj.mp hbits)
    | true =>
      rw [hnegative] at hbits
      exact absurd (congrArg mk (UInt64.toNat_inj.mp hbits)) hne

theorem unsignedZero_of_magnitude_ne_zero {x : Binary64} (h : x.magnitude ≠ 0) :
    x.unsignedZero = x := by
  have hne : x ≠ negativeZero := by
    rintro rfl
    exact h (by decide)
  rw [unsignedZero, if_neg hne]

end Binary64

namespace Value

mutual

/-- The value with `f` applied to all numbers. -/
def mapNumbers (f : Binary64 → Binary64) : Value → Value
  | .number x  => .number (f x)
  | .array vs  => .array (mapElementNumbers f vs)
  | .object ms => .object (mapMemberNumbers f ms)
  | v          => v

/-- The elements of an array with `f` applied to all numbers. -/
def mapElementNumbers (f : Binary64 → Binary64) : List Value → List Value
  | []      => []
  | v :: vs => v.mapNumbers f :: mapElementNumbers f vs

/-- The members of an object with `f` applied to all numbers. -/
def mapMemberNumbers (f : Binary64 → Binary64) : List (Bytes × Value) → List (Bytes × Value)
  | []           => []
  | (k, v) :: ms => (k, v.mapNumbers f) :: mapMemberNumbers f ms

end

/-- The value without the signs of its zeros. -/
def unsignedZeros (v : Value) : Value :=
  v.mapNumbers Binary64.unsignedZero

end Value

/-! ## Numerals -/

/-- The numeral of an integer. -/
def Numeral.ofInt (i : Int) : Numeral where
  minus := i < 0
  whole := ⟨Nat.toDigits 10 i.natAbs, Nat.toDigits_ne_nil,
    fun _ hc => Nat.isDigit_of_mem_toDigits (by decide) (by decide) hc⟩
  fraction := none
  exponent := none

theorem Numeral.chars_ofInt (i : Int) : Bytes.ofAscii (Numeral.ofInt i).chars = Bytes.ofInt i := by
  by_cases hneg : i < 0
  · simp [Numeral.ofInt, Numeral.chars, Numeral.minusChars, Numeral.fractionChars,
      Numeral.exponentChars, Bytes.ofInt, Bytes.ofNat, Bytes.ofAscii, hneg]
  · simp [Numeral.ofInt, Numeral.chars, Numeral.minusChars, Numeral.fractionChars,
      Numeral.exponentChars, Bytes.ofInt, Bytes.ofNat, Bytes.ofAscii, hneg]

theorem Numeral.decimal_ofInt (i : Int) :
    (Numeral.ofInt i).decimal = ⟨i < 0, i.natAbs, 0⟩ := by
  have hdigits : Nat.ofDigitChars 10 (Nat.toDigits 10 i.natAbs ++ []) 0 = i.natAbs := by
    rw [List.append_nil, Nat.ofDigitChars_ten_toDigits]
  unfold Numeral.decimal Numeral.ofInt
  simp only [Numeral.fractionDigits, hdigits]
  rfl

theorem Numeral.chars_ofAscii (n : Numeral) : (Bytes.ofAscii n.chars).chars = n.chars := by
  rw [Bytes.chars, Rune.decode_ofAscii fun _ hc => lt_of_mem_chars hc, Lexeme.map_char_valid]

namespace Binary64

theorem truncate_eq (x : Binary64) :
    x.truncate = if x.negative then -((x.magnitude / 2 ^ 1074 : ℕ) : ℤ)
      else ((x.magnitude / 2 ^ 1074 : ℕ) : ℤ) := by
  have hpower : ((2 ^ 1074 : ℕ) : ℤ) = 2 ^ 1074 := by rw [Nat.cast_pow, Nat.cast_ofNat]
  rw [truncate, ← hpower, ← Int.natCast_ediv]

theorem natAbs_truncate (x : Binary64) : x.truncate.natAbs = x.magnitude / 2 ^ 1074 := by
  rw [truncate_eq]
  split
  · rw [Int.natAbs_neg, Int.natAbs_natCast]
  · rw [Int.natAbs_natCast]

theorem truncate_of_magnitude_eq_zero {x : Binary64} (h : x.magnitude = 0) : x.truncate = 0 := by
  rw [← Int.natAbs_eq_zero, natAbs_truncate, h, Nat.zero_div]

theorem isInt_of_magnitude_eq_zero {x : Binary64} (hfinite : x.isFinite) (h : x.magnitude = 0) :
    x.isInt := by
  have hvalue : x.toRat = (0 : ℤ) :=
    toRat_eq_intCast_iff.mpr ⟨by rw [h, Nat.zero_mod], truncate_of_magnitude_eq_zero h⟩
  exact isInt_iff_natAbs.mpr ⟨hfinite, 0, hvalue, by decide⟩

/-- Only a zero hides its sign. -/
theorem negative_iff_truncate_neg {x : Binary64} (h : x.truncate ≠ 0) :
    x.negative ↔ x.truncate < 0 := by
  rw [truncate_eq] at h ⊢
  generalize x.magnitude / 2 ^ 1074 = q at h ⊢
  split at h
  · rename_i hnegative
    rw [if_pos hnegative]
    exact iff_of_true hnegative (by omega)
  · rename_i hnegative
    rw [if_neg hnegative]
    exact iff_of_false hnegative (by omega)

/-- A whole number is read back from its integer, but for the sign of zero. -/
theorem ofNumeral_truncate {x : Binary64} (hfinite : x.isFinite)
    (hwhole : x.magnitude % 2 ^ 1074 = 0) :
    ofNumeral (Numeral.ofInt x.truncate).chars = .ok x.unsignedZero := by
  have hread : ∀ y : Binary64, y.isFinite → y.negative = decide (x.truncate < 0) →
      (RoundingInterval.ofBinary64 y).value = x.truncate.natAbs * RoundingInterval.unit →
      ofNumeral (Numeral.ofInt x.truncate).chars = .ok y := by
    intro y hy hnegative hvalue
    have hcontains := RoundingInterval.contains_whole hvalue
    rw [Numeral.ofNumeral_chars, Numeral.decimal_ofInt, ← hnegative,
      Decimal.toBinary64?_of_contains hy hcontains]
    rfl
  by_cases hzero : x.magnitude = 0
  · rw [unsignedZero_of_magnitude_eq_zero hzero]
    have htruncate := truncate_of_magnitude_eq_zero hzero
    refine hread ⟨0⟩ rfl ?_ ?_
    · rw [htruncate]
      rfl
    · rw [htruncate, Int.natAbs_zero, Nat.zero_mul]
      rfl
  · rw [unsignedZero_of_magnitude_ne_zero hzero]
    have hne : x.truncate ≠ 0 := by
      rw [← Int.natAbs_ne_zero, natAbs_truncate]
      intro hdiv
      exact hzero (Nat.eq_zero_of_dvd_of_div_eq_zero (Nat.dvd_of_mod_eq_zero hwhole) hdiv)
    refine hread x hfinite ?_ ?_
    · exact Bool.eq_iff_iff.mpr ((negative_iff_truncate_neg hne).trans decide_eq_true_iff.symm)
    · rw [natAbs_truncate, RoundingInterval.value_of_whole hwhole]

end Binary64

/-! ## Trees -/

namespace Yaml

/-- What a node of a document is. -/
inductive Kind where
  | scalar
  | sequence
  | mapping
  deriving DecidableEq, Repr

/-- A node as a document holds it. The children of a mapping are its keys and values in turn; only
    scalars have a text. -/
inductive Tree where
  | node (kind : Kind) (tag : String) (text : Bytes) (content : List Tree)

namespace Node

mutual

/-- The tree of a node. -/
def tree : Node → Tree
  | .scalar tag text => .node .scalar tag.text text []
  | .sequence items  => .node .sequence "!!seq" [] (itemTrees items)
  | .mapping entries => .node .mapping "!!map" [] (entryTrees entries)

/-- The trees of the items of a sequence. -/
def itemTrees : List Node → List Tree
  | []      => []
  | n :: ns => n.tree :: itemTrees ns

/-- The trees of the keys and values of a mapping. -/
def entryTrees : List (Bytes × Node) → List Tree
  | []           => []
  | (k, n) :: es => .node .scalar Tag.str.text k [] :: n.tree :: entryTrees es

end

/-- A finite number is read back from its text, but for the sign of zero. -/
theorem ofNumber_spec {x : Binary64} (hx : x.isFinite) :
    ∃ n : Numeral, Binary64.ofNumeral n.chars = .ok x.unsignedZero ∧
      (ofNumber x = .scalar .int (Bytes.ofAscii n.chars) ∨
        ofNumber x = .scalar .float (Bytes.ofAscii n.chars)) := by
  unfold ofNumber
  split
  · rename_i hint
    simp only [Binary64.isInt, Binary64.isIntegral, Bool.and_eq_true, decide_eq_true_eq] at hint
    refine ⟨.ofInt x.truncate, Binary64.ofNumeral_truncate hx hint.1.2, .inl ?_⟩
    rw [Numeral.chars_ofInt]
  · rename_i hint
    obtain ⟨n, htext, hread⟩ := Binary64.jsonText_spec hx
    have hne : x.magnitude ≠ 0 :=
      fun hzero => hint (Binary64.isInt_of_magnitude_eq_zero hx hzero)
    refine ⟨n, ?_, .inr ?_⟩
    · rw [Binary64.unsignedZero_of_magnitude_ne_zero hne, hread]
    · rw [htext]

/-- The sign of a zero does not show. -/
theorem ofNumber_unsignedZero (x : Binary64) : ofNumber x.unsignedZero = ofNumber x := by
  have hzeros : ∀ y : Binary64, y.isFinite → y.magnitude = 0 →
      ofNumber y = .scalar .int (Bytes.ofInt 0) := by
    intro y hy hzero
    rw [ofNumber, if_pos (Binary64.isInt_of_magnitude_eq_zero hy hzero),
      Binary64.truncate_of_magnitude_eq_zero hzero]
  unfold Binary64.unsignedZero
  split
  · rename_i hzero
    rw [hzero, hzeros ⟨0⟩ rfl (by decide), hzeros .negativeZero rfl (by decide)]
  · rfl

end Node

/-! ## Reading back -/

namespace Tree

/-- The scalar of a tag and a text. -/
def scalarValue? (tag : String) (text : Bytes) : Option Value :=
  if tag = Tag.str.text then some (.string text)
  else if tag = Tag.bool.text then some (.bool (text = "true".utf8))
  else if tag = Tag.null.text then some .null
  else (Binary64.ofNumeral text.chars).toOption.map .number

mutual

/-- The value that a tree holds. -/
def value? : Tree → Option Value
  | .node .scalar tag text _     => scalarValue? tag text
  | .node .sequence _ _ content => (elements? content).map .array
  | .node .mapping _ _ content  => (members? content).map .object

/-- The values that the children of a sequence hold. -/
def elements? : List Tree → Option (List Value)
  | []      => some []
  | t :: ts => do
    let v ← t.value?
    let vs ← elements? ts
    return v :: vs

/-- The members that the children of a mapping hold. -/
def members? : List Tree → Option (List (Bytes × Value))
  | .node .scalar _ k _ :: t :: ts => do
    let v ← t.value?
    let ms ← members? ts
    return (k, v) :: ms
  | [] => some []
  | _  => none

end

/-- The tree of a number holds the number, but for the sign of zero. -/
theorem value?_ofNumber {x : Binary64} (hx : x.isFinite) :
    (Node.ofNumber x).tree.value? = some (.number x.unsignedZero) := by
  obtain ⟨n, hread, hnode⟩ := Node.ofNumber_spec hx
  have hscalar : ∀ tag : Tag, tag = .int ∨ tag = .float →
      scalarValue? tag.text (Bytes.ofAscii n.chars) = some (.number x.unsignedZero) := by
    rintro tag (rfl | rfl)
    · simp [scalarValue?, Tag.text, Numeral.chars_ofAscii, hread, Except.toOption]
    · simp [scalarValue?, Tag.text, Numeral.chars_ofAscii, hread, Except.toOption]
  rcases hnode with hnode | hnode
  · rw [hnode, Node.tree, value?, hscalar _ (.inl rfl)]
  · rw [hnode, Node.tree, value?, hscalar _ (.inr rfl)]

end Tree

end Yaml

namespace Value

open Yaml (Node Tree)

mutual

/-- The tree of a value holds the value, but for the signs of its zeros. -/
theorem value?_tree_toYaml (v : Value) (h : v.All FiniteNumber) :
    v.toYaml.tree.value? = some v.unsignedZeros := by
  match v with
  | .null | .bool true | .bool false | .string _ => rfl
  | .number x => exact Tree.value?_ofNumber h
  | .array vs =>
    rw [toYaml, Node.tree, Tree.value?, elements?_itemTrees vs h.2]
    rfl
  | .object ms =>
    rw [toYaml, Node.tree, Tree.value?, members?_entryTrees ms h.2]
    rfl

theorem elements?_itemTrees (vs : List Value) (h : AllElements FiniteNumber vs) :
    Tree.elements? (Node.itemTrees (elementsToYaml vs)) =
      some (mapElementNumbers Binary64.unsignedZero vs) := by
  match vs with
  | [] => rfl
  | v :: vs =>
    rw [elementsToYaml, Node.itemTrees, Tree.elements?, value?_tree_toYaml v h.1,
      elements?_itemTrees vs h.2]
    rfl

theorem members?_entryTrees (ms : List (Bytes × Value)) (h : AllMembers FiniteNumber ms) :
    Tree.members? (Node.entryTrees (membersToYaml ms)) =
      some (mapMemberNumbers Binary64.unsignedZero ms) := by
  match ms with
  | [] => rfl
  | (k, v) :: ms =>
    rw [membersToYaml, Node.entryTrees, Tree.members?, value?_tree_toYaml v h.1,
      members?_entryTrees ms h.2]
    rfl

end

mutual

/-- The signs of zeros do not show. -/
theorem toYaml_unsignedZeros (v : Value) : v.unsignedZeros.toYaml = v.toYaml := by
  match v with
  | .null | .bool _ | .string _ => rfl
  | .number x => exact Node.ofNumber_unsignedZero x
  | .array vs => exact congrArg Node.sequence (elementsToYaml_unsignedZeros vs)
  | .object ms => exact congrArg Node.mapping (membersToYaml_unsignedZeros ms)

theorem elementsToYaml_unsignedZeros (vs : List Value) :
    elementsToYaml (mapElementNumbers Binary64.unsignedZero vs) = elementsToYaml vs := by
  match vs with
  | [] => rfl
  | v :: vs => exact congrArg₂ List.cons (toYaml_unsignedZeros v) (elementsToYaml_unsignedZeros vs)

theorem membersToYaml_unsignedZeros (ms : List (Bytes × Value)) :
    membersToYaml (mapMemberNumbers Binary64.unsignedZero ms) = membersToYaml ms := by
  match ms with
  | [] => rfl
  | (k, v) :: ms =>
    exact congrArg₂ List.cons (congrArg (k, ·) (toYaml_unsignedZeros v))
      (membersToYaml_unsignedZeros ms)

end

/-- Values of finite numbers have the same tree of YAML nodes exactly if they are the same but for the
    signs of their zeros, and the tree is enough to read that value back. -/
theorem toYaml_tree_eq_iff {v w : Value} (hv : v.All FiniteNumber) (hw : w.All FiniteNumber) :
    (v.toYaml.tree = w.toYaml.tree ↔ v.unsignedZeros = w.unsignedZeros) ∧
    v.toYaml.tree.value? = some v.unsignedZeros := by
  refine ⟨⟨fun h => ?_, fun h => ?_⟩, value?_tree_toYaml v hv⟩
  · have hread := congrArg Tree.value? h
    rw [value?_tree_toYaml v hv, value?_tree_toYaml w hw] at hread
    exact Option.some.inj hread
  · have hnodes := congrArg toYaml h
    rw [toYaml_unsignedZeros, toYaml_unsignedZeros] at hnodes
    rw [hnodes]

/-- A zero and a flag beside each other, the zero a second time under the same key. -/
def flaggedZero (zero : Binary64) (flag : Value) : Value :=
  .object [("a".utf8, .array [.number zero, flag]), ("a".utf8, .number zero)]

theorem toYaml_tree_eq_iff_flaggedZero :
    (flaggedZero ⟨0⟩ (.bool true)).toYaml.tree =
      (flaggedZero .negativeZero (.bool true)).toYaml.tree ∧
    (flaggedZero ⟨0⟩ (.bool true)).toYaml.tree ≠
      (flaggedZero ⟨0⟩ (.string "true".utf8)).toYaml.tree := by
  have hfinite : ∀ zero flag, zero.isFinite → flag.All FiniteNumber →
      (flaggedZero zero flag).All FiniteNumber :=
    fun zero flag hzero hflag => ⟨trivial, ⟨trivial, hzero, hflag, trivial⟩, hzero, trivial⟩
  have hflag := hfinite ⟨0⟩ (.bool true) rfl trivial
  constructor
  · exact (toYaml_tree_eq_iff hflag (hfinite .negativeZero (.bool true) rfl trivial)).1.mpr rfl
  · intro h
    have hsame := (toYaml_tree_eq_iff hflag (hfinite ⟨0⟩ (.string "true".utf8) rfl trivial)).1.mp h
    simp [flaggedZero, unsignedZeros, mapNumbers, mapMemberNumbers, mapElementNumbers] at hsame

end Value

end RelaxedJson
