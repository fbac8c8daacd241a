-- SUMMARY: What a dialect demands of a derivation, said level by level as a parser checks it.
import RelaxedJson.Proofs.Grammar.Tree

/-!
# Accepted derivations, level by level

A parser meets a derivation from the outside: it knows how many brackets are open and which keys its
object has so far. `Tree.Allowed` says what it checks from there on, and `Tree.allowed_iff` that this
amounts to the three conditions on the whole derivation.
-/

namespace RelaxedJson

mutual

/-- The derivation is acceptable inside `depth` open brackets. -/
def Tree.Allowed (d : Dialect) (depth : Nat) : Tree → Prop
  | .scalar _             => True
  | .emptyArray _ _       => depth < d.depthLimit
  | .array _ first rest _ =>
    depth < d.depthLimit ∧ first.Allowed d (depth + 1) ∧ rest.Allowed d (depth + 1)
  | .emptyObject _ _      => depth < d.depthLimit
  | .object _ key _ first rest _ =>
    depth < d.depthLimit ∧ first.Allowed d (depth + 1) ∧ rest.Allowed d (depth + 1) [key.text]

def ElementsTail.Allowed (d : Dialect) (depth : Nat) : ElementsTail → Prop
  | .done                => True
  | .trailing _          => d.trailingCommas
  | .next _ element rest => element.Allowed d depth ∧ rest.Allowed d depth

/-- The rest of an object is acceptable behind members with the given keys. -/
def MembersTail.Allowed (d : Dialect) (depth : Nat) (keys : List Bytes) : MembersTail → Prop
  | .done                    => True
  | .trailing _              => d.trailingCommas
  | .next _ key _ value rest =>
    key.text ∉ keys ∧ value.Allowed d depth ∧ rest.Allowed d depth (key.text :: keys)

end

/-- Values of the depth `n` fit into `depth` open brackets. Scalars always do. -/
def Dialect.Fits (d : Dialect) (depth n : Nat) : Prop :=
  n = 0 ∨ depth + n ≤ d.depthLimit

theorem Dialect.fits_bracket {d : Dialect} {depth n : Nat} :
    d.Fits depth (1 + n) ↔ depth < d.depthLimit ∧ d.Fits (depth + 1) n := by
  unfold Fits
  omega

theorem Dialect.fits_max {d : Dialect} {depth m n : Nat} :
    d.Fits depth (max m n) ↔ d.Fits depth m ∧ d.Fits depth n := by
  unfold Fits
  omega

mutual

theorem Tree.allowed_iff_fits (d : Dialect) (depth : Nat) (T : Tree) :
    T.Allowed d depth ↔
      (T.hasTrailingComma → d.trailingCommas) ∧ T.value.DistinctKeys ∧
        d.Fits depth T.value.depth := by
  cases T with
  | scalar s =>
    have hs : s.value.DistinctKeys ∧ s.value.depth = 0 := by
      obtain ⟨t, v, hv⟩ := s
      unfold Token.value? at hv
      split at hv <;> cases hv <;>
        simp [Value.DistinctKeys, Value.All, Value.keys, Value.depth]
    simp [Tree.Allowed, Tree.hasTrailingComma, Tree.value, hs, Dialect.Fits]
  | emptyArray l r =>
    simp [Tree.Allowed, Tree.hasTrailingComma, Tree.value, Value.DistinctKeys, Value.All,
      Value.AllElements, Value.keys, Value.depth, Value.elementsDepth, Dialect.Fits]
  | array l first rest r =>
    have hfirst := Tree.allowed_iff_fits d (depth + 1) first
    have hrest := ElementsTail.allowed_iff_fits d (depth + 1) rest
    simp only [Tree.Allowed, hfirst, hrest, Tree.hasTrailingComma, Tree.value, Value.DistinctKeys,
      Value.All, Value.AllElements, Value.keys, List.nodup_nil, Value.depth, Value.elementsDepth,
      Dialect.fits_bracket, Dialect.fits_max, Bool.or_eq_true]
    grind
  | emptyObject l r =>
    simp [Tree.Allowed, Tree.hasTrailingComma, Tree.value, Value.DistinctKeys, Value.All,
      Value.AllMembers, Value.keys, Value.depth, Value.membersDepth, Dialect.Fits]
  | object l key colon first rest r =>
    have hfirst := Tree.allowed_iff_fits d (depth + 1) first
    have hrest := MembersTail.allowed_iff_fits d (depth + 1) [key.text] rest
    simp only [Tree.Allowed, hfirst, hrest, Tree.hasTrailingComma, Tree.value, Value.DistinctKeys,
      Value.All, Value.AllMembers, Value.keys, List.map_cons, List.nodup_cons, Value.depth,
      Value.membersDepth, Dialect.fits_bracket, Dialect.fits_max, Bool.or_eq_true]
    grind

theorem ElementsTail.allowed_iff_fits (d : Dialect) (depth : Nat) (E : ElementsTail) :
    E.Allowed d depth ↔
      (E.hasTrailingComma → d.trailingCommas) ∧ Value.AllElements (·.keys.Nodup) E.values ∧
        d.Fits depth (Value.elementsDepth E.values) := by
  cases E with
  | done =>
    simp [ElementsTail.Allowed, ElementsTail.hasTrailingComma, ElementsTail.values,
      Value.AllElements, Value.elementsDepth, Dialect.Fits]
  | trailing comma =>
    simp [ElementsTail.Allowed, ElementsTail.hasTrailingComma, ElementsTail.values,
      Value.AllElements, Value.elementsDepth, Dialect.Fits]
  | next comma element rest =>
    have helement := Tree.allowed_iff_fits d depth element
    have hrest := ElementsTail.allowed_iff_fits d depth rest
    simp only [ElementsTail.Allowed, helement, hrest, ElementsTail.hasTrailingComma,
      ElementsTail.values, Value.DistinctKeys, Value.AllElements, Value.elementsDepth,
      Dialect.fits_max, Bool.or_eq_true]
    grind

theorem MembersTail.allowed_iff_fits (d : Dialect) (depth : Nat) (keys : List Bytes)
    (M : MembersTail) :
    M.Allowed d depth keys ↔
      (M.hasTrailingComma → d.trailingCommas) ∧ Value.AllMembers (·.keys.Nodup) M.members ∧
        (M.members.map Prod.fst).Nodup ∧ (∀ k ∈ M.members.map Prod.fst, k ∉ keys) ∧
        d.Fits depth (Value.membersDepth M.members) := by
  cases M with
  | done =>
    simp [MembersTail.Allowed, MembersTail.hasTrailingComma, MembersTail.members,
      Value.AllMembers, Value.membersDepth, Dialect.Fits]
  | trailing comma =>
    simp [MembersTail.Allowed, MembersTail.hasTrailingComma, MembersTail.members,
      Value.AllMembers, Value.membersDepth, Dialect.Fits]
  | next comma key colon value rest =>
    have hvalue := Tree.allowed_iff_fits d depth value
    have hrest := MembersTail.allowed_iff_fits d depth (key.text :: keys) rest
    simp only [MembersTail.Allowed, hvalue, hrest, MembersTail.hasTrailingComma,
      MembersTail.members, Value.DistinctKeys, Value.AllMembers, Value.membersDepth,
      Dialect.fits_max, Bool.or_eq_true, List.map_cons, List.nodup_cons]
    grind

end

/-- What is checked level by level, from no open bracket on, is what is demanded of the whole. -/
theorem Tree.allowed_iff {d : Dialect} {T : Tree} : T.Allowed d 0 ↔ T.Accepted d := by
  have hfits : d.Fits 0 T.value.depth ↔ T.value.depth ≤ d.depthLimit := by
    unfold Dialect.Fits
    omega
  rw [Tree.allowed_iff_fits, hfits]
  constructor
  · rintro ⟨htrailing, hkeys, hdepth⟩
    exact ⟨htrailing, hkeys, hdepth⟩
  · rintro ⟨htrailing, hkeys, hdepth⟩
    exact ⟨htrailing, hkeys, hdepth⟩

end RelaxedJson
