-- SUMMARY: Paths compose, and lead to every part of a parsed value.
import RelaxedJson.Proofs.Grammar.Acceptance
import RelaxedJson.Value.Path

/-!
# Paths

A path goes through its first half and then through its second (`Value.walk_append`), and one that
fails is back where it started. In a value without repeated keys the keys and indices on the way to a
part lead to it (`Value.Leads.walk`), also where an index counts from the end of its array.
-/

namespace RelaxedJson

namespace Value

/-! ## Offsets -/

section

variable {n : Nat} {i : Int}

/-- An index is an offset, or the distance of one from the end. -/
theorem offset?_eq_some_iff {j : Nat} :
    offset? n i = some j ↔ j < n ∧ (i = j ∨ i = (j : Int) - n) := by
  simp only [offset?]
  split <;> rw [Option.ite_none_right_eq_some, Option.some.injEq] <;> omega

theorem offset?_eq_none_iff : offset? n i = none ↔ i < -n ∨ (n : Int) ≤ i := by
  simp only [offset?]
  split <;> simp only [ite_eq_right_iff, reduceCtorEq, imp_false] <;> omega

end

/-- The offset that an index means, where both it and the length are words of 64 bits. -/
def wordOffset? (n i : Int64) : Option Nat :=
  let j := if i < 0 then i + n else i
  if 0 ≤ j ∧ j < n then some j.toInt.toNat else none

/-- A negative index added to a length does not leave the range of words. -/
theorem wordOffset?_eq {n i : Int64} (hn : 0 ≤ n) :
    wordOffset? n i = offset? n.toInt.toNat i.toInt := by
  have hlength : 0 ≤ n.toInt := Int64.le_iff_toInt_le.mp hn
  have hlow := i.le_toInt
  have hhigh := n.toInt_lt
  have hadd : i.toInt < 0 → (i + n).toInt = i.toInt + n.toInt := by
    intro hneg
    rw [Int64.toInt_add, Int.bmod_eq_of_le] <;> omega
  have hzero : (0 : Int64).toInt = 0 := rfl
  simp only [wordOffset?, offset?, Int64.lt_iff_toInt_lt, Int64.le_iff_toInt_le, hzero]
  split
  · rename_i hneg
    rw [hadd hneg, Int.toNat_of_nonneg hlength]
  · rw [Int.toNat_of_nonneg hlength]

/-! ## Steps -/

section

variable {ε : Type}

theorem step_of_offset? {vs : List Value} {i : Int} {j : Nat} {w : Value}
    (hoffset : offset? vs.length i = some j) (h : vs[j]? = some w) :
    (array vs).step (.index i : PathStep ε) = .ok w := by
  simp only [step, hoffset, Option.bind_some, h]

theorem step_index {vs : List Value} {i : Nat} {w : Value} (h : vs[i]? = some w) :
    (array vs).step (.index i : PathStep ε) = .ok w := by
  have hlt : i < vs.length := (List.getElem?_eq_some_iff.mp h).1
  exact step_of_offset? (offset?_eq_some_iff.mpr ⟨hlt, .inl rfl⟩) h

/-- An index may count from the end. -/
theorem step_indexFromEnd {vs : List Value} {i : Nat} {w : Value} (h : vs[i]? = some w) :
    (array vs).step (.index (i - vs.length) : PathStep ε) = .ok w := by
  have hlt : i < vs.length := (List.getElem?_eq_some_iff.mp h).1
  exact step_of_offset? (offset?_eq_some_iff.mpr ⟨hlt, .inr rfl⟩) h

theorem step_outOfBounds {vs : List Value} {i : Int} (h : i < -vs.length ∨ (vs.length : Int) ≤ i) :
    (array vs).step (.index i : PathStep ε) = .error (.outOfBounds i vs.length) := by
  simp only [step, offset?_eq_none_iff.mpr h, Option.bind_none]

/-- A step by a key leads to the one member that has it. -/
theorem step_key {ms : List (Bytes × Value)} (hkeys : (ms.map Prod.fst).Nodup)
    {k : Bytes} {w : Value} (h : (k, w) ∈ ms) : (object ms).step (.key k : PathStep ε) = .ok w := by
  have hfind : ms.find? (·.1 = k) = some (k, w) := by
    induction ms with
    | nil => cases h
    | cons m ms ih =>
      obtain ⟨hm, hms⟩ := List.nodup_cons.mp hkeys
      rcases List.mem_cons.mp h with rfl | h
      · simp
      · have hne : m.1 ≠ k := fun heq => hm (heq ▸ List.mem_map_of_mem h)
        rw [List.find?_cons_of_neg (by simpa using hne), ih hms h]
  simp only [step, hfind]

/-! ## Walks -/

variable {v w : Value} {p q : List (PathStep ε)} {e : PathError ε}

theorem walk_cons {s : PathStep ε} (h : v.step s = .ok w) (path : List (PathStep ε)) :
    v.walk (s :: path) = w.walk path := by
  rw [walk, h]

theorem walk_append (v : Value) (p q : List (PathStep ε)) :
    v.walk (p ++ q) = (v.walk p).bind fun w => w.walk q := by
  induction p generalizing v with
  | nil => rfl
  | cons s p ih =>
    rw [List.cons_append, walk, walk]
    cases v.step s with
    | error e => rfl
    | ok w => exact ih w

theorem walk_append_of_error (h : v.walk p = .error e) (q : List (PathStep ε)) :
    v.walk (p ++ q) = .error e := by
  rw [walk_append, h]
  rfl

theorem walk_append_of_ok (h : v.walk p = .ok w) (q : List (PathStep ε)) :
    v.walk (p ++ q) = w.walk q := by
  rw [walk_append, h]
  rfl

theorem path_eq_ok_iff : v.path p = (w, none) ↔ v.walk p = .ok w := by
  unfold path
  cases v.walk p <;> simp

/-- A path that fails leads back to the value it started from. -/
theorem path_eq_error_iff : v.path p = (w, some e) ↔ v.walk p = .error e ∧ w = v := by
  unfold path
  cases v.walk p <;> simp [eq_comm, and_comm]

/-! ## The way to a part -/

/-- The steps lead down from a value to a part of it, one step for each object or array on the way:
    the key of the member, or the index of the element, counted from the front or from the end. -/
inductive Leads : Value → List (PathStep ε) → Value → Prop where
  | here {v : Value} : Leads v [] v
  | member {ms : List (Bytes × Value)} {k : Bytes} {v u : Value} {steps : List (PathStep ε)} :
      (k, v) ∈ ms → Leads v steps u → Leads (.object ms) (.key k :: steps) u
  | element {vs : List Value} {i : Nat} {v u : Value} {steps : List (PathStep ε)} :
      vs[i]? = some v → Leads v steps u → Leads (.array vs) (.index i :: steps) u
  | elementFromEnd {vs : List Value} {i : Nat} {v u : Value} {steps : List (PathStep ε)} :
      vs[i]? = some v → Leads v steps u → Leads (.array vs) (.index (i - vs.length) :: steps) u

/-- The way to a part is a path to it, if no key on it is ambiguous. -/
theorem Leads.walk {u : Value} (h : v.Leads p u) (hv : v.DistinctKeys) : v.walk p = .ok u := by
  induction h with
  | here => rfl
  | member hmem _ ih =>
    rw [walk_cons (step_key hv.1 hmem)]
    exact ih (allMembers_iff.mp hv.2 _ hmem)
  | element hi _ ih =>
    rw [walk_cons (step_index hi)]
    exact ih (allElements_iff.mp hv.2 _ (List.mem_of_getElem? hi))
  | elementFromEnd hi _ ih =>
    rw [walk_cons (step_indexFromEnd hi)]
    exact ih (allElements_iff.mp hv.2 _ (List.mem_of_getElem? hi))

end

theorem distinctKeys_of_parse {d : Dialect} {text : Bytes} {v : Value} (h : parse d text = .ok v) :
    v.DistinctKeys := by
  obtain ⟨-, T, -, hT, -, rfl⟩ := tree_of_parse h
  exact hT.keys

/-- A path that fails is back where it started and stays there, whatever is put behind it. One that
    leads somewhere goes on from there, except that a later failure leads back to the start. In what
    was parsed the keys and indices on the way to a part lead to it. An index into an array that is
    neither an offset nor counts one from the end always fails. Words of 64 bits are wide enough to
    tell. -/
theorem path_composes (ε : Type) :
    (∀ (v u : Value) (p : List (PathStep ε)) (e : PathError ε), v.path p = (u, some e) →
      u = v ∧ ∀ q, v.path (p ++ q) = (v, some e)) ∧
    (∀ (v w : Value) (p : List (PathStep ε)), v.path p = (w, none) →
      ∀ q u, (w.path q = (u, none) → v.path (p ++ q) = (u, none)) ∧
        ∀ e, w.path q = (u, some e) → v.path (p ++ q) = (v, some e)) ∧
    (∀ (d : Dialect) (text : Bytes) (v : Value), parse d text = .ok v →
      ∀ (p : List (PathStep ε)) (u : Value), v.Leads p u → v.path p = (u, none)) ∧
    (∀ (v : Value) (p : List (PathStep ε)) (vs : List Value), v.path p = (.array vs, none) →
      ∀ i : Int, i < -vs.length ∨ (vs.length : Int) ≤ i →
        ∀ q, v.path (p ++ .index i :: q) = (v, some (.outOfBounds i vs.length))) ∧
    ∀ n i : Int64, 0 ≤ n → wordOffset? n i = offset? n.toInt.toNat i.toInt := by
  refine ⟨?_, ?_, ?_, ?_, fun n i => wordOffset?_eq⟩
  · intro v u p e h
    obtain ⟨hwalk, rfl⟩ := path_eq_error_iff.mp h
    exact ⟨rfl, fun q => path_eq_error_iff.mpr ⟨walk_append_of_error hwalk q, rfl⟩⟩
  · intro v w p h q u
    have happend := walk_append_of_ok (path_eq_ok_iff.mp h) q
    refine ⟨fun hq => ?_, fun e hq => ?_⟩
    · exact path_eq_ok_iff.mpr (happend.trans (path_eq_ok_iff.mp hq))
    · exact path_eq_error_iff.mpr ⟨happend.trans (path_eq_error_iff.mp hq).1, rfl⟩
  · intro d text v h p u hp
    exact path_eq_ok_iff.mpr (hp.walk (distinctKeys_of_parse h))
  · intro v p vs h i hi q
    refine path_eq_error_iff.mpr ⟨?_, rfl⟩
    rw [walk_append_of_ok (path_eq_ok_iff.mp h), walk, step_outOfBounds hi]

/-- An array in an array in an object. -/
def nestedSample : Value :=
  .object [("a".utf8, .array [.null, .array []])]

theorem path_composes_nested :
    parse .strict "\x7b\"a\":[null,[]]\x7d".utf8 = .ok nestedSample ∧
    nestedSample.path ([.key "a".utf8, .index 0] : List (PathStep Empty)) = (.null, none) ∧
    nestedSample.path ([.key "a".utf8, .index (-1)] : List (PathStep Empty)) = (.array [], none) ∧
    nestedSample.path ([.key "a".utf8, .index (-1), .index (-1)] : List (PathStep Empty)) =
      (nestedSample, some (.outOfBounds (-1) 0)) := by
  obtain ⟨-, -, hleads, hbounds, -⟩ := path_composes Empty
  have htext : parse .strict "\x7b\"a\":[null,[]]\x7d".utf8 = .ok nestedSample := by cbv
  have hlast : nestedSample.path ([.key "a".utf8, .index (-1)] : List (PathStep Empty)) =
      (.array [], none) :=
    hleads _ _ _ htext _ _ (.member List.mem_cons_self (.elementFromEnd (i := 1) rfl .here))
  refine ⟨htext, ?_, hlast, ?_⟩
  · exact hleads _ _ _ htext _ _ (.member List.mem_cons_self (.element (i := 0) rfl .here))
  · exact hbounds _ _ _ hlast (-1) (.inl (by decide)) []

end Value

end RelaxedJson
