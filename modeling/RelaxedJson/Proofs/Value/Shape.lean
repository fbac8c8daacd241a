-- SUMMARY: Properties of whole value trees: what holds everywhere in one, how deeply it nests, its texts.
import RelaxedJson.Proofs.Text.Decoding
import RelaxedJson.Value

/-!
# The shape of values

A property of single values extends to everything inside a value (`Value.All`); the texts of a value
are its strings and keys (`Value.mapTexts`); its depth counts nested brackets (`Value.depth`).
-/

namespace RelaxedJson

namespace Value

/-! ## Properties everywhere -/

mutual

/-- `p` holds of the value and of all values inside it. -/
def All (p : Value → Prop) : Value → Prop
  | .array vs  => p (.array vs) ∧ AllElements p vs
  | .object ms => p (.object ms) ∧ AllMembers p ms
  | v          => p v

/-- `p` holds everywhere in the elements of an array. -/
def AllElements (p : Value → Prop) : List Value → Prop
  | []      => True
  | v :: vs => v.All p ∧ AllElements p vs

/-- `p` holds everywhere in the members of an object. -/
def AllMembers (p : Value → Prop) : List (Bytes × Value) → Prop
  | []           => True
  | (_, v) :: ms => v.All p ∧ AllMembers p ms

end

mutual

theorem All.imp {p q : Value → Prop} (hpq : ∀ v, p v → q v) (v : Value) (h : v.All p) : v.All q := by
  match v with
  | .null | .bool _ | .number _ | .string _ => exact hpq _ h
  | .array vs => exact ⟨hpq _ h.1, AllElements.imp hpq vs h.2⟩
  | .object ms => exact ⟨hpq _ h.1, AllMembers.imp hpq ms h.2⟩

theorem AllElements.imp {p q : Value → Prop} (hpq : ∀ v, p v → q v) (vs : List Value)
    (h : AllElements p vs) : AllElements q vs := by
  match vs with
  | [] => trivial
  | v :: vs => exact ⟨All.imp hpq v h.1, AllElements.imp hpq vs h.2⟩

theorem AllMembers.imp {p q : Value → Prop} (hpq : ∀ v, p v → q v) (ms : List (Bytes × Value))
    (h : AllMembers p ms) : AllMembers q ms := by
  match ms with
  | [] => trivial
  | (k, v) :: ms => exact ⟨All.imp hpq v h.1, AllMembers.imp hpq ms h.2⟩

end

theorem All.self {p : Value → Prop} {v : Value} (h : v.All p) : p v := by
  cases v with
  | null | bool _ | number _ | string _ => exact h
  | array vs => exact h.1
  | object ms => exact h.1

mutual

/-- What holds everywhere in a value holds everywhere in what is inside. -/
theorem All.all {p : Value → Prop} (v : Value) (h : v.All p) : v.All fun u => u.All p := by
  match v with
  | .null | .bool _ | .number _ | .string _ => exact h
  | .array vs => exact ⟨h, AllElements.all vs h.2⟩
  | .object ms => exact ⟨h, AllMembers.all ms h.2⟩

theorem AllElements.all {p : Value → Prop} (vs : List Value) (h : AllElements p vs) :
    AllElements (fun u => u.All p) vs := by
  match vs with
  | [] => trivial
  | v :: vs => exact ⟨All.all v h.1, AllElements.all vs h.2⟩

theorem AllMembers.all {p : Value → Prop} (ms : List (Bytes × Value)) (h : AllMembers p ms) :
    AllMembers (fun u => u.All p) ms := by
  match ms with
  | [] => trivial
  | (k, v) :: ms => exact ⟨All.all v h.1, AllMembers.all ms h.2⟩

end

theorem allElements_iff {p : Value → Prop} {vs : List Value} :
    AllElements p vs ↔ ∀ v ∈ vs, v.All p := by
  induction vs with
  | nil => simp [AllElements]
  | cons v vs ih => rw [AllElements, ih, List.forall_mem_cons]

theorem allMembers_iff {p : Value → Prop} {ms : List (Bytes × Value)} :
    AllMembers p ms ↔ ∀ m ∈ ms, m.2.All p := by
  induction ms with
  | nil => simp [AllMembers]
  | cons m ms ih => rw [AllMembers, ih, List.forall_mem_cons]

/-- No object inside has a key twice. -/
def DistinctKeys (v : Value) : Prop :=
  v.All fun u => u.keys.Nodup

/-- The number that a value is, if it is one, is finite. -/
def FiniteNumber : Value → Prop
  | .number x => x.isFinite
  | _         => True

/-- The string or the keys of a value are well-formed. -/
def Utf8Texts : Value → Prop
  | .string s  => s.isUtf8
  | .object ms => ∀ m ∈ ms, m.1.isUtf8
  | _          => True

/-- Nothing in the value itself is lost when it is written and read back. -/
def Writable (v : Value) : Prop :=
  v.FiniteNumber ∧ v.Utf8Texts

/-! ## Depth -/

mutual

/-- How deeply arrays and objects nest: a scalar has depth zero. -/
def depth : Value → Nat
  | .array vs  => 1 + elementsDepth vs
  | .object ms => 1 + membersDepth ms
  | _          => 0

/-- The greatest depth of an element. -/
def elementsDepth : List Value → Nat
  | []      => 0
  | v :: vs => max v.depth (elementsDepth vs)

/-- The greatest depth of a member. -/
def membersDepth : List (Bytes × Value) → Nat
  | []           => 0
  | (_, v) :: ms => max v.depth (membersDepth ms)

end

/-! ## Texts -/

mutual

/-- The value with `f` applied to all strings and keys. -/
def mapTexts (f : Bytes → Bytes) : Value → Value
  | .string s  => .string (f s)
  | .array vs  => .array (mapElements f vs)
  | .object ms => .object (mapMembers f ms)
  | v          => v

/-- The elements of an array with `f` applied to all texts. -/
def mapElements (f : Bytes → Bytes) : List Value → List Value
  | []      => []
  | v :: vs => v.mapTexts f :: mapElements f vs

/-- The members of an object with `f` applied to all texts. -/
def mapMembers (f : Bytes → Bytes) : List (Bytes × Value) → List (Bytes × Value)
  | []           => []
  | (k, v) :: ms => (f k, v.mapTexts f) :: mapMembers f ms

end

/-- The value with U+FFFD in place of each byte of a string or key that is no UTF-8. -/
def sanitise (v : Value) : Value :=
  v.mapTexts Bytes.sanitise

theorem mapMembers_keys (f : Bytes → Bytes) (ms : List (Bytes × Value)) :
    (mapMembers f ms).map Prod.fst = ms.map fun m => f m.1 := by
  induction ms with
  | nil => rfl
  | cons m ms ih => simp only [mapMembers, List.map_cons, ih]

mutual

theorem depth_mapTexts (f : Bytes → Bytes) (v : Value) : (v.mapTexts f).depth = v.depth := by
  match v with
  | .null | .bool _ | .number _ | .string _ => rfl
  | .array vs => simp only [mapTexts, depth, elementsDepth_mapElements f vs]
  | .object ms => simp only [mapTexts, depth, membersDepth_mapMembers f ms]

theorem elementsDepth_mapElements (f : Bytes → Bytes) (vs : List Value) :
    elementsDepth (mapElements f vs) = elementsDepth vs := by
  match vs with
  | [] => rfl
  | v :: vs =>
    simp only [mapElements, elementsDepth, depth_mapTexts f v, elementsDepth_mapElements f vs]

theorem membersDepth_mapMembers (f : Bytes → Bytes) (ms : List (Bytes × Value)) :
    membersDepth (mapMembers f ms) = membersDepth ms := by
  match ms with
  | [] => rfl
  | (k, v) :: ms =>
    simp only [mapMembers, membersDepth, depth_mapTexts f v, membersDepth_mapMembers f ms]

end

mutual

theorem distinctKeys_mapTexts {f : Bytes → Bytes} (v : Value)
    (h : v.All fun u => (u.keys.map f).Nodup) : (v.mapTexts f).DistinctKeys := by
  match v with
  | .null | .bool _ | .number _ | .string _ => exact List.nodup_nil
  | .array vs => exact ⟨List.nodup_nil, distinctKeys_mapElements vs h.2⟩
  | .object ms =>
    refine ⟨?_, distinctKeys_mapMembers ms h.2⟩
    have hkeys : ((ms.map Prod.fst).map f).Nodup := h.1
    change ((mapMembers f ms).map Prod.fst).Nodup
    rw [List.map_map] at hkeys
    rw [mapMembers_keys]
    exact hkeys

theorem distinctKeys_mapElements {f : Bytes → Bytes} (vs : List Value)
    (h : AllElements (fun u => (u.keys.map f).Nodup) vs) :
    AllElements (fun u => u.keys.Nodup) (mapElements f vs) := by
  match vs with
  | [] => trivial
  | v :: vs => exact ⟨distinctKeys_mapTexts v h.1, distinctKeys_mapElements vs h.2⟩

theorem distinctKeys_mapMembers {f : Bytes → Bytes} (ms : List (Bytes × Value))
    (h : AllMembers (fun u => (u.keys.map f).Nodup) ms) :
    AllMembers (fun u => u.keys.Nodup) (mapMembers f ms) := by
  match ms with
  | [] => trivial
  | (k, v) :: ms => exact ⟨distinctKeys_mapTexts v h.1, distinctKeys_mapMembers ms h.2⟩

end

mutual

/-- A value with well-formed texts stays as it is. -/
theorem sanitise_of_utf8Texts (v : Value) (h : v.All Utf8Texts) :
    v.mapTexts Bytes.sanitise = v := by
  match v with
  | .null | .bool _ | .number _ => rfl
  | .string s =>
    have hs : s.isUtf8 := h
    rw [mapTexts, Bytes.sanitise_of_isUtf8 hs]
  | .array vs => rw [mapTexts, mapElements_of_utf8Texts vs h.2]
  | .object ms => rw [mapTexts, mapMembers_of_utf8Texts ms h.1 h.2]

theorem mapElements_of_utf8Texts (vs : List Value) (h : AllElements Utf8Texts vs) :
    mapElements Bytes.sanitise vs = vs := by
  match vs with
  | [] => rfl
  | v :: vs => rw [mapElements, sanitise_of_utf8Texts v h.1, mapElements_of_utf8Texts vs h.2]

theorem mapMembers_of_utf8Texts (ms : List (Bytes × Value)) (hkeys : ∀ m ∈ ms, m.1.isUtf8)
    (h : AllMembers Utf8Texts ms) : mapMembers Bytes.sanitise ms = ms := by
  match ms with
  | [] => rfl
  | (k, v) :: ms =>
    have hk : k.isUtf8 := hkeys _ List.mem_cons_self
    rw [mapMembers, Bytes.sanitise_of_isUtf8 hk, sanitise_of_utf8Texts v h.1,
      mapMembers_of_utf8Texts ms (fun m hm => hkeys m (List.mem_cons_of_mem _ hm)) h.2]

end

end Value

end RelaxedJson
