-- SUMMARY: Plain data of values and values of plain data: what a conversion there and back changes.
import RelaxedJson.Proofs.Grammar.Acceptance
import RelaxedJson.Proofs.Value.KeyMap

/-!
# Canonical values

Plain data is the same after it was a value (`Plain.toPlain_value`). A value that was plain data is
canonical: of the members with the same key only the last is left, and the members are in the order
of their keys (`Plain.value_toPlain`). For values without repeated keys, and so for everything that
was parsed, this is only another order (`Value.permuted_canonical`). Data of unsupported types has
no value wherever lists and maps lead to it (`Datum.toValue_error_iff`).
-/

namespace RelaxedJson

/-! ## Values of plain data -/

namespace Plain

mutual

/-- The value of plain data, with the members as they are in the maps. -/
def value : Plain → Value
  | .null     => .null
  | .bool b   => .bool b
  | .number x => .number x
  | .string s => .string s
  | .list ps  => .array (itemsValue ps)
  | .map es   => .object (entriesValue es)

/-- The value of each item. -/
def itemsValue : List Plain → List Value
  | []      => []
  | p :: ps => p.value :: itemsValue ps

/-- The value of each entry. -/
def entriesValue : List (Bytes × Plain) → List (Bytes × Value)
  | []           => []
  | (k, p) :: es => (k, p.value) :: entriesValue es

end

theorem entriesValue_eq_map (es : List (Bytes × Plain)) :
    entriesValue es = es.map (Prod.map id value) := by
  induction es with
  | nil => rfl
  | cons e es ih => rw [entriesValue, ih, List.map_cons, Prod.map, id]

mutual

/-- All maps inside have ascending keys. -/
def Ordered : Plain → Prop
  | .list ps => ItemsOrdered ps
  | .map es  => KeyMap.Ascending es ∧ EntriesOrdered es
  | _        => True

/-- All maps inside the items have ascending keys. -/
def ItemsOrdered : List Plain → Prop
  | []      => True
  | p :: ps => p.Ordered ∧ ItemsOrdered ps

/-- All maps inside the entries have ascending keys. -/
def EntriesOrdered : List (Bytes × Plain) → Prop
  | []           => True
  | (_, p) :: es => p.Ordered ∧ EntriesOrdered es

end

theorem entriesOrdered_iff {es : List (Bytes × Plain)} :
    EntriesOrdered es ↔ ∀ e ∈ es, e.2.Ordered := by
  induction es with
  | nil => simp [EntriesOrdered]
  | cons e es ih => rw [EntriesOrdered, ih, List.forall_mem_cons]

end Plain

namespace Value

mutual

theorem ordered_toPlain (v : Value) : v.toPlain.Ordered := by
  match v with
  | .null | .bool _ | .number _ | .string _ => trivial
  | .array vs => exact ordered_elementsToPlain vs
  | .object ms =>
    refine ⟨KeyMap.ascending_ofList _, Plain.entriesOrdered_iff.mpr fun e he => ?_⟩
    exact Plain.entriesOrdered_iff.mp (ordered_membersToPlain ms) e (KeyMap.mem_of_mem_ofList he)

theorem ordered_elementsToPlain (vs : List Value) : Plain.ItemsOrdered (elementsToPlain vs) := by
  match vs with
  | [] => trivial
  | v :: vs => exact ⟨ordered_toPlain v, ordered_elementsToPlain vs⟩

theorem ordered_membersToPlain (ms : List (Bytes × Value)) :
    Plain.EntriesOrdered (membersToPlain ms) := by
  match ms with
  | [] => trivial
  | (k, v) :: ms => exact ⟨ordered_toPlain v, ordered_membersToPlain ms⟩

end

end Value

namespace Plain

mutual

/-- Nothing is lost when plain data becomes a value. -/
theorem toPlain_value (p : Plain) (h : p.Ordered) : p.value.toPlain = p := by
  match p with
  | .null | .bool _ | .number _ | .string _ => rfl
  | .list ps => rw [value, Value.toPlain, elementsToPlain_itemsValue ps h]
  | .map es =>
    rw [value, Value.toPlain, membersToPlain_entriesValue es h.2, KeyMap.ofList_of_ascending h.1]

theorem elementsToPlain_itemsValue (ps : List Plain) (h : ItemsOrdered ps) :
    Value.elementsToPlain (itemsValue ps) = ps := by
  match ps with
  | [] => rfl
  | p :: ps =>
    rw [itemsValue, Value.elementsToPlain, toPlain_value p h.1, elementsToPlain_itemsValue ps h.2]

theorem membersToPlain_entriesValue (es : List (Bytes × Plain)) (h : EntriesOrdered es) :
    Value.membersToPlain (entriesValue es) = es := by
  match es with
  | [] => rfl
  | (k, p) :: es =>
    rw [entriesValue, Value.membersToPlain, toPlain_value p h.1, membersToPlain_entriesValue es h.2]

end

end Plain

/-! ## Canonical values -/

namespace Value

mutual

/-- The value with only the last of the members with the same key, and with the members in the
    order of their keys, everywhere inside. -/
def canonical : Value → Value
  | .array vs  => .array (canonicalElements vs)
  | .object ms => .object (KeyMap.sortKeys (KeyMap.lastBindings (canonicalMembers ms)))
  | v          => v

/-- The elements of an array in canonical form. -/
def canonicalElements : List Value → List Value
  | []      => []
  | v :: vs => v.canonical :: canonicalElements vs

/-- The members of an object, each in canonical form. -/
def canonicalMembers : List (Bytes × Value) → List (Bytes × Value)
  | []           => []
  | (k, v) :: ms => (k, v.canonical) :: canonicalMembers ms

end

mutual

/-- The values are the same up to the order of members, everywhere inside. -/
def Permuted : Value → Value → Prop
  | .array vs, w  => ∃ ws, PermutedElements vs ws ∧ w = .array ws
  | .object ms, w => ∃ ns ns', PermutedMembers ms ns ∧ ns.Perm ns' ∧ w = .object ns'
  | v, w          => w = v

/-- The elements are the same up to the order of members inside. -/
def PermutedElements : List Value → List Value → Prop
  | [], ws      => ws = []
  | v :: vs, ws => ∃ w ws', v.Permuted w ∧ PermutedElements vs ws' ∧ ws = w :: ws'

/-- The members are the same, in the same order, up to the order of members inside. -/
def PermutedMembers : List (Bytes × Value) → List (Bytes × Value) → Prop
  | [], ns           => ns = []
  | (k, v) :: ms, ns => ∃ w ns', v.Permuted w ∧ PermutedMembers ms ns' ∧ ns = (k, w) :: ns'

end

theorem keys_canonicalMembers (ms : List (Bytes × Value)) :
    KeyMap.keys (canonicalMembers ms) = ms.map Prod.fst := by
  induction ms with
  | nil => rfl
  | cons m ms ih => rw [canonicalMembers, KeyMap.keys_cons, ih, List.map_cons]

mutual

/-- Without repeated keys the canonical form is only another order. -/
theorem permuted_canonical (v : Value) (h : v.DistinctKeys) : v.Permuted v.canonical := by
  match v with
  | .null | .bool _ | .number _ | .string _ => rfl
  | .array vs => exact ⟨_, permuted_canonicalElements vs h.2, rfl⟩
  | .object ms =>
    have hkeys : (KeyMap.keys (canonicalMembers ms)).Nodup := keys_canonicalMembers ms ▸ h.1
    refine ⟨_, _, permuted_canonicalMembers ms h.2, (KeyMap.sortKeys_perm _).symm, ?_⟩
    rw [canonical, KeyMap.lastBindings_of_nodup hkeys]

theorem permuted_canonicalElements (vs : List Value)
    (h : AllElements (fun u => u.keys.Nodup) vs) : PermutedElements vs (canonicalElements vs) := by
  match vs with
  | [] => rfl
  | v :: vs => exact ⟨_, _, permuted_canonical v h.1, permuted_canonicalElements vs h.2, rfl⟩

theorem permuted_canonicalMembers (ms : List (Bytes × Value))
    (h : AllMembers (fun u => u.keys.Nodup) ms) : PermutedMembers ms (canonicalMembers ms) := by
  match ms with
  | [] => rfl
  | (k, v) :: ms => exact ⟨_, _, permuted_canonical v h.1, permuted_canonicalMembers ms h.2, rfl⟩

end

end Value

namespace Plain

mutual

/-- What a value is after it was plain data. -/
theorem value_toPlain (v : Value) : v.toPlain.value = v.canonical := by
  match v with
  | .null | .bool _ | .number _ | .string _ => rfl
  | .array vs => rw [Value.toPlain, value, itemsValue_elementsToPlain vs, Value.canonical]
  | .object ms =>
    -- The members can become values before they become a map.
    rw [Value.toPlain, value, entriesValue_eq_map, ← KeyMap.ofList_map, ← entriesValue_eq_map,
      entriesValue_membersToPlain ms, KeyMap.ofList_eq, Value.canonical]

theorem itemsValue_elementsToPlain (vs : List Value) :
    itemsValue (Value.elementsToPlain vs) = Value.canonicalElements vs := by
  match vs with
  | [] => rfl
  | v :: vs =>
    rw [Value.elementsToPlain, itemsValue, value_toPlain v, itemsValue_elementsToPlain vs,
      Value.canonicalElements]

theorem entriesValue_membersToPlain (ms : List (Bytes × Value)) :
    entriesValue (Value.membersToPlain ms) = Value.canonicalMembers ms := by
  match ms with
  | [] => rfl
  | (k, v) :: ms =>
    rw [Value.membersToPlain, entriesValue, value_toPlain v, entriesValue_membersToPlain ms,
      Value.canonicalMembers]

end

end Plain

theorem Value.toPlain_canonical (v : Value) : v.canonical.toPlain = v.toPlain := by
  rw [← Plain.value_toPlain, Plain.toPlain_value _ (ordered_toPlain v)]

theorem Value.canonical_canonical (v : Value) : v.canonical.canonical = v.canonical := by
  rw [← Plain.value_toPlain, toPlain_canonical, Plain.value_toPlain]

/-! ## Collecting results -/

section Collect

variable {ε α β : Type} {rs : List (Except ε α)}

theorem map_eq_error_iff {r : Except ε α} {f : α → β} {e : ε} :
    r.map f = .error e ↔ r = .error e := by
  cases r <;> simp [Except.map]

theorem collect_map_ok (as : List α) : collect (as.map (.ok : α → Except ε α)) = .ok as := by
  induction as with
  | nil => rfl
  | cons a as ih => rw [List.map_cons, collect, ih, Except.map]

theorem mem_of_collect_error {e : ε} (h : collect rs = .error e) : .error e ∈ rs := by
  induction rs with
  | nil => cases h
  | cons r rs ih =>
    cases r with
    | error e' =>
      cases h
      exact List.mem_cons_self
    | ok a => exact List.mem_cons_of_mem _ (ih (map_eq_error_iff.mp h))

theorem exists_collect_error {e : ε} (h : .error e ∈ rs) : ∃ e', collect rs = .error e' := by
  induction rs with
  | nil => cases h
  | cons r rs ih =>
    cases r with
    | error e' => exact ⟨e', rfl⟩
    | ok a =>
      have hrest : .error e ∈ rs := by simpa using h
      obtain ⟨e', he'⟩ := ih hrest
      exact ⟨e', map_eq_error_iff.mpr he'⟩

end Collect

namespace Datum

theorem sortMembers_eq (ms : List (Bytes × Except UnsupportedType Value)) :
    sortMembers ms = collect ((KeyMap.sortKeys ms).map fun (k, r) => r.map (k, ·)) := by
  have hle : (fun a b : Bytes × Except UnsupportedType Value => !b.1.before a.1) =
      fun a b => decide (a.1 ≤ b.1) := by
    funext a b
    rw [Bytes.before, ← decide_not]
    exact decide_eq_decide.mpr Std.not_lt
  rw [sortMembers, hle, KeyMap.sortKeys]

theorem sortMembers_map_ok (ms : List (Bytes × Value)) :
    sortMembers (ms.map (Prod.map id .ok)) = .ok (KeyMap.sortKeys ms) := by
  rw [sortMembers_eq, KeyMap.sortKeys_map, List.map_map, ← collect_map_ok (KeyMap.sortKeys ms)]
  rfl

theorem mem_sorted_iff {ms : List (Bytes × Except UnsupportedType Value)} {e : UnsupportedType} :
    .error e ∈ (KeyMap.sortKeys ms).map (fun (k, r) => r.map (k, ·)) ↔
      ∃ k, (k, .error e) ∈ ms := by
  rw [List.mem_map]
  constructor
  · rintro ⟨⟨k, r⟩, hmem, hr⟩
    obtain rfl : r = .error e := map_eq_error_iff.mp hr
    exact ⟨k, (KeyMap.sortKeys_perm ms).mem_iff.mp hmem⟩
  · rintro ⟨k, hmem⟩
    exact ⟨(k, .error e), (KeyMap.sortKeys_perm ms).mem_iff.mpr hmem, rfl⟩

/-! ## Plain data among all data -/

mutual

/-- The plain data that data is, if it is made of plain types only. The entries of a map may be in
    any order, but have distinct keys. -/
def plain? : Datum → Option Plain
  | .null     => some .null
  | .bool b   => some (.bool b)
  | .number x => some (.number x)
  | .string s => some (.string s)
  | .list ds  => (plainItems? ds).map .list
  | .map es   =>
    if (es.map Prod.fst).Nodup then (plainEntries? es).map fun ps => .map (KeyMap.sortKeys ps)
    else none
  | _         => none

/-- The plain data of each item. -/
def plainItems? : List Datum → Option (List Plain)
  | []      => some []
  | d :: ds => d.plain?.bind fun p => (plainItems? ds).map (p :: ·)

/-- The plain data of each entry. -/
def plainEntries? : List (Bytes × Datum) → Option (List (Bytes × Plain))
  | []           => some []
  | (k, d) :: es => d.plain?.bind fun p => (plainEntries? es).map ((k, p) :: ·)

end

theorem plainItems?_cons {d : Datum} {ds : List Datum} {ps : List Plain} :
    plainItems? (d :: ds) = some ps ↔
      ∃ p, d.plain? = some p ∧ ∃ ps', plainItems? ds = some ps' ∧ p :: ps' = ps := by
  rw [plainItems?, Option.bind_eq_some_iff]
  simp only [Option.map_eq_some_iff]

theorem plainEntries?_cons {k : Bytes} {d : Datum} {es : List (Bytes × Datum)}
    {ps : List (Bytes × Plain)} :
    plainEntries? ((k, d) :: es) = some ps ↔
      ∃ p, d.plain? = some p ∧ ∃ ps', plainEntries? es = some ps' ∧ (k, p) :: ps' = ps := by
  rw [plainEntries?, Option.bind_eq_some_iff]
  simp only [Option.map_eq_some_iff]

theorem plain?_map {es : List (Bytes × Datum)} {p : Plain} :
    plain? (.map es) = some p ↔ (es.map Prod.fst).Nodup ∧
      ∃ ps, plainEntries? es = some ps ∧ .map (KeyMap.sortKeys ps) = p := by
  rw [plain?]
  split <;> simp [*]

theorem keys_of_plainEntries? {es : List (Bytes × Datum)} {ps : List (Bytes × Plain)}
    (h : plainEntries? es = some ps) : KeyMap.keys ps = es.map Prod.fst := by
  induction es generalizing ps with
  | nil =>
    cases h
    rfl
  | cons e es ih =>
    obtain ⟨p, -, ps', hps', rfl⟩ := plainEntries?_cons.mp h
    rw [KeyMap.keys_cons, ih hps', List.map_cons]

mutual

/-- Plain data has a value, whatever the order in which the entries of its maps come. -/
theorem toValue_of_plain? (d : Datum) {p : Plain} (h : d.plain? = some p) :
    p.Ordered ∧ d.toValue = .ok p.value := by
  match d with
  | .null | .bool _ | .number _ | .string _ =>
    cases h
    exact ⟨trivial, rfl⟩
  | .list ds =>
    obtain ⟨ps, hps, rfl⟩ := Option.map_eq_some_iff.mp h
    obtain ⟨hordered, hvalues⟩ := itemsToValue_of_plainItems? ds hps
    refine ⟨hordered, ?_⟩
    rw [toValue, hvalues, collect_map_ok, Except.map, Plain.value]
  | .map es =>
    obtain ⟨hkeys, ps, hps, rfl⟩ := plain?_map.mp h
    obtain ⟨hordered, hvalues⟩ := entriesToValue_of_plainEntries? es hps
    -- Plain data and value sort by the same keys, so sorting commutes with the conversion.
    have hnodup : (KeyMap.keys ps).Nodup := keys_of_plainEntries? hps ▸ hkeys
    refine ⟨⟨KeyMap.ascending_sortKeys hnodup, ?_⟩, ?_⟩
    · rw [Plain.entriesOrdered_iff] at hordered ⊢
      intro e he
      exact hordered e ((KeyMap.sortKeys_perm ps).mem_iff.mp he)
    · rw [toValue, hvalues, sortMembers_map_ok, Except.map, Plain.value, Plain.entriesValue_eq_map,
        Plain.entriesValue_eq_map, KeyMap.sortKeys_map]

theorem itemsToValue_of_plainItems? (ds : List Datum) {ps : List Plain}
    (h : plainItems? ds = some ps) :
    Plain.ItemsOrdered ps ∧ itemsToValue ds = (Plain.itemsValue ps).map .ok := by
  match ds with
  | [] =>
    cases h
    exact ⟨trivial, rfl⟩
  | d :: ds =>
    obtain ⟨p, hp, ps', hps', rfl⟩ := plainItems?_cons.mp h
    obtain ⟨hordered, hvalue⟩ := toValue_of_plain? d hp
    obtain ⟨hordered', hvalues⟩ := itemsToValue_of_plainItems? ds hps'
    refine ⟨⟨hordered, hordered'⟩, ?_⟩
    rw [itemsToValue, hvalue, hvalues, Plain.itemsValue, List.map_cons]

theorem entriesToValue_of_plainEntries? (es : List (Bytes × Datum)) {ps : List (Bytes × Plain)}
    (h : plainEntries? es = some ps) :
    Plain.EntriesOrdered ps ∧ entriesToValue es = (Plain.entriesValue ps).map (Prod.map id .ok) := by
  match es with
  | [] =>
    cases h
    exact ⟨trivial, rfl⟩
  | (k, d) :: es =>
    obtain ⟨p, hp, ps', hps', rfl⟩ := plainEntries?_cons.mp h
    obtain ⟨hordered, hvalue⟩ := toValue_of_plain? d hp
    obtain ⟨hordered', hvalues⟩ := entriesToValue_of_plainEntries? es hps'
    refine ⟨⟨hordered, hordered'⟩, ?_⟩
    rw [entriesToValue, hvalue, hvalues, Plain.entriesValue, List.map_cons, Prod.map, id]

end

mutual

theorem plain?_toDatum (p : Plain) (h : p.Ordered) : p.toDatum.plain? = some p := by
  match p with
  | .null | .bool _ | .number _ | .string _ => rfl
  | .list ps => rw [Plain.toDatum, plain?, plainItems?_itemsToDatum ps h, Option.map_some]
  | .map es =>
    have hes := plainEntries?_entriesToDatum es h.2
    refine plain?_map.mpr ⟨?_, es, hes, ?_⟩
    · rw [← keys_of_plainEntries? hes]
      exact h.1.nodup
    · rw [KeyMap.sortKeys_of_ascending h.1]

theorem plainItems?_itemsToDatum (ps : List Plain) (h : Plain.ItemsOrdered ps) :
    plainItems? (Plain.itemsToDatum ps) = some ps := by
  match ps with
  | [] => rfl
  | p :: ps =>
    exact plainItems?_cons.mpr
      ⟨p, plain?_toDatum p h.1, ps, plainItems?_itemsToDatum ps h.2, rfl⟩

theorem plainEntries?_entriesToDatum (es : List (Bytes × Plain)) (h : Plain.EntriesOrdered es) :
    plainEntries? (Plain.entriesToDatum es) = some es := by
  match es with
  | [] => rfl
  | (k, p) :: es =>
    exact plainEntries?_cons.mpr
      ⟨p, plain?_toDatum p h.1, es, plainEntries?_entriesToDatum es h.2, rfl⟩

end

/-! ## Data without a value -/

/-- The data is of the unsupported type `T`, or lists and maps lead to such data in it. -/
inductive Holds (T : String) : Datum → Prop where
  | unsupported : Holds T (.unsupported T)
  | item {ds : List Datum} {d : Datum} : d ∈ ds → Holds T d → Holds T (.list ds)
  | entry {es : List (Bytes × Datum)} {k : Bytes} {d : Datum} :
      (k, d) ∈ es → Holds T d → Holds T (.map es)

theorem itemsToValue_eq_map (ds : List Datum) : itemsToValue ds = ds.map toValue := by
  induction ds with
  | nil => rfl
  | cons d ds ih => rw [itemsToValue, ih, List.map_cons]

theorem entriesToValue_eq_map (es : List (Bytes × Datum)) :
    entriesToValue es = es.map (Prod.map id toValue) := by
  induction es with
  | nil => rfl
  | cons e es ih => rw [entriesToValue, ih, List.map_cons, Prod.map, id]

/-- Data of an unsupported type is an error wherever lists and maps lead to it. -/
theorem Holds.toValue_error {T : String} {d : Datum} (h : d.Holds T) :
    ∃ e, d.toValue = .error e := by
  induction h with
  | unsupported => exact ⟨⟨T⟩, rfl⟩
  | @item ds d hmem _ ih =>
    obtain ⟨e, he⟩ := ih
    have hitem : .error e ∈ itemsToValue ds := by
      rw [itemsToValue_eq_map, ← he]
      exact List.mem_map_of_mem hmem
    obtain ⟨e', he'⟩ := exists_collect_error hitem
    exact ⟨e', map_eq_error_iff.mpr he'⟩
  | @entry es k d hmem _ ih =>
    obtain ⟨e, he⟩ := ih
    have hentry : (k, .error e) ∈ entriesToValue es := by
      rw [entriesToValue_eq_map, ← he]
      exact List.mem_map_of_mem hmem
    obtain ⟨e', he'⟩ := exists_collect_error (mem_sorted_iff.mpr ⟨k, hentry⟩)
    rw [← sortMembers_eq] at he'
    exact ⟨e', map_eq_error_iff.mpr he'⟩

mutual

/-- An error names the type of data that has no value. -/
theorem holds_of_toValue_error (d : Datum) {e : UnsupportedType} (h : d.toValue = .error e) :
    d.Holds e.typeName := by
  match d with
  | .null | .bool _ | .integer _ | .number _ | .string _ | .value _ | .values _ | .member _ _ =>
    cases h
  | .unsupported T =>
    cases h
    exact .unsupported
  | .list ds =>
    have hcollect : collect (itemsToValue ds) = .error e := map_eq_error_iff.mp h
    obtain ⟨d, hmem, hd⟩ := holds_of_mem_itemsToValue ds (mem_of_collect_error hcollect)
    exact .item hmem hd
  | .map es =>
    have hsort : sortMembers (entriesToValue es) = .error e := map_eq_error_iff.mp h
    rw [sortMembers_eq] at hsort
    obtain ⟨k, hk⟩ := mem_sorted_iff.mp (mem_of_collect_error hsort)
    obtain ⟨d, hmem, hd⟩ := holds_of_mem_entriesToValue es hk
    exact .entry hmem hd

theorem holds_of_mem_itemsToValue (ds : List Datum) {e : UnsupportedType}
    (h : .error e ∈ itemsToValue ds) : ∃ d ∈ ds, d.Holds e.typeName := by
  match ds with
  | [] => cases h
  | d :: ds =>
    rcases List.mem_cons.mp h with h | h
    · exact ⟨d, List.mem_cons_self, holds_of_toValue_error d h.symm⟩
    · obtain ⟨d', hmem, hd'⟩ := holds_of_mem_itemsToValue ds h
      exact ⟨d', List.mem_cons_of_mem _ hmem, hd'⟩

theorem holds_of_mem_entriesToValue (es : List (Bytes × Datum)) {k : Bytes} {e : UnsupportedType}
    (h : (k, .error e) ∈ entriesToValue es) : ∃ d, (k, d) ∈ es ∧ d.Holds e.typeName := by
  match es with
  | [] => cases h
  | (k', d) :: es =>
    rcases List.mem_cons.mp h with h | h
    · obtain ⟨rfl, hd⟩ := Prod.mk.inj h
      exact ⟨d, List.mem_cons_self, holds_of_toValue_error d hd.symm⟩
    · obtain ⟨d', hmem, hd'⟩ := holds_of_mem_entriesToValue es h
      exact ⟨d', List.mem_cons_of_mem _ hmem, hd'⟩

end

/-- Data has no value exactly if lists and maps lead to data of an unsupported type. -/
theorem toValue_error_iff (d : Datum) : (∃ e, d.toValue = .error e) ↔ ∃ T, d.Holds T := by
  constructor
  · rintro ⟨e, he⟩
    exact ⟨e.typeName, holds_of_toValue_error d he⟩
  · rintro ⟨T, hT⟩
    exact hT.toValue_error

end Datum

/-! ## Conversions -/

/-- Plain data, its maps in any order, has a value, and the plain data of that value is the same
    again. The value of the plain data of a value is the canonical form of the value. For what was
    parsed this is only another order. Other data has no value where it holds data of an unsupported
    type. -/
theorem Value.plain_conversions :
    (∀ (x : Datum) (p : Plain), x.plain? = some p → ∃ v, x.toValue = .ok v ∧ v.toPlain = p) ∧
    (∀ v : Value, v.toPlain.toDatum.plain? = some v.toPlain ∧
      ∀ x : Datum, x.plain? = some v.toPlain → x.toValue = .ok v.canonical) ∧
    (∀ v : Value, v.canonical.canonical = v.canonical) ∧
    (∀ (d : Dialect) (text : Bytes) (v : Value), parse d text = .ok v → v.Permuted v.canonical) ∧
    ∀ x : Datum, (∃ e, x.toValue = .error e) ↔ ∃ T, x.Holds T := by
  refine ⟨?_, ?_, canonical_canonical, ?_, Datum.toValue_error_iff⟩
  · intro x p h
    obtain ⟨hordered, hvalue⟩ := x.toValue_of_plain? h
    exact ⟨p.value, hvalue, p.toPlain_value hordered⟩
  · intro v
    refine ⟨Datum.plain?_toDatum _ v.ordered_toPlain, fun x h => ?_⟩
    rw [(x.toValue_of_plain? h).2, Plain.value_toPlain]
  · intro d text v h
    obtain ⟨-, T, -, hT, -, rfl⟩ := tree_of_parse h
    exact permuted_canonical _ hT.keys

/-- A map that does not come in the order of its keys. -/
def Datum.unorderedSample : Datum :=
  .map [("b".utf8, .list []), ("a".utf8, .list [.null])]

/-- An object with its members in the same order as the map. -/
def Value.unorderedSample : Value :=
  .object [("b".utf8, .array []), ("a".utf8, .array [.null])]

theorem Value.plain_conversions_unordered :
    (∃ v, Datum.unorderedSample.toValue = .ok v ∧ v.toPlain = unorderedSample.toPlain) ∧
      Datum.unorderedSample.toValue = .ok unorderedSample.canonical ∧
      parse .strict "\x7b\"b\":[],\"a\":[null]\x7d".utf8 = .ok unorderedSample ∧
      unorderedSample.Permuted unorderedSample.canonical := by
  obtain ⟨hplain, hvalue, -, hparse, -⟩ := Value.plain_conversions
  have hsample : Datum.unorderedSample.plain? = some unorderedSample.toPlain := by cbv
  have htext : parse .strict "\x7b\"b\":[],\"a\":[null]\x7d".utf8 = .ok unorderedSample := by cbv
  exact ⟨hplain _ _ hsample, (hvalue _).2 _ hsample, htext, hparse _ _ _ htext⟩

end RelaxedJson
