-- SUMMARY: Which values have TOML data, and where the first null element of the others is.
import RelaxedJson.Proofs.Number.Whole
import RelaxedJson.Proofs.Value.KeyMap
import RelaxedJson.Proofs.Value.Paths

/-!
# TOML data

A conversion to TOML goes through a value in order and stops at the first null element of an array
(`Value.toToml_reportsFirst`), whose place the error names (`Toml.NullPlace.message_toError`). Where
it gets to the end, only members that are null were left out, and only the numbers that are whole
have another type than in plain data (`Toml.Data.Is`).
-/

namespace RelaxedJson

/-! ## Places of null elements -/

namespace Toml

/-- A step from a value into it. -/
inductive Step where
  | member (key : Bytes)
  | element (offset : Nat)
  deriving DecidableEq, Repr

/-- The step as one of a path. -/
def Step.toPath {ε : Type} : Step → PathStep ε
  | .member k  => .key k
  | .element i => .index i

/-- How an error names the step. -/
def Step.text : Step → Bytes
  | .member k  => "member ".utf8 ++ Quoted.text k ++ ": ".utf8
  | .element i => "element ".utf8 ++ Bytes.ofNat i ++ ": ".utf8

/-- An error behind the step. -/
def Step.place : Step → Error → Error
  | .member k  => .inMember k
  | .element i => .inElement i

theorem Step.message_place (s : Step) (e : Error) :
    (s.place e).message = s.text ++ e.message := by
  cases s <;> rfl

/-- A null element: the steps to its array, the outermost first, and its offset there. -/
structure NullPlace where
  steps : List Step
  offset : Nat
  deriving DecidableEq, Repr

namespace NullPlace

/-- The place seen from one step further out. -/
def behind (s : Step) (p : NullPlace) : NullPlace :=
  { p with steps := s :: p.steps }

/-- The steps as a path. -/
def path {ε : Type} (p : NullPlace) : List (PathStep ε) :=
  p.steps.map Step.toPath

/-- The error that reports the null element. -/
def toError (p : NullPlace) : Error :=
  p.steps.foldr Step.place (.nullElement p.offset)

/-- The wording of the error: the steps, then the offset. -/
def text (p : NullPlace) : Bytes :=
  p.steps.flatMap Step.text ++ "null array element at offset ".utf8 ++ Bytes.ofNat p.offset ++
    " has no TOML representation".utf8

@[simp] theorem path_behind {ε : Type} (s : Step) (p : NullPlace) :
    (p.behind s).path = (s.toPath : PathStep ε) :: p.path := rfl
@[simp] theorem offset_behind (s : Step) (p : NullPlace) : (p.behind s).offset = p.offset := rfl

theorem message_toError (p : NullPlace) : p.toError.message = p.text := by
  obtain ⟨steps, offset⟩ := p
  induction steps with
  | nil => rfl
  | cons s steps ih =>
    have hplace : toError ⟨s :: steps, offset⟩ = s.place (toError ⟨steps, offset⟩) := rfl
    rw [hplace, Step.message_place, ih]
    simp [text]

end NullPlace

end Toml

namespace Value

open Toml (NullPlace Step)

/-- The value is null. -/
def isNull : Value → Bool
  | .null => true
  | _     => false

theorem isNull_iff {v : Value} : v.isNull ↔ v = .null := by
  cases v <;> simp [isNull]

/-- The elements of an array. -/
def elements : Value → List Value
  | .array vs => vs
  | _         => []

/-- No array inside has a null element. -/
def NoNullElements (v : Value) : Prop :=
  v.All fun u => .null ∉ u.elements

mutual

/-- The null elements of the arrays inside, in the order in which they are met when each member and
    each element is gone through before the next. -/
def nullPlaces : Value → List NullPlace
  | .array vs  => elementNulls 0 vs
  | .object ms => memberNulls ms
  | _          => []

/-- The null elements among and inside the elements of an array from the given offset on. -/
def elementNulls (offset : Nat) : List Value → List NullPlace
  | []      => []
  | v :: vs =>
    (if v.isNull then [⟨[], offset⟩] else v.nullPlaces.map (.behind (.element offset))) ++
      elementNulls (offset + 1) vs

/-- The null elements inside the members of an object. -/
def memberNulls : List (Bytes × Value) → List NullPlace
  | []           => []
  | (k, v) :: ms => v.nullPlaces.map (.behind (.member k)) ++ memberNulls ms

end

mutual

theorem nullPlaces_eq_nil_iff (v : Value) : v.nullPlaces = [] ↔ v.NoNullElements := by
  match v with
  | .null | .bool _ | .number _ | .string _ => simp [nullPlaces, NoNullElements, All, elements]
  | .array vs => exact elementNulls_eq_nil_iff 0 vs
  | .object ms =>
    rw [nullPlaces, memberNulls_eq_nil_iff ms]
    simp [NoNullElements, All, elements]

theorem elementNulls_eq_nil_iff (offset : Nat) (vs : List Value) :
    elementNulls offset vs = [] ↔
      .null ∉ vs ∧ AllElements (fun u => .null ∉ u.elements) vs := by
  match vs with
  | [] => simp [elementNulls, AllElements]
  | v :: vs =>
    rw [elementNulls, List.append_eq_nil_iff, elementNulls_eq_nil_iff (offset + 1) vs, AllElements,
      List.mem_cons, not_or]
    split
    · rename_i h
      simp [isNull_iff.mp h]
    · rename_i h
      have hne : .null ≠ v := fun heq => h (isNull_iff.mpr heq.symm)
      rw [List.map_eq_nil_iff, nullPlaces_eq_nil_iff v, NoNullElements]
      tauto

theorem memberNulls_eq_nil_iff (ms : List (Bytes × Value)) :
    memberNulls ms = [] ↔ AllMembers (fun u => .null ∉ u.elements) ms := by
  match ms with
  | [] => simp [memberNulls, AllMembers]
  | (k, v) :: ms =>
    rw [memberNulls, List.append_eq_nil_iff, List.map_eq_nil_iff, nullPlaces_eq_nil_iff v,
      memberNulls_eq_nil_iff ms, AllMembers, NoNullElements]

end

/-! ## The way to a null element -/

theorem mem_elementNulls {offset : Nat} {vs : List Value} {p : NullPlace}
    (h : p ∈ elementNulls offset vs) :
    (p.steps = [] ∧ ∃ i, p.offset = offset + i ∧ vs[i]? = some .null) ∨
      ∃ (i : Nat) (v : Value) (q : NullPlace),
        vs[i]? = some v ∧ q ∈ v.nullPlaces ∧ p = q.behind (.element (offset + i)) := by
  induction vs generalizing offset with
  | nil => cases h
  | cons v vs ih =>
    rw [elementNulls, List.mem_append] at h
    rcases h with h | h
    · split at h
      · rename_i hnull
        obtain rfl := List.mem_singleton.mp h
        exact .inl ⟨rfl, 0, rfl, congrArg some (isNull_iff.mp hnull)⟩
      · obtain ⟨q, hq, rfl⟩ := List.mem_map.mp h
        exact .inr ⟨0, v, q, rfl, hq, rfl⟩
    · rcases ih h with ⟨hsteps, i, hoffset, hnull⟩ | ⟨i, w, q, hw, hq, rfl⟩
      · exact .inl ⟨hsteps, i + 1, by omega, hnull⟩
      · exact .inr ⟨i + 1, w, q, hw, hq, by rw [Nat.add_assoc, Nat.add_comm 1]⟩

theorem mem_memberNulls {ms : List (Bytes × Value)} {p : NullPlace} (h : p ∈ memberNulls ms) :
    ∃ (k : Bytes) (v : Value) (q : NullPlace),
      (k, v) ∈ ms ∧ q ∈ v.nullPlaces ∧ p = q.behind (.member k) := by
  induction ms with
  | nil => cases h
  | cons m ms ih =>
    rw [memberNulls, List.mem_append] at h
    rcases h with h | h
    · obtain ⟨q, hq, rfl⟩ := List.mem_map.mp h
      exact ⟨m.1, m.2, q, List.mem_cons_self, hq, rfl⟩
    · obtain ⟨k, v, q, hmem, hq, rfl⟩ := ih h
      exact ⟨k, v, q, List.mem_cons_of_mem _ hmem, hq, rfl⟩

/-- The path to a null element leads to an array that has it. -/
theorem walk_of_mem_nullPlaces {ε : Type} {v : Value} (hkeys : v.DistinctKeys) {p : NullPlace}
    (h : p ∈ v.nullPlaces) :
    ∃ vs, v.walk (p.path : List (PathStep ε)) = .ok (.array vs) ∧ vs[p.offset]? = some .null := by
  -- By induction on the steps: the first one leads to a part in which the place is one step shorter.
  obtain ⟨steps, offset⟩ := p
  induction steps generalizing v with
  | nil =>
    cases v with
    | null | bool _ | number _ | string _ => cases h
    | array vs =>
      rcases mem_elementNulls h with ⟨-, i, hoffset, hnull⟩ | ⟨i, w, q, -, -, hq⟩
      · obtain rfl : offset = i := by simpa using hoffset
        exact ⟨vs, rfl, hnull⟩
      · cases congrArg NullPlace.steps hq
    | object ms =>
      obtain ⟨k, w, q, -, -, hq⟩ := mem_memberNulls h
      cases congrArg NullPlace.steps hq
  | cons s steps ih =>
    cases v with
    | null | bool _ | number _ | string _ => cases h
    | array vs =>
      rcases mem_elementNulls h with ⟨hsteps, -⟩ | ⟨i, w, ⟨qsteps, qoffset⟩, hw, hmem, hq⟩
      · cases hsteps
      · cases hq
        have hwkeys : w.DistinctKeys := allElements_iff.mp hkeys.2 w (List.mem_of_getElem? hw)
        obtain ⟨us, hus, hnull⟩ := ih hwkeys hmem
        refine ⟨us, ?_, hnull⟩
        rw [Nat.zero_add]
        exact (walk_cons (step_index hw) _).trans hus
    | object ms =>
      obtain ⟨k, w, ⟨qsteps, qoffset⟩, hw, hmem, hq⟩ := mem_memberNulls h
      cases hq
      have hwkeys : w.DistinctKeys := allMembers_iff.mp hkeys.2 _ hw
      obtain ⟨us, hus, hnull⟩ := ih hwkeys hmem
      exact ⟨us, (walk_cons (step_key hkeys.1 hw) _).trans hus, hnull⟩

/-! ## Values without null members -/

mutual

/-- The value without the members that are null, everywhere inside. -/
def withoutNulls : Value → Value
  | .array vs  => .array (elementsWithoutNulls vs)
  | .object ms => .object (membersWithoutNulls ms)
  | v          => v

/-- The elements of an array, each without the members that are null. -/
def elementsWithoutNulls : List Value → List Value
  | []      => []
  | v :: vs => v.withoutNulls :: elementsWithoutNulls vs

/-- The members of an object that are not null, each without those that are null inside. -/
def membersWithoutNulls : List (Bytes × Value) → List (Bytes × Value)
  | []           => []
  | (k, v) :: ms =>
    if v.isNull then membersWithoutNulls ms else (k, v.withoutNulls) :: membersWithoutNulls ms

end

mutual

theorem withoutNulls_of_all_ne_null (v : Value) (h : v.All (· ≠ .null)) : v.withoutNulls = v := by
  match v with
  | .null | .bool _ | .number _ | .string _ => rfl
  | .array vs => rw [withoutNulls, elementsWithoutNulls_of_all_ne_null vs h.2]
  | .object ms => rw [withoutNulls, membersWithoutNulls_of_all_ne_null ms h.2]

theorem elementsWithoutNulls_of_all_ne_null (vs : List Value) (h : AllElements (· ≠ .null) vs) :
    elementsWithoutNulls vs = vs := by
  match vs with
  | [] => rfl
  | v :: vs =>
    rw [elementsWithoutNulls, withoutNulls_of_all_ne_null v h.1,
      elementsWithoutNulls_of_all_ne_null vs h.2]

theorem membersWithoutNulls_of_all_ne_null (ms : List (Bytes × Value))
    (h : AllMembers (· ≠ .null) ms) : membersWithoutNulls ms = ms := by
  match ms with
  | [] => rfl
  | (k, v) :: ms =>
    have hnull : ¬ v.isNull := fun hv => h.1.self (isNull_iff.mp hv)
    rw [membersWithoutNulls, if_neg hnull, withoutNulls_of_all_ne_null v h.1,
      membersWithoutNulls_of_all_ne_null ms h.2]

end

theorem noNullElements_of_all_ne_null {v : Value} (h : v.All (· ≠ .null)) : v.NoNullElements := by
  refine All.imp (fun u hu hmem => ?_) v (All.all v h)
  cases u with
  | null | bool _ | number _ | string _ | object _ => cases hmem
  | array vs => exact (allElements_iff.mp hu.2 _ hmem).self rfl

end Value

/-! ## TOML data of plain data -/

namespace Toml

/-- The data is the plain data, with integers of the same value in place of the whole numbers. -/
inductive Data.Is : Data → Plain → Prop where
  | string (s : Bytes) : Is (.string s) (.string s)
  | boolean (b : Bool) : Is (.boolean b) (.bool b)
  | integer {x : Binary64} {i : ℤ} : x.isInt → x.toRat = i → Is (.integer i) (.number x)
  | float {x : Binary64} : ¬ x.isInt → Is (.float x) (.number x)
  | array {ds : List Data} {ps : List Plain} :
      List.Forall₂ Is ds ps → Is (.array ds) (.list ps)
  | table {es : List (Bytes × Data)} {ps : List (Bytes × Plain)} :
      KeyMap.keys es = KeyMap.keys ps →
      List.Forall₂ Is (es.map Prod.snd) (ps.map Prod.snd) → Is (.table es) (.map ps)

theorem Data.ofNumber_is (x : Binary64) : (ofNumber x).Is (.number x) := by
  unfold ofNumber
  split
  · rename_i h
    obtain ⟨-, i, hi, -⟩ := Binary64.isInt_iff.mp h
    have htruncate : x.truncate = i.toInt := (Binary64.toRat_eq_intCast_iff.mp hi).2
    exact .integer h (htruncate ▸ hi)
  · rename_i h
    exact .float h

/-- The conversion fails with the error for the first of the given places, or if there are none it
    gives a result for which `Good` holds. -/
inductive ReportsFirst {α : Type} (places : List NullPlace) (Good : α → Prop)
    (c : Conversion α) : Prop where
  | failed {p : NullPlace} (hplaces : places.head? = some p) (hresult : c.result = .error p.toError)
  | converted {a : α} (hplaces : places = []) (hresult : c.result = .ok a) (hgood : Good a)

namespace ReportsFirst

variable {α β : Type} {places places' : List NullPlace} {Good : α → Prop} {Good' : β → Prop}
  {c : Conversion α} {f : α → Conversion β}

theorem pure {a : α} (h : Good a) : ReportsFirst [] Good (.pure a) :=
  .converted rfl rfl h

theorem bind (h : ReportsFirst places Good c)
    (hf : ∀ a, Good a → ReportsFirst places' Good' (f a)) :
    ReportsFirst (places ++ places') Good' (c.bind f) := by
  cases h with
  | @failed p hplaces hresult =>
    refine .failed (p := p) ?_ ?_
    · rw [List.head?_append, hplaces, Option.some_or]
    · rw [Conversion.bind, hresult]
  | @converted a hplaces hresult hgood =>
    have hbind : (c.bind f).result = (f a).result := by rw [Conversion.bind, hresult]
    rw [hplaces, List.nil_append]
    cases hf a hgood with
    | failed hplaces' hresult' => exact .failed hplaces' (hbind.trans hresult')
    | converted hplaces' hresult' hgood' => exact .converted hplaces' (hbind.trans hresult') hgood'

/-- A conversion that goes on without failing has its null elements in the first part. -/
theorem bind_pure (h : ReportsFirst places Good c) {g : α → β} (hg : ∀ a, Good a → Good' (g a)) :
    ReportsFirst places Good' (c.bind fun a => .pure (g a)) := by
  rw [← List.append_nil places]
  exact h.bind fun a ha => .pure (hg a ha)

theorem within (h : ReportsFirst places Good c) (s : Step) :
    ReportsFirst (places.map (.behind s)) Good (c.within s.place) := by
  cases h with
  | @failed p hplaces hresult =>
    refine .failed (p := p.behind s) ?_ ?_
    · rw [List.head?_map, hplaces, Option.map_some]
    · rw [Conversion.within, hresult]
      rfl
  | converted hplaces hresult hgood =>
    refine .converted (by rw [hplaces, List.map_nil]) ?_ hgood
    rw [Conversion.within, hresult]
    rfl

end ReportsFirst

end Toml

/-! ## Conversions -/

namespace Value

open Toml (Data ReportsFirst)

theorem elementNulls_cons {v : Value} (hv : v ≠ .null) (offset : Nat) (vs : List Value) :
    elementNulls offset (v :: vs) =
      v.nullPlaces.map (.behind (.element offset)) ++ elementNulls (offset + 1) vs := by
  rw [elementNulls, if_neg (mt isNull_iff.mp hv)]

theorem membersWithoutNulls_cons {v : Value} (hv : v ≠ .null) (k : Bytes)
    (ms : List (Bytes × Value)) :
    membersWithoutNulls ((k, v) :: ms) = (k, v.withoutNulls) :: membersWithoutNulls ms := by
  rw [membersWithoutNulls, if_neg (mt isNull_iff.mp hv)]

mutual

/-- A conversion stops at the first null element, or gives the data of the value without its null
    members. -/
theorem toToml_reportsFirst (v : Value) (hv : v ≠ .null) :
    ReportsFirst v.nullPlaces (fun r => ∃ d, r = some d ∧ Data.Is d v.withoutNulls.toPlain)
      v.toToml := by
  match v with
  | .null => exact absurd rfl hv
  | .bool b => exact .pure ⟨_, rfl, .boolean b⟩
  | .number x => exact .pure ⟨_, rfl, Data.ofNumber_is x⟩
  | .string s => exact .pure ⟨_, rfl, .string s⟩
  | .array vs =>
    exact (elementsToToml_reportsFirst 0 vs).bind_pure fun ds hds => ⟨_, rfl, .array hds⟩
  | .object ms =>
    refine (membersToToml_reportsFirst ms).bind_pure fun es hes => ?_
    have hofList := hes.ofList
    exact ⟨_, rfl, .table hofList.keys_eq hofList.values⟩

theorem elementsToToml_reportsFirst (offset : Nat) (vs : List Value) :
    ReportsFirst (elementNulls offset vs)
      (fun ds => List.Forall₂ Data.Is ds (elementsToPlain (elementsWithoutNulls vs)))
      (elementsToToml offset vs) := by
  match vs with
  | [] => exact .pure .nil
  | v :: vs =>
    by_cases hv : v = .null
    · subst hv
      exact .failed (p := ⟨[], offset⟩) rfl rfl
    · rw [elementNulls_cons hv, elementsToToml]
      refine ((toToml_reportsFirst v hv).within (.element offset)).bind ?_
      rintro _ ⟨d, rfl, hd⟩
      exact (elementsToToml_reportsFirst (offset + 1) vs).bind_pure fun ds hds => .cons hd hds

theorem membersToToml_reportsFirst (ms : List (Bytes × Value)) :
    ReportsFirst (memberNulls ms)
      (fun es => KeyMap.Related Data.Is es (membersToPlain (membersWithoutNulls ms)))
      (membersToToml ms) := by
  match ms with
  | [] => exact .pure .nil
  | (k, v) :: ms =>
    by_cases hv : v = .null
    · -- The member is left out, and the conversion goes on behind it.
      subst hv
      rw [membersWithoutNulls, if_pos (isNull_iff.mpr rfl), memberNulls, membersToToml]
      have hnull : ReportsFirst [] (· = none) (toToml .null) := .pure rfl
      refine (hnull.within (.member k)).bind ?_
      rintro _ rfl
      have homitted : ReportsFirst [] (fun _ => True) { omitted := [k], result := .ok () } :=
        .converted rfl rfl trivial
      exact homitted.bind fun _ _ => membersToToml_reportsFirst ms
    · rw [membersWithoutNulls_cons hv, memberNulls, membersToToml]
      refine ((toToml_reportsFirst v hv).within (.member k)).bind ?_
      rintro _ ⟨d, rfl, hd⟩
      exact (membersToToml_reportsFirst ms).bind_pure fun es hes => .cons ⟨rfl, hd⟩ hes

end

/-- A value other than null has TOML data exactly if no array inside has a null element. Otherwise the
    error names the first null element, by the way to its array and its offset there. The data is that
    of the value without its null members, and of the value itself if nothing inside is null. -/
theorem toToml_at_first_null (ε : Type) (v : Value) (hv : v ≠ .null) (hkeys : v.DistinctKeys) :
    ((∃ e, v.toToml.result = .error e) ↔ ¬ v.NoNullElements) ∧
    (∀ e, v.toToml.result = .error e →
      ∃ p vs, v.nullPlaces.head? = some p ∧ e.message = p.text ∧
        v.walk (p.path : List (PathStep ε)) = .ok (.array vs) ∧ vs[p.offset]? = some .null) ∧
    (∀ r, v.toToml.result = .ok r → ∃ d, r = some d ∧ Data.Is d v.withoutNulls.toPlain) ∧
    (v.All (· ≠ .null) → ∃ d, v.toToml.result = .ok (some d) ∧ Data.Is d v.toPlain) := by
  cases toToml_reportsFirst v hv with
  | @failed p hplaces hresult =>
    have hmem : p ∈ v.nullPlaces := List.mem_of_mem_head? hplaces
    have hnull : ¬ v.NoNullElements := by
      rw [← nullPlaces_eq_nil_iff]
      exact List.ne_nil_of_mem hmem
    refine ⟨iff_of_true ⟨_, hresult⟩ hnull, fun e he => ?_, fun r hr => ?_, fun hall => ?_⟩
    · rw [hresult] at he
      cases he
      obtain ⟨vs, hwalk, helement⟩ := walk_of_mem_nullPlaces hkeys hmem
      exact ⟨p, vs, hplaces, p.message_toError, hwalk, helement⟩
    · rw [hresult] at hr
      cases hr
    · exact absurd (noNullElements_of_all_ne_null hall) hnull
  | @converted r hplaces hresult hgood =>
    have hfails : ¬ ∃ e, v.toToml.result = .error e := by simp [hresult]
    refine ⟨iff_of_false hfails (not_not.mpr ((nullPlaces_eq_nil_iff v).mp hplaces)),
      fun e he => absurd ⟨e, he⟩ hfails, fun r' hr' => ?_, fun hall => ?_⟩
    · rw [hresult] at hr'
      cases hr'
      exact hgood
    · obtain ⟨d, rfl, hd⟩ := hgood
      rw [withoutNulls_of_all_ne_null v hall] at hd
      exact ⟨d, hresult, hd⟩

/-- A null member, and two null elements, of which the first is the deeper one. -/
def tomlSample : Value :=
  .object [("b".utf8, .null),
    ("a".utf8, .array [.bool true, .object [("c".utf8, .array [.string [], .null])], .null])]

theorem toToml_at_first_null_nested :
    (∃ e, tomlSample.toToml.result = .error e ∧
      e.message = ("member \"a\": element 1: member \"c\": ".utf8 ++
        "null array element at offset 1 has no TOML representation".utf8)) ∧
    ∃ d, (array [.bool true]).toToml.result = .ok (some d) ∧ Data.Is d (.list [.bool true]) := by
  have hne : tomlSample ≠ .null := by simp [tomlSample]
  have hkeys : tomlSample.DistinctKeys := by
    have hab : "b".utf8 ≠ "a".utf8 := by decide +kernel
    simp [tomlSample, DistinctKeys, All, AllMembers, AllElements, keys, hab]
  have hnull : ¬ tomlSample.NoNullElements := by
    rw [← nullPlaces_eq_nil_iff]
    exact List.cons_ne_nil _ _
  constructor
  · obtain ⟨hfails, herror, -, -⟩ := toToml_at_first_null Empty tomlSample hne hkeys
    obtain ⟨e, he⟩ := hfails.mpr hnull
    obtain ⟨p, vs, hp, hmessage, -, -⟩ := herror e he
    cases hp
    refine ⟨e, he, hmessage.trans ?_⟩
    decide +kernel
  · obtain ⟨-, -, -, hdata⟩ := toToml_at_first_null Empty (array [.bool true]) (by simp)
      ⟨List.nodup_nil, List.nodup_nil, trivial⟩
    exact hdata (by simp [All, AllElements])

end Value

end RelaxedJson
