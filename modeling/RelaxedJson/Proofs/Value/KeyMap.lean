-- SUMMARY: Finite maps: what an insertion changes, that keys stay ascending, and the map of a list.
import Mathlib.Data.Finset.Card
import RelaxedJson.Value.Plain

/-!
# Finite maps

An insertion changes what is found under its key and nothing else (`KeyMap.lookup_insert`). It keeps
the keys ascending (`KeyMap.Ascending.insert`), so that no key is there twice and the length of a map
is the number of its keys. The map of a list is the list without the bindings that do not count, in
the order of the keys (`KeyMap.ofList_eq`). Lists with related values make maps with related values
(`KeyMap.Related.ofList`).
-/

namespace RelaxedJson.KeyMap

variable {α β : Type}

/-- The keys of a map, in its order. -/
def keys (m : KeyMap α) : List Bytes :=
  m.map Prod.fst

/-- The keys are strictly ascending. -/
def Ascending (m : KeyMap α) : Prop :=
  m.keys.Pairwise (· < ·)

@[simp] theorem keys_nil : keys ([] : KeyMap α) = [] := rfl
@[simp] theorem keys_cons (k : Bytes) (a : α) (m : KeyMap α) :
    keys ((k, a) :: m) = k :: keys m := rfl

theorem lookup_cons (k key : Bytes) (a : α) (m : KeyMap α) :
    List.lookup k ((key, a) :: m) = if k = key then some a else m.lookup k := by
  by_cases hk : k = key
  · simp [hk]
  · simp [List.lookup_cons, beq_false_of_ne hk, hk]

/-- An insertion changes what is found under its key only. -/
theorem lookup_insert (m : KeyMap α) (key : Bytes) (a : α) (k : Bytes) :
    (m.insert key a).lookup k = if k = key then some a else m.lookup k := by
  fun_induction KeyMap.insert key a m with
  | case1 => exact lookup_cons k key a []
  | case2 b m =>
    rw [lookup_cons, lookup_cons]
    split <;> rfl
  | case3 k' b m hne hbefore => exact lookup_cons k key a ((k', b) :: m)
  | case4 k' b m hne hbefore ih =>
    rw [lookup_cons, lookup_cons, ih]
    by_cases hk : k = k'
    · have hkey : k ≠ key := fun h => hne (h ▸ hk)
      simp [hk, hk ▸ hkey]
    · simp [hk]

theorem mem_keys_insert {m : KeyMap α} {key k : Bytes} {a : α} :
    k ∈ (m.insert key a).keys ↔ k = key ∨ k ∈ m.keys := by
  fun_induction KeyMap.insert key a m with
  | case1 => simp
  | case2 b m => simp
  | case3 k' b m hne hbefore => simp
  | case4 k' b m hne hbefore ih =>
    simp only [keys_cons, List.mem_cons, ih]
    exact or_left_comm

theorem Ascending.insert {m : KeyMap α} (h : m.Ascending) (key : Bytes) (a : α) :
    (m.insert key a).Ascending := by
  fun_induction KeyMap.insert key a m with
  | case1 => exact List.pairwise_singleton _ _
  | case2 b m => exact h
  | case3 k' b m hne hbefore =>
    have hlt : key < k' := of_decide_eq_true hbefore
    refine List.pairwise_cons.mpr ⟨?_, h⟩
    intro k hk
    cases hk with
    | head => exact hlt
    | tail _ hk => exact Std.lt_trans hlt (List.rel_of_pairwise_cons h hk)
  | case4 k' b m hne hbefore ih =>
    have hge : ¬ key < k' := fun hlt => hbefore (decide_eq_true hlt)
    have hlt : k' < key := Std.lt_of_le_of_ne (Std.not_lt.mp hge) (Ne.symm hne)
    refine List.pairwise_cons.mpr ⟨?_, ih h.of_cons⟩
    intro k hk
    rcases mem_keys_insert.mp hk with rfl | hk
    · exact hlt
    · exact List.rel_of_pairwise_cons h hk

theorem Ascending.nodup {m : KeyMap α} (h : m.Ascending) : m.keys.Nodup :=
  h.imp Std.ne_of_lt

/-- A map is as long as it has keys. -/
theorem Ascending.length_eq_card {m : KeyMap α} (h : m.Ascending) {s : Finset Bytes}
    (hs : ∀ k, k ∈ m.keys ↔ k ∈ s) : m.length = s.card := by
  have hkeys : m.keys.toFinset = s := by
    ext k
    rw [List.mem_toFinset, hs]
  rw [← hkeys, List.toFinset_card_of_nodup h.nodup, keys, List.length_map]

/-! ## Lists as maps -/

theorem lookup_eq_none_iff {l : List (Bytes × α)} {k : Bytes} : l.lookup k = none ↔ k ∉ keys l := by
  induction l with
  | nil => simp
  | cons b l ih =>
    rw [lookup_cons, keys_cons, List.mem_cons, not_or, ← ih]
    split <;> simp [*]

/-- Where no key is there twice, to find is to be a member. -/
theorem lookup_eq_some_iff {l : List (Bytes × α)} (h : (keys l).Nodup) {k : Bytes} {a : α} :
    l.lookup k = some a ↔ (k, a) ∈ l := by
  induction l with
  | nil => simp
  | cons b l ih =>
    obtain ⟨key, c⟩ := b
    obtain ⟨hkey, hl⟩ := List.nodup_cons.mp h
    rw [lookup_cons, List.mem_cons, Prod.mk.injEq, ← ih hl]
    split
    · rename_i hk
      have hnone : l.lookup k = none := lookup_eq_none_iff.mpr (hk ▸ hkey)
      rw [hnone, Option.some.injEq, eq_comm]
      simp [hk]
    · rename_i hk
      simp [hk]

theorem ofList_concat (l : List (Bytes × α)) (key : Bytes) (a : α) :
    ofList (l ++ [(key, a)]) = (ofList l).insert key a := by
  simp only [ofList, List.foldl_append, List.foldl_cons, List.foldl_nil]

theorem ascending_ofList (l : List (Bytes × α)) : (ofList l).Ascending := by
  induction l using List.reverseRecOn with
  | nil => exact .nil
  | append_singleton l b ih =>
    rw [ofList_concat]
    exact ih.insert b.1 b.2

/-- The last binding counts. -/
theorem lookup_ofList (l : List (Bytes × α)) (k : Bytes) :
    (ofList l).lookup k = l.reverse.lookup k := by
  induction l using List.reverseRecOn with
  | nil => rfl
  | append_singleton l b ih =>
    rw [ofList_concat, lookup_insert, List.reverse_concat, lookup_cons, ih]

theorem mem_of_mem_ofList {l : List (Bytes × α)} {b : Bytes × α} (h : b ∈ ofList l) : b ∈ l := by
  rw [← lookup_eq_some_iff (ascending_ofList l).nodup, lookup_ofList] at h
  obtain ⟨l₁, l₂, hl, -⟩ := List.lookup_eq_some_iff.mp h
  rw [← List.mem_reverse, hl]
  simp

/-- The bindings that no later one with the same key follows. -/
def lastBindings : List (Bytes × α) → List (Bytes × α)
  | []     => []
  | b :: l => if b.1 ∈ l.map Prod.fst then lastBindings l else b :: lastBindings l

theorem mem_keys_lastBindings {l : List (Bytes × α)} {k : Bytes} :
    k ∈ keys (lastBindings l) ↔ k ∈ keys l := by
  fun_induction lastBindings l with
  | case1 => rfl
  | case2 b l hmem ih =>
    rw [ih, keys_cons, List.mem_cons, or_iff_right_of_imp]
    rintro rfl
    exact hmem
  | case3 b l hmem ih => rw [keys_cons, keys_cons, List.mem_cons, List.mem_cons, ih]

theorem nodup_lastBindings (l : List (Bytes × α)) : (keys (lastBindings l)).Nodup := by
  fun_induction lastBindings l with
  | case1 => exact .nil
  | case2 b l hmem ih => exact ih
  | case3 b l hmem ih =>
    exact List.nodup_cons.mpr ⟨fun h => hmem (mem_keys_lastBindings.mp h), ih⟩

theorem lookup_lastBindings (l : List (Bytes × α)) (k : Bytes) :
    (lastBindings l).lookup k = l.reverse.lookup k := by
  fun_induction lastBindings l with
  | case1 => rfl
  | case2 b l hmem ih =>
    rw [ih, List.reverse_cons, List.lookup_append, lookup_cons]
    split
    · rename_i hk
      have hsome : l.reverse.lookup k ≠ none := by
        rw [ne_eq, lookup_eq_none_iff, not_not, hk]
        simpa [keys] using hmem
      obtain ⟨a, ha⟩ := Option.ne_none_iff_exists'.mp hsome
      rw [ha, Option.some_or]
    · simp
  | case3 b l hmem ih =>
    rw [lookup_cons, ih, List.reverse_cons, List.lookup_append, lookup_cons]
    split
    · rename_i hk
      have hnone : l.reverse.lookup k = none := by
        rw [lookup_eq_none_iff, hk]
        simpa [keys] using hmem
      rw [hnone, Option.none_or]
    · simp

theorem lastBindings_of_nodup {l : List (Bytes × α)} (h : (keys l).Nodup) : lastBindings l = l := by
  induction l with
  | nil => rfl
  | cons b l ih =>
    rw [keys, List.map_cons, List.nodup_cons] at h
    rw [lastBindings, if_neg h.1, ih h.2]

theorem lastBindings_map (f : α → β) (l : List (Bytes × α)) :
    lastBindings (l.map (Prod.map id f)) = (lastBindings l).map (Prod.map id f) := by
  induction l with
  | nil => rfl
  | cons b l ih =>
    have hkeys : (l.map (Prod.map id f)).map Prod.fst = l.map Prod.fst := by simp
    rw [List.map_cons, lastBindings, hkeys, lastBindings, ih]
    split <;> simp_all

/-- The bindings in the order of their keys. -/
def sortKeys (l : List (Bytes × α)) : KeyMap α :=
  l.mergeSort fun a b => a.1 ≤ b.1

theorem sortKeys_perm (l : List (Bytes × α)) : (sortKeys l).Perm l :=
  List.mergeSort_perm l _

theorem sortKeys_map (f : α → β) (l : List (Bytes × α)) :
    sortKeys (l.map (Prod.map id f)) = (sortKeys l).map (Prod.map id f) :=
  (List.map_mergeSort (f := Prod.map id f) fun _ _ _ _ => rfl).symm

/-- Without repeated keys the order of the keys is strict. -/
theorem ascending_sortKeys {l : List (Bytes × α)} (h : (keys l).Nodup) : (sortKeys l).Ascending := by
  have hnodup : (keys (sortKeys l)).Nodup := ((sortKeys_perm l).map Prod.fst).nodup_iff.mpr h
  have hsorted : (sortKeys l).Pairwise fun a b => decide (a.1 ≤ b.1) := by
    refine List.pairwise_mergeSort ?_ ?_ l
    · intro a b c hab hbc
      simp only [decide_eq_true_eq] at *
      exact Std.le_trans hab hbc
    · intro a b
      simpa using Std.le_total
  have hle : (keys (sortKeys l)).Pairwise (· ≤ ·) :=
    List.pairwise_map.mpr (hsorted.imp of_decide_eq_true)
  exact (hle.and hnodup).imp fun h => Std.lt_of_le_of_ne h.1 h.2

theorem sortKeys_of_ascending {m : KeyMap α} (h : m.Ascending) : sortKeys m = m := by
  apply List.mergeSort_of_pairwise
  simpa using (List.pairwise_map.mp h).imp Std.le_of_lt

theorem Ascending.eq_of_perm {m m' : KeyMap α} (h : m.Ascending) (h' : m'.Ascending)
    (hperm : m.Perm m') : m = m' :=
  hperm.eq_of_pairwise (fun _ _ _ _ hab hba => absurd (Std.lt_trans hab hba) Std.lt_irrefl)
    (List.pairwise_map.mp h) (List.pairwise_map.mp h')

/-- Equal maps are equal lists. -/
theorem Ascending.eq_of_lookup {m m' : KeyMap α} (h : m.Ascending) (h' : m'.Ascending)
    (hlookup : ∀ k, m.lookup k = m'.lookup k) : m = m' := by
  refine h.eq_of_perm h' ?_
  rw [List.perm_ext_iff_of_nodup (List.Nodup.of_map _ h.nodup) (List.Nodup.of_map _ h'.nodup)]
  intro b
  rw [← lookup_eq_some_iff h.nodup, ← lookup_eq_some_iff h'.nodup, hlookup]

/-- A list becomes a map by dropping what does not count and sorting the rest. -/
theorem ofList_eq (l : List (Bytes × α)) : ofList l = sortKeys (lastBindings l) := by
  have hsorted := ascending_sortKeys (nodup_lastBindings l)
  refine (ascending_ofList l).eq_of_lookup hsorted fun k => Option.ext fun a => ?_
  rw [lookup_ofList, ← lookup_lastBindings, lookup_eq_some_iff (nodup_lastBindings l),
    lookup_eq_some_iff hsorted.nodup, (sortKeys_perm _).mem_iff]

theorem ofList_of_ascending {m : KeyMap α} (h : m.Ascending) : ofList m = m := by
  rw [ofList_eq, lastBindings_of_nodup h.nodup, sortKeys_of_ascending h]

theorem ofList_map (f : α → β) (l : List (Bytes × α)) :
    ofList (l.map (Prod.map id f)) = (ofList l).map (Prod.map id f) := by
  rw [ofList_eq, lastBindings_map, sortKeys_map, ofList_eq]

/-! ## Related maps -/

/-- The maps have the same keys in the same order, and what they bind a key to is related. -/
def Related (R : α → β → Prop) (m : KeyMap α) (m' : KeyMap β) : Prop :=
  List.Forall₂ (fun b b' => b.1 = b'.1 ∧ R b.2 b'.2) m m'

theorem Related.keys_eq {R : α → β → Prop} {m : KeyMap α} {m' : KeyMap β} (h : Related R m m') :
    m.keys = m'.keys := by
  have hkeys : List.Forall₂ Eq m.keys m'.keys :=
    List.forall₂_map_left_iff.mpr (List.forall₂_map_right_iff.mpr (h.imp fun _ _ hb => hb.1))
  rwa [List.forall₂_eq_eq_eq] at hkeys

theorem Related.values {R : α → β → Prop} {m : KeyMap α} {m' : KeyMap β} (h : Related R m m') :
    List.Forall₂ R (m.map Prod.snd) (m'.map Prod.snd) :=
  List.forall₂_map_left_iff.mpr (List.forall₂_map_right_iff.mpr (h.imp fun _ _ hb => hb.2))

theorem Related.insert {R : α → β → Prop} {m : KeyMap α} {m' : KeyMap β} (h : Related R m m')
    (key : Bytes) {a : α} {b : β} (hab : R a b) : Related R (m.insert key a) (m'.insert key b) := by
  induction h with
  | nil => exact .cons ⟨rfl, hab⟩ .nil
  | @cons c c' m m' hc hm ih =>
    obtain ⟨k, c⟩ := c
    obtain ⟨k', c'⟩ := c'
    obtain rfl : k = k' := hc.1
    rw [KeyMap.insert, KeyMap.insert]
    split
    · exact .cons ⟨rfl, hab⟩ hm
    · split
      · exact .cons ⟨rfl, hab⟩ (.cons hc hm)
      · exact .cons hc ih

/-- Lists of related bindings become related maps. -/
theorem Related.ofList {R : α → β → Prop} {l : List (Bytes × α)} {l' : List (Bytes × β)}
    (h : Related R l l') : Related R (ofList l) (ofList l') := by
  have hfoldl : ∀ {m : KeyMap α} {m' : KeyMap β}, Related R m m' →
      Related R (l.foldl (fun m b => m.insert b.1 b.2) m)
        (l'.foldl (fun m b => m.insert b.1 b.2) m') := by
    induction h with
    | nil => exact id
    | @cons b b' l l' hb hl ih =>
      intro m m' hm
      rw [List.foldl_cons, List.foldl_cons, ← hb.1]
      exact ih (hm.insert b.1 hb.2)
  exact hfoldl .nil

end RelaxedJson.KeyMap
