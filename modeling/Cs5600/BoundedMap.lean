import Mathlib.Data.Set.Card

/-!
# Maps of bounded capacity

A map from keys to values that has room for a number of keys, with what it
replies to queries (`step`), and tables of slots that represent it: no two slots
have the same key, and the map has the values of the slots (`Represents`). A
table represents the map again after a slot is written with a key that it has
already, or that no slot has, or after a slot is emptied. There are as many keys
as slots with a key (`Represents.size_eq`), so that there is a free slot if and
only if the map is not full (`Represents.exists_free`).
-/

namespace BoundedMap

variable {κ ν : Type*}

/-- The number of keys of a map. -/
noncomputable def size (m : κ → Option ν) : ℕ := {k | (m k).isSome}.ncard

/-- What one may ask of a map. -/
inductive Query (κ ν : Type*)
  | write (k : κ) (v : ν)
  | read (k : κ)
  | delete (k : κ)

/-- What a map replies. -/
inductive Reply (ν : Type*)
  | ok
  | value (v : ν)
  | fail

/-- What a map of a given capacity replies to a query, and the map after it. -/
noncomputable def step [DecidableEq κ] (capacity : ℕ) (m : κ → Option ν) :
    Query κ ν → Reply ν × (κ → Option ν)
  | .write k v =>
    if (m k).isSome ∨ size m < capacity then (.ok, Function.update m k (some v)) else (.fail, m)
  | .read k =>
    match m k with
    | some v => (.value v, m)
    | none => (.fail, m)
  | .delete k => if (m k).isSome then (.ok, Function.update m k none) else (.fail, m)

/-- The replies to queries in a row, and the map after them. -/
noncomputable def run [DecidableEq κ] (capacity : ℕ) (m : κ → Option ν) :
    List (Query κ ν) → List (Reply ν) × (κ → Option ν)
  | [] => ([], m)
  | q :: qs =>
    ((step capacity m q).1 :: (run capacity (step capacity m q).2 qs).1,
      (run capacity (step capacity m q).2 qs).2)

/-! ## Tables -/

variable {ι : Type*}

/-- A table of slots that has the keys of a map, each once, with their values. -/
structure Represents (t : ι → Option (κ × ν)) (m : κ → Option ν) : Prop where
  unique : ∀ i j k v w, t i = some (k, v) → t j = some (k, w) → i = j
  eq_some : ∀ k v, m k = some v ↔ ∃ i, t i = some (k, v)

theorem Represents.empty : Represents (fun _ : ι => none) (fun _ : κ => (none : Option ν)) :=
  ⟨nofun, fun _ _ => ⟨nofun, nofun⟩⟩

variable {t t' : ι → Option (κ × ν)} {m : κ → Option ν} {i : ι} {k : κ} {v : ν}

namespace Represents

theorem eq_none (h : Represents t m) : m k = none ↔ ∀ i v, t i ≠ some (k, v) := by
  rw [Option.eq_none_iff_forall_ne_some]
  exact ⟨fun hk i v hi => hk v ((h.eq_some k v).2 ⟨i, hi⟩), fun hk v hv =>
    have ⟨i, hi⟩ := (h.eq_some k v).1 hv
    hk i v hi⟩

variable [DecidableEq κ]

/-- A slot gets a value for a key that no other slot has. -/
theorem write (h : Represents t m) (hi : t' i = some (k, v)) (hne : ∀ j, j ≠ i → t' j = t j)
    (hfree : ∀ k' w, t i = some (k', w) → k' = k) (hkey : ∀ j w, t j = some (k, w) → j = i) :
    Represents t' (Function.update m k (some v)) := by
  have hother : ∀ j, j ≠ i → ∀ w, t' j ≠ some (k, w) :=
    fun j hj w hw => hj (hkey j w ((hne j hj).symm.trans hw))
  refine ⟨fun a b k' w w' ha hb => ?_, fun k' w => ?_⟩
  · by_cases hai : a = i <;> by_cases hbi : b = i
    · rw [hai, hbi]
    · subst hai
      obtain ⟨rfl, rfl⟩ := Prod.mk.inj (Option.some.inj (hi.symm.trans ha))
      exact absurd hb (hother b hbi w')
    · subst hbi
      obtain ⟨rfl, rfl⟩ := Prod.mk.inj (Option.some.inj (hi.symm.trans hb))
      exact absurd ha (hother a hai w)
    · rw [hne a hai] at ha
      rw [hne b hbi] at hb
      exact h.unique a b k' w w' ha hb
  · by_cases hk : k' = k
    · subst hk
      rw [Function.update_self]
      constructor
      · intro hw
        obtain rfl := Option.some.inj hw
        exact ⟨i, hi⟩
      · rintro ⟨j, hj⟩
        by_cases hji : j = i
        · subst hji
          exact congrArg some (Prod.mk.inj (Option.some.inj (hi.symm.trans hj))).2
        · exact absurd hj (hother j hji w)
    · rw [Function.update_of_ne hk, h.eq_some]
      -- The slot that changes has had no other key, and has none now.
      have hold : ∀ w, t i ≠ some (k', w) := fun w hw => hk (hfree k' w hw)
      have hnew : ∀ w, t' i ≠ some (k', w) := by
        intro w hw
        rw [hi] at hw
        exact hk (Prod.mk.inj (Option.some.inj hw)).1.symm
      refine exists_congr fun j => ?_
      by_cases hji : j = i
      · subst hji
        exact iff_of_false (hold w) (hnew w)
      · rw [hne j hji]

/-- The slot of a key is emptied. -/
theorem delete (h : Represents t m) (hi : t i = some (k, v)) (hnone : t' i = none)
    (hne : ∀ j, j ≠ i → t' j = t j) : Represents t' (Function.update m k none) := by
  have hsome : ∀ j a, t' j = some a → t j = some a ∧ j ≠ i := by
    intro j a hj
    have hji : j ≠ i := by
      rintro rfl
      rw [hnone] at hj
      cases hj
    exact ⟨(hne j hji).symm.trans hj, hji⟩
  refine ⟨fun a b k' w w' ha hb => h.unique a b k' w w' (hsome a _ ha).1 (hsome b _ hb).1,
    fun k' w => ?_⟩
  by_cases hk : k' = k
  · -- The emptied slot was the only one of the key.
    subst hk
    rw [Function.update_self]
    refine iff_of_false nofun ?_
    rintro ⟨j, hj⟩
    obtain ⟨hj, hji⟩ := hsome j _ hj
    exact hji (h.unique j i k' w v hj hi)
  · rw [Function.update_of_ne hk, h.eq_some]
    constructor
    · rintro ⟨j, hj⟩
      have hji : j ≠ i := by
        rintro rfl
        exact hk (Prod.mk.inj (Option.some.inj (hj.symm.trans hi))).1
      exact ⟨j, (hne j hji).trans hj⟩
    · rintro ⟨j, hj⟩
      exact ⟨j, (hsome j _ hj).1⟩

omit [DecidableEq κ] in
/-- There are as many keys as slots that have one. -/
theorem size_eq (h : Represents t m) : size m = {i | (t i).isSome}.ncard := by
  have hslot : ∀ k ∈ {k | (m k).isSome}, ∃ i v, t i = some (k, v) := by
    intro k hk
    obtain ⟨v, hv⟩ := Option.isSome_iff_exists.1 hk
    obtain ⟨i, hi⟩ := (h.eq_some k v).1 hv
    exact ⟨i, v, hi⟩
  choose f w hf using hslot
  refine Set.ncard_congr f (fun k hk => ?_) (fun k k' hk hk' he => ?_) fun i hi => ?_
  · exact Option.isSome_iff_exists.2 ⟨_, hf k hk⟩
  · have hk1 := hf k hk
    rw [he, hf k' hk'] at hk1
    exact (Prod.mk.inj (Option.some.inj hk1)).1.symm
  · obtain ⟨⟨k, v⟩, hkv⟩ := Option.isSome_iff_exists.1 hi
    have hk : k ∈ {k | (m k).isSome} := Option.isSome_iff_exists.2 ⟨v, (h.eq_some k v).2 ⟨i, hkv⟩⟩
    exact ⟨k, hk, h.unique _ _ k _ _ (hf k hk) hkv⟩

omit [DecidableEq κ] in
/-- A table has a free slot if and only if the map it represents is not full. -/
theorem exists_free [Finite ι] (h : Represents t m) :
    (∃ i, t i = none) ↔ size m < Nat.card ι := by
  rw [h.size_eq, ← Set.ncard_univ]
  constructor
  · rintro ⟨i, hi⟩
    refine Set.ncard_lt_ncard ⟨Set.subset_univ _, fun hsub => ?_⟩
    have hsome : (t i).isSome := hsub (Set.mem_univ i)
    rw [hi] at hsome
    cases hsome
  · intro hlt
    by_contra hno
    refine hlt.ne (congrArg _ (Set.eq_univ_of_forall fun i => ?_))
    exact Option.isSome_iff_ne_none.2 fun hi => hno ⟨i, hi⟩

end Represents

/-! ## Filling a map -/

section Fill

variable [DecidableEq κ] {capacity : ℕ}

theorem run_append (m : κ → Option ν) (qs qs' : List (Query κ ν)) :
    run capacity m (qs ++ qs') =
      ((run capacity m qs).1 ++ (run capacity (run capacity m qs).2 qs').1,
        (run capacity (run capacity m qs).2 qs').2) := by
  induction qs generalizing m with
  | nil => rfl
  | cons q qs ih =>
    rw [List.cons_append, run, run, ih]
    rfl

/-- The map of a list of keys and values. -/
def ofList (kvs : List (κ × ν)) : κ → Option ν := fun k => kvs.lookup k

theorem ofList_eq_none {kvs : List (κ × ν)} : ofList kvs k = none ↔ k ∉ kvs.map Prod.fst := by
  rw [ofList, List.lookup_eq_none_iff, List.mem_map, not_exists]
  refine forall_congr' fun kv => ?_
  rw [not_and, bne_iff_ne, ne_comm]

theorem ofList_cons (k : κ) (v : ν) (kvs : List (κ × ν)) :
    ofList ((k, v) :: kvs) = Function.update (ofList kvs) k (some v) := by
  funext k'
  rw [ofList, List.lookup_cons, Function.update_apply]
  by_cases hk : k' = k
  · rw [if_pos hk, beq_iff_eq.2 hk]
  · rw [if_neg hk, beq_eq_false_iff_ne.2 hk]
    rfl

theorem ofList_concat {kvs : List (κ × ν)} (hk : k ∉ kvs.map Prod.fst) (v : ν) :
    ofList (kvs ++ [(k, v)]) = Function.update (ofList kvs) k (some v) := by
  induction kvs with
  | nil => exact ofList_cons k v []
  | cons kv kvs ih =>
    obtain ⟨hne, hk⟩ := not_or.1 (List.mem_cons.not.1 hk)
    rw [List.cons_append, ofList_cons, ih hk, ofList_cons, Function.update_comm hne]

theorem size_ofList (kvs : List (κ × ν)) (h : (kvs.map Prod.fst).Nodup) :
    size (ofList kvs) = kvs.length := by
  have hset : {k | (ofList kvs k).isSome} = (kvs.map Prod.fst).toFinset := by
    ext k
    rw [List.coe_toFinset]
    refine Iff.trans ?_ (not_iff_comm.1 ofList_eq_none.symm)
    exact Option.isSome_iff_ne_none
  rw [size, hset, Set.ncard_coe_finset, List.toFinset_card_of_nodup h, List.length_map]

/-- Of new keys, as many are accepted as there is room for. -/
theorem run_writes (acc : List (κ × ν)) {kvs : List (κ × ν)} {room : ℕ}
    (h : ((acc ++ kvs).map Prod.fst).Nodup) (hroom : acc.length + room = capacity) :
    run capacity (ofList acc) (kvs.map fun kv => .write kv.1 kv.2) =
      (List.replicate (min room kvs.length) .ok ++ List.replicate (kvs.length - room) .fail,
        ofList (acc ++ kvs.take room)) := by
  induction kvs generalizing acc room with
  | nil => simp [run]
  | cons kv kvs ih =>
    obtain ⟨k, v⟩ := kv
    have hnodup := h
    rw [List.map_append] at hnodup
    have hk : k ∉ acc.map Prod.fst := fun hmem =>
      List.disjoint_of_nodup_append hnodup hmem List.mem_cons_self
    have hsize := size_ofList _ hnodup.of_append_left
    rw [List.map_cons, run, step, ofList_eq_none.2 hk, hsize]
    cases room with
    | zero =>
      -- There is no room, neither for this key nor for the ones after it.
      have hrest : ((acc ++ kvs).map Prod.fst).Nodup :=
        h.sublist (((List.sublist_cons_self _ _).append_left _).map _)
      rw [if_neg (by simp; omega), ih _ hrest hroom]
      simp [List.replicate_succ]
    | succ room =>
      have hnext : (acc ++ [(k, v)]).length + room = capacity := by
        rw [List.length_append, List.length_singleton]
        omega
      rw [if_pos (.inr (by omega)), ← ofList_concat hk, ih _ (by rwa [List.append_assoc]) hnext]
      simp [List.replicate_succ, Nat.add_min_add_right]

/-- The keys of a map are removed. -/
theorem run_deletes {kvs : List (κ × ν)} (h : (kvs.map Prod.fst).Nodup) :
    run capacity (ofList kvs) (kvs.map fun kv => .delete kv.1) =
      (List.replicate kvs.length .ok, fun _ => none) := by
  induction kvs with
  | nil => rfl
  | cons kv kvs ih =>
    obtain ⟨k, v⟩ := kv
    obtain ⟨hk, h⟩ := List.nodup_cons.1 h
    have hdelete : Function.update (Function.update (ofList kvs) k (some v)) k none = ofList kvs := by
      rw [Function.update_idem, ← ofList_eq_none.2 hk, Function.update_eq_self]
    rw [List.map_cons, run, step, ofList_cons, Function.update_self,
      if_pos (show (some v).isSome = true from rfl), hdelete, ih h]
    rfl

/-- No key is removed from the empty map. -/
theorem run_deletes_empty (kvs : List (κ × ν)) :
    run capacity (fun _ => (none : Option ν)) (kvs.map fun kv => .delete kv.1) =
      (List.replicate kvs.length .fail, fun _ => none) := by
  induction kvs with
  | nil => rfl
  | cons kv kvs ih =>
    rw [List.map_cons, run, step, if_neg (show ¬(none : Option ν).isSome = true from Bool.false_ne_true),
      ih]
    rfl

/-- Keys that are all different are written to the empty map, and then deleted: as many as there is
    room for are accepted, and these are removed again. -/
theorem run_writes_deletes {kvs : List (κ × ν)} (h : (kvs.map Prod.fst).Nodup) :
    run capacity (fun _ => none)
        ((kvs.map fun kv => .write kv.1 kv.2) ++ kvs.map fun kv => .delete kv.1) =
      (let replies := List.replicate (min capacity kvs.length) .ok ++
        List.replicate (kvs.length - capacity) .fail
      (replies ++ replies, fun _ => none)) := by
  have hwrites := run_writes [] h (Nat.zero_add capacity)
  change run capacity (fun _ => none) _ = _ at hwrites
  have htake : ((kvs.take capacity).map Prod.fst).Nodup :=
    h.sublist ((List.take_sublist _ _).map _)
  have hdeletes : (kvs.map fun kv => (.delete kv.1 : Query κ ν)) =
      ((kvs.take capacity).map fun kv => .delete kv.1) ++
        (kvs.drop capacity).map fun kv => .delete kv.1 := by
    rw [← List.map_append, List.take_append_drop]
  rw [run_append, hwrites, List.nil_append, hdeletes, run_append, run_deletes htake,
    run_deletes_empty, List.length_take, List.length_drop]

end Fill

end BoundedMap
