import Cs5600.BoundedMap
import Cs5600.Db.Moves

/-!
# Calls in a row

Between calls that do not overlap, the table represents a map from names to data
(`State.Implements`). It has a record for each name, whose file has the data, and
no record is BUSY. Each function of the database does what the map does, if the
system calls succeed: `db_write` sets a name unless the map is full, `db_read`
returns the data of a name, and `db_delete` removes it.
-/

namespace Cs5600.Db

open BoundedMap CText

/-! ## The map of a table -/

/-- What the records have: the name and the data of those that are VALID. -/
def State.slots (s : State) (i : Fin 200) : Option (List UInt8 × List UInt8) :=
  if (s.table i).status = .valid then some ((s.table i).name, (s.file i).elim [] s.content)
  else none

/-- A table between calls, and the map that it represents. -/
structure State.Implements (s : State) (m : List UInt8 → Option (List UInt8)) : Prop where
  represents : Represents s.slots m
  noBusy : ∀ i, (s.table i).status ≠ .busy
  files : ∀ i, (s.table i).status = .valid → (s.file i).isSome
  separate : s.Separate
  sized : ∀ k v, m k = some v → 0 < v.length ∧ v.length ≤ 4096

section Slots

variable {s s' : State} {i j : Fin 200} {m : List UInt8 → Option (List UInt8)}
  {name : List UInt8}

theorem slots_eq_none : s.slots i = none ↔ (s.table i).status ≠ .valid := by
  rw [State.slots]
  split_ifs with h
  · exact iff_of_false nofun (not_not.2 h)
  · exact iff_of_true rfl h

theorem slots_eq_some {k v : List UInt8} : s.slots i = some (k, v) ↔
    (s.table i).status = .valid ∧ (s.table i).name = k ∧ (s.file i).elim [] s.content = v := by
  rw [State.slots]
  split_ifs with h
  · rw [Option.some.injEq, Prod.mk.injEq]
    exact (and_iff_right h).symm
  · exact iff_of_false nofun fun hv => h hv.1

/-- Work on a slot leaves the other ones alone. -/
theorem State.Moves.slots (h : s.Moves s' i) (hs : s.Separate) (hj : j ≠ i) :
    s'.slots j = s.slots j := by
  rw [State.slots, State.slots, h.table j hj, h.file j hj]
  cases hf : s.file j with
  | none => rfl
  | some f => rw [Option.elim_some, Option.elim_some, h.content_of_ne hs hj hf]

theorem State.init_implements : State.init.Implements fun _ => none where
  represents := by
    have hslots : State.init.slots = fun _ => none := funext fun i => slots_eq_none.2 nofun
    rw [hslots]
    exact .empty
  noBusy := nofun
  files := nofun
  separate := ⟨nofun, nofun⟩
  sized := nofun

theorem State.Implements.findKey_none (h : s.Implements m) :
    s.findKey name = none ↔ m (cString name) = none := by
  rw [findKey_none_iff, h.represents.eq_none]
  refine forall_congr' fun i => ⟨fun hi v hv => ?_, fun hi hst hn => ?_⟩
  · obtain ⟨hst, hn, _⟩ := slots_eq_some.1 hv
    exact hi hst hn
  · exact hi _ (slots_eq_some.2 ⟨hst, hn, rfl⟩)

/-- A record that `find_key` finds has a file with the data of the name. -/
theorem State.Implements.of_findKey (h : s.Implements m) (hi : s.findKey name = some i) :
    ∃ fd, s.file i = some fd ∧ m (cString name) = some (s.content fd) ∧
      s.slots i = some (cString name, s.content fd) := by
  obtain ⟨hst, hn⟩ := State.of_findKey hi
  obtain ⟨fd, hfd⟩ := Option.isSome_iff_exists.1 (h.files i hst)
  have hslot : s.slots i = some (cString name, s.content fd) :=
    slots_eq_some.2 ⟨hst, hn, by rw [hfd]; rfl⟩
  exact ⟨fd, hfd, (h.represents.eq_some _ _).2 ⟨i, hslot⟩, hslot⟩

/-- A slot is free if and only if the map is not full. -/
theorem State.Implements.freeIndex_none (h : s.Implements m) :
    s.freeIndex = none ↔ 200 ≤ size m := by
  have hfree := h.represents.exists_free
  rw [Nat.card_eq_fintype_card, Fintype.card_fin] at hfree
  rw [freeIndex_eq_none, ← not_lt, ← hfree, not_exists]
  refine forall_congr' fun i => ?_
  rw [slots_eq_none, not_not]
  cases hst : (s.table i).status with
  | invalid => exact iff_of_false (fun hne => hne rfl) nofun
  | busy => exact absurd hst (h.noBusy i)
  | valid => exact iff_of_true nofun rfl

theorem State.Implements.countValidObjects (h : s.Implements m) :
    s.countValidObjects = size m := by
  have hslot : ∀ i, (s.slots i).isSome ↔ (s.table i).status = .valid := by
    intro i
    rw [Option.isSome_iff_ne_none, ne_eq, slots_eq_none, not_not]
  have hset : {i | (s.slots i).isSome} =
      ((List.finRange 200).filter fun i => (s.table i).status == .valid).toFinset := by
    ext i
    rw [List.coe_toFinset]
    refine (hslot i).trans ⟨fun hi => ?_, fun hi => ?_⟩
    · exact List.mem_filter.2 ⟨List.mem_finRange i, beq_iff_eq.2 hi⟩
    · exact beq_iff_eq.1 (List.mem_filter.1 hi).2
  rw [h.represents.size_eq, hset, Set.ncard_coe_finset,
    List.toFinset_card_of_nodup ((List.nodup_finRange 200).filter _), State.countValidObjects,
    List.countP_eq_length_filter]

end Slots

/-! ## The functions of the database -/

section Functions

variable {s : State} {m : List UInt8 → Option (List UInt8)} {name data : List UInt8}

/-- The state after a `db_write` of a slot that succeeds. -/
def State.stored (s : State) (i : Fin 200) (name bytes : List UInt8) : State :=
  let created := (s.setStatus i .busy).create i
  ((created.1.write created.2 bytes).setName i name).setStatus i .valid

/-- A `db_write` that gets a slot succeeds if `open` does and `write` writes all of the data. -/
theorem dbWrite_done {i : Fin 200} {io : Io} {len : ℤ}
    (hi : (s.findKey name).or s.freeIndex = some i) (hopens : io.opens)
    (hwritten : io.written len = len) :
    dbWrite io name data len s = (0, s.stored i name (data.take len.toNat)) := by
  rw [dbWrite, hi]
  simp only [hopens, if_true, hwritten, ne_eq, not_true_eq_false, if_false]
  rfl

/-- A `db_write` that gets a slot and fails leaves it INVALID, whatever it was. -/
theorem dbWrite_failed (data : List UInt8) {i : Fin 200} {io : Io} {len : ℤ}
    (hi : (s.findKey name).or s.freeIndex = some i)
    (hio : ¬(io.opens ∧ io.written len = len)) :
    ∃ s', dbWrite io name data len s = (-1, s') ∧ s.Moves s' i ∧
      s'.table i = { s.table i with status := .invalid } := by
  have hbusy := moves_setStatus s i .busy
  rw [dbWrite, hi]
  by_cases hopens : io.opens
  · have hne : io.written len ≠ len := fun h => hio ⟨hopens, h⟩
    have hmoves := (hbusy.trans (moves_create _ i)).trans
      (moves_write State.create_file_self (data.take (io.written len).toNat))
    simp only [hopens, if_true, ne_eq, hne, not_false_eq_true]
    refine ⟨_, rfl, hmoves.trans (moves_setStatus _ i .invalid), ?_⟩
    rw [State.setStatus_self]
    change { ((s.setStatus i .busy).create i).1.table i with status := Status.invalid } = _
    rw [State.create_table, State.setStatus_self]
  · simp only [hopens]
    refine ⟨_, rfl, hbusy.trans (moves_setStatus _ i .invalid), ?_⟩
    rw [State.setStatus_self, State.setStatus_self]

theorem written_all {len : ℤ} (hlen : -1 ≤ len) : Io.all.written len = len := by
  rw [Io.written]
  split_ifs with hneg
  · omega
  · exact (max_eq_right (by omega)).trans (sub_zero _)

theorem dbWrite_all {i : Fin 200} (hi : (s.findKey name).or s.freeIndex = some i) (len : ℕ) :
    dbWrite .all name data len s = (0, s.stored i name (data.take len)) :=
  dbWrite_done hi rfl (written_all (le_trans (by decide) (Int.natCast_nonneg len)))

section Stored

variable (s name data) (i : Fin 200)

theorem stored_moves : s.Moves (s.stored i name data) i := by
  refine (moves_setStatus s i .busy).trans ((moves_create _ i).trans ?_)
  refine (moves_write State.create_file_self data).trans ?_
  exact (moves_setName _ i name).trans (moves_setStatus _ i .valid)

theorem stored_table : (s.stored i name data).table i =
    { recordName := strncpy name, status := .valid } := by
  rw [State.stored, State.setStatus_self, State.setName_self]

theorem stored_file : ∃ fd, (s.stored i name data).file i = some fd ∧
    (s.stored i name data).content fd = data := by
  refine ⟨_, State.create_file_self (s := s.setStatus i .busy), ?_⟩
  change (((s.setStatus i .busy).create i).1.write _ data).content _ = data
  rw [State.write_content_self, State.create_content_self, List.drop_nil, List.append_nil]

theorem stored_name : ((s.stored i name data).table i).name = (cString name).take 31 := by
  rw [stored_table]
  exact cString_strncpy name 31

/-- The new record is found by its name, unless there is an earlier one of that name. -/
theorem stored_findKey_iff {key : List UInt8} :
    (s.stored i name data).findKey key = some i ↔ (cString name).take 31 = cString key ∧
      ∀ j < i, (s.table j).status = .valid → (s.table j).name ≠ cString key := by
  have hstatus : ((s.stored i name data).table i).status = .valid := by rw [stored_table]
  rw [State.findKey_eq_some_iff, stored_name, and_iff_right hstatus]
  refine and_congr_right fun _ => forall₂_congr fun j hj => ?_
  rw [(stored_moves s name data i).table j hj.ne]

theorem stored_slots (hname : (cString name).length ≤ 30) :
    (s.stored i name data).slots i = some (cString name, data) := by
  obtain ⟨fd, hfd, hdata⟩ := stored_file s name data i
  refine slots_eq_some.2 ⟨?_, ?_, ?_⟩
  · rw [stored_table]
  · rw [stored_name, List.take_of_length_le (by omega)]
  · rw [hfd, Option.elim_some, hdata]

end Stored

/-- A slot that has another record, or none, gets a record of a name that no other slot has. -/
theorem State.Implements.stored {i : Fin 200} (h : s.Implements m)
    (hname : (cString name).length ≤ 30) (hdata : 0 < data.length ∧ data.length ≤ 4096)
    (hfree : ∀ k v, s.slots i = some (k, v) → k = cString name)
    (hkey : ∀ j v, s.slots j = some (cString name, v) → j = i) :
    (s.stored i name data).Implements (Function.update m (cString name) (some data)) := by
  have hm := stored_moves s name data i
  obtain ⟨fd, hfd, _⟩ := stored_file s name data i
  refine ⟨h.represents.write (stored_slots s name data i hname)
    (fun j hj => hm.slots h.separate hj) hfree hkey, fun j => ?_, fun j hj => ?_,
    hm.separate h.separate, fun k v hv => ?_⟩
  · by_cases hji : j = i
    · subst hji
      rw [stored_table]
      exact nofun
    · rw [hm.table j hji]
      exact h.noBusy j
  · by_cases hji : j = i
    · subst hji
      -- A file has been created for the slot.
      rw [hfd]
      rfl
    · rw [hm.table j hji] at hj
      rw [hm.file j hji]
      exact h.files j hj
  · by_cases hk : k = cString name
    · subst hk
      rw [Function.update_self] at hv
      exact Option.some.inj hv ▸ hdata
    · rw [Function.update_of_ne hk] at hv
      exact h.sized k v hv

/-- `db_write` stores the data if the name is there or the map is not full. -/
theorem State.Implements.dbWrite_ok (h : s.Implements m) {len : ℕ}
    (hname : (cString name).length ≤ 30) (hlen : 0 < len ∧ len ≤ 4096) (hdata : len ≤ data.length)
    (hroom : (m (cString name)).isSome ∨ size m < 200) :
    (dbWrite .all name data len s).1 = 0 ∧
      (dbWrite .all name data len s).2.Implements
        (Function.update m (cString name) (some (data.take len))) := by
  have htake : 0 < (data.take len).length ∧ (data.take len).length ≤ 4096 := by
    rwa [List.length_take, min_eq_left hdata]
  cases hf : s.findKey name with
  | some i =>
    -- The name is in the table, and its slot is used again.
    rw [dbWrite_all (i := i) (by rw [hf]; rfl)]
    obtain ⟨fd, _, _, hslot⟩ := h.of_findKey hf
    refine ⟨rfl, h.stored hname htake (fun k v hk => ?_) fun j v hj => ?_⟩
    · exact (Prod.mk.inj (Option.some.inj (hslot.symm.trans hk))).1.symm
    · exact h.represents.unique j i _ _ _ hj hslot
  | none =>
    have hnone := h.findKey_none.1 hf
    cases hi : s.freeIndex with
    | none =>
      rw [hnone] at hroom
      exact absurd (h.freeIndex_none.1 hi) (not_le.2 (hroom.resolve_left nofun))
    | some i =>
      rw [dbWrite_all (i := i) (by rw [hf, hi]; rfl)]
      -- The name is new, and the slot is INVALID, so that it holds no record.
      have hslot : s.slots i = none := by
        rw [slots_eq_none, State.of_freeIndex_eq_some hi]
        decide
      refine ⟨rfl, h.stored hname htake (fun k v hk => ?_) fun j v hj => ?_⟩
      · rw [hslot] at hk
        cases hk
      · exact absurd hj (h.represents.eq_none.1 hnone j v)

/-- `db_write` fails if there is no room for another name. -/
theorem State.Implements.dbWrite_full (h : s.Implements m) (io : Io) (data : List UInt8) (len : ℤ)
    (hroom : ¬((m (cString name)).isSome ∨ size m < 200)) : dbWrite io name data len s = (-1, s) := by
  rw [not_or, Option.not_isSome_iff_eq_none, not_lt] at hroom
  rw [dbWrite, h.findKey_none.2 hroom.1, h.freeIndex_none.2 hroom.2]
  rfl

/-- `db_read` returns the data of the name. -/
theorem State.Implements.dbRead_all (h : s.Implements m) :
    dbRead .all name s = match m (cString name) with
      | some v => (v.length, v)
      | none => (-1, []) := by
  cases hf : s.findKey name with
  | none => rw [h.findKey_none.1 hf, dbRead, hf]
  | some i =>
    obtain ⟨fd, hfd, hm, _⟩ := h.of_findKey hf
    rw [hm, dbRead, hf]
    simp only [hfd, Io.all, if_true, List.take_of_length_le (h.sized _ _ hm).2]

/-- `db_delete` removes the name. -/
theorem State.Implements.dbDelete_ok (h : s.Implements m) (hm : (m (cString name)).isSome) :
    (dbDelete name s).1 = 0 ∧
      (dbDelete name s).2.Implements (Function.update m (cString name) none) := by
  cases hf : s.findKey name with
  | none =>
    rw [h.findKey_none.1 hf] at hm
    cases hm
  | some i =>
    obtain ⟨fd, hfd, _, hslot⟩ := h.of_findKey hf
    -- No slot is BUSY between the calls, and a VALID one has its file, so that both checks pass.
    have hmoves := (moves_unlink s i).trans (moves_setStatus _ i .invalid)
    have hinvalid : (((s.unlink i).setStatus i .invalid).table i).status = .invalid := by
      rw [State.setStatus_self]
    rw [dbDelete, hf]
    simp only [if_neg (h.noBusy i), hfd, Option.isSome_some, if_true]
    refine ⟨trivial, h.represents.delete hslot ?_ fun j hj => hmoves.slots h.separate hj,
      fun j => ?_, fun j hj => ?_, hmoves.separate h.separate, fun k v hv => ?_⟩
    · rw [slots_eq_none, hinvalid]
      decide
    · by_cases hji : j = i
      · subst hji
        rw [hinvalid]
        decide
      · rw [hmoves.table j hji]
        exact h.noBusy j
    · have hji : j ≠ i := by
        rintro rfl
        rw [hinvalid] at hj
        cases hj
      rw [hmoves.table j hji] at hj
      rw [hmoves.file j hji]
      exact h.files j hj
    · by_cases hk : k = cString name
      · subst hk
        rw [Function.update_self] at hv
        cases hv
      · rw [Function.update_of_ne hk] at hv
        exact h.sized k v hv

theorem State.Implements.dbDelete_none (h : s.Implements m) (hm : m (cString name) = none) :
    dbDelete name s = (-1, s) := by
  rw [dbDelete, h.findKey_none.2 hm]

end Functions

end Cs5600.Db
