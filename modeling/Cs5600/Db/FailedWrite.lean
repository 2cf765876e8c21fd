import Cs5600.Db.Sequential

/-!
# Writes that fail

A `db_write` marks its slot BUSY, and creates or truncates its file, before it knows
whether `open` and `write` succeed. If they do not, it marks the slot INVALID, and
returns -1. The slot has been free for a new name, so that nothing is lost. But if
the name has a record, that is the slot, and the record is lost. So a write that fails
leaves the records as they were if and only if there is none of its name
(`keepsRecords_iff`).
-/

namespace Cs5600.Db

open CText

/-! ## Calls in a row -/

/-- What calls lead to that do not overlap. A `db_read` changes nothing. -/
inductive State.Reachable : State → Prop
  | init : Reachable .init
  | write {s : State} (hs : Reachable s) (io : Io) (name data : List UInt8) (len : ℤ) :
    Reachable (dbWrite io name data len s).2
  | delete {s : State} (hs : Reachable s) (name : List UInt8) : Reachable (dbDelete name s).2

section Slot

variable {s : State} {name : List UInt8} {i : Fin 200}

/-- The slot that `db_write` looks up has a record of the name, or none. -/
theorem name_of_slot (hi : (s.findKey name).or s.freeIndex = some i)
    (hvalid : (s.table i).status = .valid) : (s.table i).name = cString name := by
  cases hf : s.findKey name with
  | some j =>
    rw [hf, Option.some_or] at hi
    obtain rfl := Option.some.inj hi
    exact (State.of_findKey hf).2
  | none =>
    rw [hf, Option.none_or] at hi
    rw [State.of_freeIndex_eq_some hi] at hvalid
    cases hvalid

/-- No record before that slot has the name. -/
theorem name_ne_of_lt_slot (hi : (s.findKey name).or s.freeIndex = some i) {j : Fin 200}
    (hj : j < i) (hvalid : (s.table j).status = .valid) : (s.table j).name ≠ cString name := by
  cases hf : s.findKey name with
  | some i' =>
    rw [hf, Option.some_or] at hi
    obtain rfl := Option.some.inj hi
    exact (State.findKey_eq_some_iff.1 hf).2 j hj hvalid
  | none => exact State.findKey_none_iff.1 hf j hvalid

end Slot

section Calls

variable (s : State) (name : List UInt8)

/-- A `db_write` does nothing, or works on one slot, that it looks up. -/
theorem dbWrite_cases (io : Io) (data : List UInt8) (len : ℤ) :
    dbWrite io name data len s = (-1, s) ∨
    ∃ i, (s.findKey name).or s.freeIndex = some i ∧
      ((io.opens ∧ io.written len = len ∧
        dbWrite io name data len s = (0, s.stored i name (data.take len.toNat))) ∨
      (¬(io.opens ∧ io.written len = len) ∧
        ∃ s', dbWrite io name data len s = (-1, s') ∧ s.Moves s' i ∧
          s'.table i = { s.table i with status := .invalid })) := by
  cases hi : (s.findKey name).or s.freeIndex with
  | none =>
    left
    rw [dbWrite, hi]
  | some i =>
    refine .inr ⟨i, rfl, ?_⟩
    by_cases hio : io.opens ∧ io.written len = len
    · exact .inl ⟨hio.1, hio.2, dbWrite_done hi hio.1 hio.2⟩
    · exact .inr ⟨hio, dbWrite_failed data hi hio⟩

/-- A `db_delete` does nothing, or works on the slot of the name. -/
theorem dbDelete_cases :
    dbDelete name s = (-1, s) ∨
    ∃ i, s.findKey name = some i ∧
      dbDelete name s = (0, (s.unlink i).setStatus i .invalid) := by
  cases hi : s.findKey name with
  | none =>
    left
    rw [dbDelete, hi]
  | some i =>
    rw [dbDelete, hi]
    by_cases hbusy : (s.table i).status = .busy
    · left
      simp only [hbusy, if_true]
    · by_cases hfile : (s.file i).isSome
      · refine .inr ⟨i, rfl, ?_⟩
        simp only [hbusy, if_false, hfile, if_true]
      · left
        simp only [hbusy, if_false, hfile]
        rfl

end Calls

theorem State.Reachable.separate {s : State} (h : s.Reachable) : s.Separate := by
  induction h with
  | init => exact State.init_implements.separate
  | write hs io name data len ih =>
    rcases dbWrite_cases _ name io data len with he | ⟨i, -, ⟨-, -, he⟩ | ⟨-, s', he, hmoves, -⟩⟩
    · rwa [he]
    · rw [he]
      exact (stored_moves _ name _ i).separate ih
    · rw [he]
      exact hmoves.separate ih
  | delete hs name ih =>
    rcases dbDelete_cases _ name with he | ⟨i, -, he⟩
    · rwa [he]
    · rw [he]
      exact ((moves_unlink _ i).trans (moves_setStatus _ i .invalid)).separate ih

/-! ## What a failed write leaves -/

/-- Every name is found in `s'` if it is in `s`, with the same data, and there are as many. -/
structure State.KeepsRecords (s s' : State) : Prop where
  found : ∀ name, (s'.findKey name).isSome = (s.findKey name).isSome
  read : ∀ io name, (s.findKey name).isSome → dbRead io name s' = dbRead io name s
  count : s'.countValidObjects = s.countValidObjects

/-- More of a list has a property that is implied, if one element does not imply it. -/
theorem countP_lt_countP {α : Type*} {p q : α → Bool} {l : List α} {a : α}
    (hpq : ∀ b ∈ l, p b → q b) (ha : a ∈ l) (hp : ¬p a) (hq : q a) :
    l.countP p < l.countP q := by
  obtain ⟨l₁, l₂, rfl⟩ := List.append_of_mem ha
  have h₁ := List.countP_mono_left fun b hb => hpq b (List.mem_append_left _ hb)
  have h₂ := List.countP_mono_left fun b hb =>
    hpq b (List.mem_append_right _ (List.mem_cons_of_mem a hb))
  rw [List.countP_append, List.countP_append, List.countP_cons_of_neg hp,
    List.countP_cons_of_pos hq]
  omega

section Moves

variable {s s' : State} {i : Fin 200} (h : s.Moves s' i)
include h

/-- Work on a slot that has not had the record of a name, and does not get it. -/
theorem State.Moves.findKey_eq {name : List UInt8}
    (hold : (s.table i).status = .valid → (s.table i).name ≠ cString name)
    (hnew : (s'.table i).status = .valid → (s'.table i).name ≠ cString name) :
    s'.findKey name = s.findKey name := by
  have hno : ∀ r : Record, (r.status = .valid → r.name ≠ cString name) →
      (r.status == .valid && r.name == cString name) = false := by
    intro r hr
    rwa [Bool.and_eq_false_iff, beq_eq_false_iff_ne, beq_eq_false_iff_ne, ← imp_iff_not_or]
  rw [State.findKey, State.findKey]
  congr 1
  funext j
  by_cases hj : j = i
  · rw [hj, hno _ hold, hno _ hnew]
  · rw [h.table j hj]

/-- Work on a slot without a record, that leaves it without one, keeps the records. -/
theorem State.Moves.keepsRecords (hs : s.Separate) (hold : (s.table i).status ≠ .valid)
    (hnew : (s'.table i).status ≠ .valid) : s.KeepsRecords s' := by
  have hkey : ∀ name, s'.findKey name = s.findKey name := fun name =>
    h.findKey_eq (fun hv => absurd hv hold) fun hv => absurd hv hnew
  refine ⟨fun name => by rw [hkey], fun io name hname => ?_, ?_⟩
  · obtain ⟨j, hj⟩ := Option.isSome_iff_exists.1 hname
    have hji : j ≠ i := by
      rintro rfl
      exact hold (State.of_findKey hj).1
    rw [dbRead, dbRead, hkey, hj]
    simp only [h.file j hji]
    cases hf : s.file j with
    | none => rfl
    | some fd => simp only [h.content_of_ne hs hji hf]
  · rw [State.countValidObjects, State.countValidObjects]
    congr 1
    funext j
    by_cases hj : j = i
    · rw [hj, beq_false_of_ne hold, beq_false_of_ne hnew]
    · rw [h.table j hj]

/-- There are fewer objects if a record is lost. -/
theorem State.Moves.countValidObjects_lt (hold : (s.table i).status = .valid)
    (hnew : (s'.table i).status ≠ .valid) : s'.countValidObjects < s.countValidObjects := by
  have hle : ∀ j, ((s'.table j).status == .valid) = true →
      ((s.table j).status == .valid) = true := by
    intro j hj
    by_cases hji : j = i
    · rw [hji, hold]
      rfl
    · rwa [h.table j hji] at hj
  exact countP_lt_countP (fun j _ => hle j) (List.mem_finRange i) (by rwa [beq_iff_eq])
    (beq_iff_eq.2 hold)

end Moves

/-- The record of a name is lost if a write fails. -/
theorem not_keepsRecords {s : State} {io : Io} {name : List UInt8} (data : List UInt8) {len : ℤ}
    {i : Fin 200} (hi : s.findKey name = some i) (hio : ¬(io.opens ∧ io.written len = len)) :
    (dbWrite io name data len s).1 = -1 ∧ ¬s.KeepsRecords (dbWrite io name data len s).2 := by
  obtain ⟨s', he, hmoves, htable⟩ := dbWrite_failed data
    (show (s.findKey name).or s.freeIndex = some i by rw [hi]; rfl) hio
  have hinvalid : (s'.table i).status ≠ .valid := by simp [htable]
  rw [he]
  refine ⟨rfl, fun hk => ?_⟩
  exact (hmoves.countValidObjects_lt (State.of_findKey hi).1 hinvalid).ne hk.count

/-- A write that fails, after calls that do not overlap, keeps the records if and only if its name
    has no record; any other one must succeed. -/
theorem keepsRecords_iff {s : State} (hs : s.Reachable) (io : Io) (name data : List UInt8)
    (len : ℤ) :
    ((dbWrite io name data len s).1 = -1 → s.KeepsRecords (dbWrite io name data len s).2) ↔
      s.findKey name = none ∨ (io.opens ∧ io.written len = len) := by
  constructor
  · intro hk
    by_contra hno
    obtain ⟨hkey, hio⟩ := not_or.1 hno
    obtain ⟨i, hi⟩ := Option.ne_none_iff_exists'.1 hkey
    obtain ⟨hfail, hlost⟩ := not_keepsRecords data hi hio
    exact hlost (hk hfail)
  · intro hcond hfail
    rcases dbWrite_cases s name io data len with
      he | ⟨i, hi, ⟨-, -, he⟩ | ⟨hio, s', he, hmoves, htable⟩⟩
    · -- There is no slot, and nothing happens.
      rw [he]
      exact ⟨fun _ => rfl, fun _ _ _ => rfl, rfl⟩
    · rw [he] at hfail
      cases hfail
    · -- The slot has been a free one, as the name has no record.
      have hkey := hcond.resolve_right hio
      rw [hkey, Option.none_or] at hi
      rw [he]
      have hfree : (s.table i).status ≠ .valid := by simp [State.of_freeIndex_eq_some hi]
      exact hmoves.keepsRecords hs.separate hfree (by simp [htable])

/-- The table after a write of one byte for the name "a". -/
def oneRecord : State := (dbWrite .all [97] [120] 1 .init).2

theorem oneRecord_reachable : oneRecord.Reachable := .write .init .all [97] [120] 1

/-- `open` fails for another byte. -/
theorem keepsRecords_iff_oneRecord :
    ((dbWrite { opens := false, short := some 0 } [97] [121] 1 oneRecord).1 = -1 →
      oneRecord.KeepsRecords
        (dbWrite { opens := false, short := some 0 } [97] [121] 1 oneRecord).2) ↔
    oneRecord.findKey [97] = none ∨
      (false ∧ Io.written { opens := false, short := some 0 } 1 = 1) :=
  keepsRecords_iff oneRecord_reachable _ _ _ _

/-- The first byte is lost then. -/
theorem not_keepsRecords_oneRecord : oneRecord.Reachable ∧
    (dbWrite { opens := false, short := some 0 } [97] [121] 1 oneRecord).1 = -1 ∧
    ¬oneRecord.KeepsRecords
      (dbWrite { opens := false, short := some 0 } [97] [121] 1 oneRecord).2 := by
  have hkey : oneRecord.findKey [97] = some 0 := by decide +kernel
  exact ⟨oneRecord_reachable, not_keepsRecords [121] hkey (by simp)⟩

end Cs5600.Db
