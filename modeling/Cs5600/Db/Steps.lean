import Cs5600.Interleave
import Cs5600.Db.Moves

/-!
# Calls of several workers

The workers of the server call `db_write`, `db_read` and `db_delete` at the same
time, without a lock around the table. A call is then a sequence of steps in the
order of its code, each of which is atomic: a lookup (`find_key` or
`free_index`), an assignment to a record, or a system call. A call stands at one
of these steps (`WritePc` and so on), and the steps of calls interleave in any
order (`Config.step`).

A call whose steps are not interleaved with others is the function of the source
(`write_alone` and so on).
-/

namespace Cs5600.Db

/-- The data of a record: at most the 4096 bytes that the server has space for. -/
structure Data where
  bytes : List UInt8
  length_le : bytes.length ≤ 4096

/-- Where a call of `db_write` stands: its next step, or what it returned. -/
inductive WritePc
  | findKey
  | freeIndex
  | setBusy (index : Fin 200)
  | create (index : Fin 200)
  | write (index : Fin 200) (fd : ℕ)
  | setName (index : Fin 200)
  | setValid (index : Fin 200)
  | setInvalid (index : Fin 200)
  | done (r : ℤ)

/-- Where a call of `db_read` stands. If it succeeds, it returns the number of bytes read. -/
inductive ReadPc
  | findKey
  | openFile (index : Fin 200)
  | read (fd : ℕ)
  | done (r : Option (List UInt8))

/-- Where a call of `db_delete` stands. -/
inductive DeletePc
  | findKey
  | checkBusy (index : Fin 200)
  | unlink (index : Fin 200)
  | setInvalid (index : Fin 200)
  | done (r : ℤ)

/-- A call, with its arguments. -/
inductive Call
  | write (name : Key) (data : Data) (pc : WritePc)
  | read (name : Key) (pc : ReadPc)
  | delete (name : Key) (pc : DeletePc)

/-- A step of `db_write`. -/
def writeStep (io : Io) (name : Key) (data : Data) (s : State) : WritePc → WritePc × State
  | .findKey =>
    match s.findKey name.bytes with
    | some index => (.setBusy index, s)
    | none => (.freeIndex, s)
  | .freeIndex =>
    match s.freeIndex with
    | some index => (.setBusy index, s)
    | none => (.done (-1), s)
  | .setBusy index => (.create index, s.setStatus index .busy)
  | .create index =>
    if io.opens then (.write index (s.create index).2, (s.create index).1)
    else (.setInvalid index, s)
  | .write index fd =>
    let writeDone := io.written data.bytes.length
    let s := s.write fd (data.bytes.take writeDone.toNat)
    if writeDone ≠ data.bytes.length then (.setInvalid index, s) else (.setName index, s)
  | .setName index => (.setValid index, s.setName index name.bytes)
  | .setValid index => (.done 0, s.setStatus index .valid)
  | .setInvalid index => (.done (-1), s.setStatus index .invalid)
  | .done r => (.done r, s)

/-- A step of `db_read`. -/
def readStep (io : Io) (name : Key) (s : State) : ReadPc → ReadPc
  | .findKey =>
    match s.findKey name.bytes with
    | some index => .openFile index
    | none => .done none
  | .openFile index =>
    match s.file index with
    | some fd => if io.opens then .read fd else .done none
    | none => .done none
  | .read fd => .done (some ((s.content fd).take 4096))
  | .done r => .done r

/-- A step of `db_delete`. -/
def deleteStep (name : Key) (s : State) : DeletePc → DeletePc × State
  | .findKey =>
    match s.findKey name.bytes with
    | some index => (.checkBusy index, s)
    | none => (.done (-1), s)
  | .checkBusy index =>
    if (s.table index).status = .busy then (.done (-1), s) else (.unlink index, s)
  | .unlink index =>
    if (s.file index).isSome then (.setInvalid index, s.unlink index) else (.done (-1), s)
  | .setInvalid index => (.done 0, s.setStatus index .invalid)
  | .done r => (.done r, s)

theorem of_deleteStep_eq_setInvalid {name : Key} {s : State} {pc : DeletePc} {i : Fin 200}
    (h : (deleteStep name s pc).1 = .setInvalid i) : pc = .unlink i ∧ (s.file i).isSome := by
  cases pc with
  | findKey =>
    rw [deleteStep] at h
    cases hf : s.findKey name.bytes <;> rw [hf] at h <;> cases h
  | checkBusy j =>
    rw [deleteStep] at h
    split_ifs at h
  | unlink j =>
    rw [deleteStep] at h
    split_ifs at h with hfile
    obtain rfl := DeletePc.setInvalid.inj h
    exact ⟨rfl, hfile⟩
  | setInvalid j => cases h
  | done r => cases h

theorem of_readStep_eq_read {io : Io} {name : Key} {s : State} {pc : ReadPc} {fd : ℕ}
    (h : readStep io name s pc = .read fd) : ∃ i, pc = .openFile i ∧ s.file i = some fd := by
  cases pc with
  | findKey =>
    rw [readStep] at h
    cases hf : s.findKey name.bytes <;> rw [hf] at h <;> cases h
  | openFile i =>
    rw [readStep] at h
    cases hf : s.file i with
    | none =>
      simp only [hf] at h
      cases h
    | some fd' =>
      simp only [hf] at h
      split_ifs at h
      obtain rfl := ReadPc.read.inj h
      exact ⟨i, rfl, hf⟩
  | read => cases h
  | done => cases h

theorem of_readStep_eq_done {io : Io} {name : Key} {s : State} {pc : ReadPc} {bytes : List UInt8}
    (h : readStep io name s pc = .done (some bytes)) :
    pc = .done (some bytes) ∨ ∃ fd, pc = .read fd ∧ bytes = (s.content fd).take 4096 := by
  cases pc with
  | findKey =>
    rw [readStep] at h
    cases hf : s.findKey name.bytes <;> rw [hf] at h <;> cases h
  | openFile i =>
    rw [readStep] at h
    cases hf : s.file i with
    | none =>
      simp only [hf] at h
      cases h
    | some fd =>
      simp only [hf] at h
      split_ifs at h
      cases h
  | read fd =>
    obtain rfl := Option.some.inj (ReadPc.done.inj h)
    exact .inr ⟨fd, rfl, rfl⟩
  | done => exact .inl h

/-- A step of a call. -/
def Call.step (io : Io) (s : State) : Call → Call × State
  | write name data pc => (.write name data (writeStep io name data s pc).1,
      (writeStep io name data s pc).2)
  | read name pc => (.read name (readStep io name s pc), s)
  | delete name pc => (.delete name (deleteStep name s pc).1, (deleteStep name s pc).2)

/-- The calls of all workers, and the database. -/
structure Config (ι : Type*) where
  calls : ι → Call
  db : State

/-- A step of one of the calls. -/
def Config.step {ι : Type*} [DecidableEq ι] (c : ι) (io : Io) (σ : Config ι) : Config ι where
  calls := Function.update σ.calls c ((σ.calls c).step io σ.db).1
  db := ((σ.calls c).step io σ.db).2

section

variable {ι : Type*} [DecidableEq ι] (σ : Config ι) {c c' : ι} (io : Io)

@[simp] theorem Config.step_calls_self :
    (σ.step c io).calls c = ((σ.calls c).step io σ.db).1 := Function.update_self ..

theorem Config.step_calls_of_ne (h : c' ≠ c) : (σ.step c io).calls c' = σ.calls c' :=
  Function.update_of_ne h ..

end

/-- A call that has not begun. -/
def Call.New : Call → Prop
  | write _ _ pc => pc = .findKey
  | read _ pc => pc = .findKey
  | delete _ pc => pc = .findKey

/-- What a step of a call does to the bytes of files: nothing, or it creates a file, or it writes
    one. -/
theorem Call.step_files (io : Io) (s : State) (k : Call) :
    ((k.step io s).2.content = s.content ∧ (k.step io s).2.fresh = s.fresh ∧
      ∀ n data i fd, (k.step io s).1 ≠ .write n data (.write i fd)) ∨
    (∃ n data i, k = .write n data (.create i) ∧
      k.step io s = (.write n data (.write i (s.create i).2), (s.create i).1)) ∨
    ∃ n data i fd bytes, k = .write n data (.write i fd) ∧ (k.step io s).2 = s.write fd bytes ∧
      ∀ n data i fd, (k.step io s).1 ≠ .write n data (.write i fd) := by
  cases k with
  | read n pc => exact .inl ⟨rfl, rfl, nofun⟩
  | write n data pc =>
    cases pc with
    | findKey =>
      rw [Call.step, writeStep]
      cases s.findKey n.bytes <;> exact .inl ⟨rfl, rfl, nofun⟩
    | freeIndex =>
      rw [Call.step, writeStep]
      cases s.freeIndex <;> exact .inl ⟨rfl, rfl, nofun⟩
    | create i =>
      rw [Call.step, writeStep]
      split_ifs
      · exact .inr (.inl ⟨n, data, i, rfl, rfl⟩)
      · exact .inl ⟨rfl, rfl, nofun⟩
    | write i fd =>
      -- The bytes that `write` has taken are written even if they are too few.
      refine .inr (.inr ⟨n, data, i, fd, data.bytes.take (io.written data.bytes.length).toNat, rfl, ?_⟩)
      rw [Call.step, writeStep]
      simp only []
      split_ifs <;> exact ⟨rfl, nofun⟩
    | _ => exact .inl ⟨rfl, rfl, nofun⟩
  | delete n pc =>
    cases pc with
    | findKey =>
      rw [Call.step, deleteStep]
      cases s.findKey n.bytes <;> exact .inl ⟨rfl, rfl, nofun⟩
    | checkBusy i =>
      rw [Call.step, deleteStep]
      split_ifs <;> exact .inl ⟨rfl, rfl, nofun⟩
    | unlink i =>
      rw [Call.step, deleteStep]
      split_ifs <;> exact .inl ⟨rfl, rfl, nofun⟩
    | _ => exact .inl ⟨rfl, rfl, nofun⟩

/-! ## Calls alone -/

/-- A call after `n` steps of its own. -/
def Call.steps (io : Io) : ℕ → Call × State → Call × State
  | 0, ks => ks
  | n + 1, (k, s) => Call.steps io n (k.step io s)

section Alone

variable (io : Io) (name : Key) (data : Data) (s : State)

/-- The steps of `db_write` from the choice of a slot on. -/
theorem write_alone_setBusy (index : Fin 200) (h : (s.findKey name.bytes).or s.freeIndex = some index) :
    Call.steps io 5 (.write name data (.setBusy index), s) =
      (.write name data (.done (dbWrite io name.bytes data.bytes data.bytes.length s).1),
        (dbWrite io name.bytes data.bytes data.bytes.length s).2) := by
  rw [dbWrite, h]
  cases hio : io.opens with
  | false => simp only [Call.steps, Call.step, writeStep, hio, Bool.false_eq_true, if_false]
  | true =>
    by_cases hw : io.written data.bytes.length = data.bytes.length
    · simp only [Call.steps, Call.step, writeStep, hio, if_true, ne_eq, hw, not_true, if_false]
    · simp only [Call.steps, Call.step, writeStep, hio, if_true, ne_eq, hw, not_false_iff]

/-- The steps of `db_write` make up the function. -/
theorem write_alone : ∃ n, Call.steps io n (.write name data .findKey, s) =
    (.write name data (.done (dbWrite io name.bytes data.bytes data.bytes.length s).1),
      (dbWrite io name.bytes data.bytes data.bytes.length s).2) := by
  cases hf : s.findKey name.bytes with
  | some index =>
    refine ⟨6, ?_⟩
    rw [Call.steps, Call.step, writeStep, hf]
    exact write_alone_setBusy io name data s index (by rw [hf]; rfl)
  | none =>
    cases hi : s.freeIndex with
    | some index =>
      refine ⟨7, ?_⟩
      rw [Call.steps, Call.step, writeStep, hf, Call.steps, Call.step, writeStep, hi]
      exact write_alone_setBusy io name data s index (by rw [hf, hi]; rfl)
    | none =>
      refine ⟨2, ?_⟩
      rw [Call.steps, Call.step, writeStep, hf, Call.steps, Call.step, writeStep, hi, dbWrite, hf, hi]
      rfl

/-- The steps of `db_read` make up the function. -/
theorem read_alone : ∃ n r, Call.steps io n (.read name .findKey, s) = (.read name (.done r), s) ∧
    dbRead io name.bytes s = match r with
      | some bytes => (bytes.length, bytes)
      | none => (-1, []) := by
  cases hf : s.findKey name.bytes with
  | none => exact ⟨1, none, by rw [Call.steps, Call.step, readStep, hf]; rfl, by rw [dbRead, hf]⟩
  | some index =>
    cases hfile : s.file index with
    | none =>
      refine ⟨2, none, ?_, by rw [dbRead, hf]; simp only [hfile]⟩
      rw [Call.steps, Call.step, readStep, hf, Call.steps, Call.step, readStep]
      simp only [hfile, Call.steps]
    | some fd =>
      cases hio : io.opens with
      | false =>
        refine ⟨2, none, ?_, by rw [dbRead, hf]; simp only [hfile, hio, Bool.false_eq_true, if_false]⟩
        rw [Call.steps, Call.step, readStep, hf, Call.steps, Call.step, readStep]
        simp only [hfile, hio, Bool.false_eq_true, if_false, Call.steps]
      | true =>
        refine ⟨3, some ((s.content fd).take 4096), ?_, by
          rw [dbRead, hf]
          simp only [hfile, hio, if_true]⟩
        rw [Call.steps, Call.step, readStep, hf, Call.steps, Call.step, readStep]
        simp only [hfile, hio, if_true, Call.steps, Call.step, readStep]

/-- The steps of `db_delete` make up the function. -/
theorem delete_alone : ∃ n, Call.steps io n (.delete name .findKey, s) =
    (.delete name (.done (dbDelete name.bytes s).1), (dbDelete name.bytes s).2) := by
  cases hf : s.findKey name.bytes with
  | none =>
    refine ⟨1, ?_⟩
    rw [Call.steps, Call.step, deleteStep, dbDelete, hf]
    rfl
  | some index =>
    -- `find_key` only returns records that are VALID.
    have hbusy : (s.table index).status ≠ .busy := by
      rw [(State.of_findKey_eq_some hf).status]
      decide
    by_cases hfile : (s.file index).isSome
    · refine ⟨4, ?_⟩
      rw [dbDelete, hf]
      simp only [Call.steps, Call.step, deleteStep, hf, if_neg hbusy, if_pos hfile]
    · refine ⟨3, ?_⟩
      rw [dbDelete, hf]
      simp only [Call.steps, Call.step, deleteStep, hf, if_neg hbusy, if_neg hfile]

end Alone

end Cs5600.Db
