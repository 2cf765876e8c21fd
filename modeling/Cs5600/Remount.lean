import Cs5600.Namespace

/-!
# Remounting

`fs_init` reads the superblock and the bitmap from the disk. In a run that
starts by loading a well-formed image, the copies in memory are those on the
disk after every call, whether it fails or not: the superblock is never written,
and every change of the bitmap is written through. So `fs_init` changes nothing
(`FsState.WF.fsInit`), wherever it is inserted into the run
(`remount_invisible`).
-/

namespace Cs5600

open FsM

/-- What happens to the file system: a call, or its image is loaded again. -/
inductive Event
  | call (env : Env) (op : Op)
  | init

/-- An event that is a call. -/
def Event.isCall : Event → Bool
  | call _ _ => true
  | init => false

/-- The results of the calls of a run, and its last state. A fault ends the run. -/
def runEvents : FsState → List Event → List (Res Out) × FsState
  | s, [] => ([], s)
  | s, .call env op :: es =>
    match (op.exec env).run s with
    | (.fault t, s') => ([.fault t], s')
    | (r, s') => (r :: (runEvents s' es).1, (runEvents s' es).2)
  | s, .init :: es =>
    match fsInit.run s with
    | (.ok _, s') => runEvents s' es
    | (_, s') => ([], s')

/-- The arguments of every call are as FUSE passes them, in the state the call is made in. -/
def OkAlong : FsState → List Event → Prop
  | _, [] => True
  | s, .call env op :: es => op.Ok s.img ∧ OkAlong ((op.exec env).run s).2 es
  | s, .init :: es => OkAlong (fsInit.run s).2 es

variable {s : FsState}

/-- Loading the image again does not change a well-formed state. -/
theorem FsState.WF.fsInit (h : s.WF) : fsInit.run s = (.ok (), s) := by
  rw [FsState.fsInit_run (le_trans (by decide) h.mounted.three_le), ← h.superblock, ← h.bitmap]

/-- The state after loading a well-formed image is well-formed, whatever was in memory. -/
theorem wf_fsInit (h : s.img.WF) : (fsInit.run s).2.WF := by
  rw [FsState.fsInit_run (le_trans (by decide) h.table.three_le)]
  exact ⟨rfl, rfl, h⟩

/-- A call does not run into the assertion of `block_write`, and does not write the superblock. -/
theorem exec_writable (h : s.WF) (env : Env) {op : Op} (hop : op.Ok s.img) :
    ((op.exec env).run s).1 ≠ .fault .assertion ∧ ∃ ws, ((op.exec env).run s).2.log = s.log ++ ws ∧
      ∀ w ∈ ws, w.lba ≠ 0 := by
  by_cases hm : op.Modifies
  · obtain ⟨r, ws, he⟩ := Op.exists_ends env hm hop
    rw [exec_run h hop he]
    exact ⟨he.ne_fault _, ws, rfl, fun w hw => ((he.writable h.img hop) w hw).1.ne'⟩
  · refine ⟨(exec_idle hm s).2, [], ?_, fun _ hw => absurd hw List.not_mem_nil⟩
    rw [exec_reads hm, List.append_nil]

/-- What holds at the end of every run: the state is well-formed, no assertion of `block_write` has
    failed, and the superblock has not been written. -/
theorem runEvents_wf (h : s.WF) {es : List Event} (hes : OkAlong s es) :
    (runEvents s es).2.WF ∧ Res.fault .assertion ∉ (runEvents s es).1 ∧
      ∃ ws, (runEvents s es).2.log = s.log ++ ws ∧ ∀ w ∈ ws, w.lba ≠ 0 := by
  induction es generalizing s with
  | nil =>
    exact ⟨h, List.not_mem_nil, [], (List.append_nil _).symm,
      fun _ hw => absurd hw List.not_mem_nil⟩
  | cons e es ih =>
    cases e with
    | call env op =>
      obtain ⟨hop, hes⟩ := hes
      have hwf := exec_wf h env hop
      obtain ⟨hr, ws, hlog, hws⟩ := exec_writable h env hop
      obtain ⟨hwf', hrs, vs, hlog', hvs⟩ := ih hwf hes
      rw [runEvents]
      rcases hrun : (op.exec env).run s with ⟨r, s'⟩
      rw [hrun] at hwf hr hlog hwf' hrs hlog'
      have happ : ∃ us, (runEvents s' es).2.log = s.log ++ us ∧ ∀ w ∈ us, w.lba ≠ 0 := by
        refine ⟨ws ++ vs, by rw [hlog', hlog, List.append_assoc], fun w hw => ?_⟩
        exact (List.mem_append.1 hw).elim (hws w) (hvs w)
      have hnew : Res.fault .assertion ∉ r :: (runEvents s' es).1 := by
        rw [List.mem_cons, not_or]
        exact ⟨hr.symm, hrs⟩
      -- After a fault nothing else is run.
      cases r with
      | ok => exact ⟨hwf', hnew, happ⟩
      | err => exact ⟨hwf', hnew, happ⟩
      | fault t => exact ⟨hwf, by rwa [List.mem_singleton, eq_comm], ws, hlog, hws⟩
    | init =>
      -- In a well-formed state `fs_init` reads what is cached already.
      rw [OkAlong, h.fsInit] at hes
      rw [runEvents, h.fsInit]
      exact ih h hes

/-- A run with remounts is the run of its calls. -/
theorem runEvents_filter (h : s.WF) {es : List Event} (hes : OkAlong s (es.filter Event.isCall)) :
    runEvents s es = runEvents s (es.filter Event.isCall) := by
  induction es generalizing s with
  | nil => rfl
  | cons e es ih =>
    cases e with
    | call env op =>
      obtain ⟨hop, hes⟩ := hes
      have hwf := exec_wf h env hop
      rw [List.filter_cons_of_pos rfl, runEvents, runEvents]
      rcases hrun : (op.exec env).run s with ⟨r, s'⟩
      rw [hrun] at hwf hes
      have hrest : runEvents s' es = runEvents s' (es.filter Event.isCall) := ih hwf hes
      cases r with
      | ok => exact congrArg (fun t => (_ :: t.1, t.2)) hrest
      | err => exact congrArg (fun t => (_ :: t.1, t.2)) hrest
      | fault => rfl
    | init =>
      rw [List.filter_cons_of_neg Bool.false_ne_true] at hes ⊢
      rw [runEvents, h.fsInit]
      exact ih h hes

/-- In a run from a well-formed image that `fs_init` has loaded, the copies in memory are those on
    the disk, and the superblock is never written. Loading the image again, at any points of the
    run, changes neither the results of the calls nor the disk. -/
theorem remount_invisible {s₀ : FsState} (h : s₀.img.WF) (es : List Event)
    (hes : OkAlong (fsInit.run s₀).2 (es.filter Event.isCall)) :
    (let s := (fsInit.run s₀).2
    let plain := runEvents s (es.filter Event.isCall)
    let t := (runEvents s es).2
    (t.superblock = t.img.block 0 ∧ t.bitmap = t.img.block 1) ∧
      (Res.fault .assertion ∉ plain.1 ∧ ∀ w ∈ t.log.drop s.log.length, w.lba ≠ 0) ∧
      (runEvents s es).1 = plain.1 ∧ t.img = plain.2.img) := by
  have hs := wf_fsInit h
  obtain ⟨hwf, hrs, ws, hlog, hws⟩ := runEvents_wf hs hes
  intro s plain t
  have hplain : runEvents s es = plain := runEvents_filter hs hes
  have ht : t = plain.2 := congrArg Prod.snd hplain
  refine ⟨?_, ⟨hrs, ?_⟩, congrArg Prod.fst hplain, congrArg FsState.img ht⟩
  · rw [ht]
    exact ⟨hwf.superblock, hwf.bitmap⟩
  · rw [ht, hlog, List.drop_left]
    exact hws

/-- A file is created, the image is loaded again, and then its permissions are changed. -/
theorem remount_chmod :
    (runEvents (fsInit.run emptyFs).2 [.call ⟨500, 500, 0⟩ (.create pathA 0o100644), .init,
      .call ⟨500, 500, 0⟩ (.chmod pathA 0o600)]).1 =
    (runEvents (fsInit.run emptyFs).2 [.call ⟨500, 500, 0⟩ (.create pathA 0o100644),
      .call ⟨500, 500, 0⟩ (.chmod pathA 0o600)]).1 :=
  (remount_invisible wf_emptyFs.img [.call ⟨500, 500, 0⟩ (.create pathA 0o100644), .init,
    .call ⟨500, 500, 0⟩ (.chmod pathA 0o600)] ⟨show RegMode _ from rfl, trivial, trivial⟩).2.2.1

end Cs5600
