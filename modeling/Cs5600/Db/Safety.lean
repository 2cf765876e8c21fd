import Mathlib.Tactic.IntervalCases
import Cs5600.Db.Careful

/-!
# The table under concurrent workers

Careful steps keep the invariant (`Inv.step`), so in careful runs no two calls
of `db_write` have chosen the same slot, and no two VALID records have the same
name. The files of VALID records exist, unless a `db_delete` has removed one and
has yet to mark the record INVALID (`table_consistent`). Without care, all of
this fails (`exists_inconsistent`).
-/

namespace Cs5600.Db

open Interleave

section Step

variable {ι : Type*} [DecidableEq ι] {σ : Config ι} {c : ι}

/-- What the call that works on a slot knows of it. -/
theorem Call.Fits.of_uses {k : Call} {s : State} {i : Fin 200} (hf : k.Fits s)
    (hi : k.uses = some i) : (s.table i).status = .busy ∨
      (∃ n data, k = .write n data (.setBusy i) ∧ (s.Holds i n ∨ (s.table i).status = .invalid)) ∨
      ∃ n, k.Removes n ∧ s.Holds i n ∧ s.file i = none := by
  cases k with
  | read => cases hi
  | write n data pc =>
    cases pc with
    | findKey => cases hi
    | freeIndex => cases hi
    | done => cases hi
    | setBusy j =>
      obtain rfl := Option.some.inj hi
      exact .inr (.inl ⟨n, data, rfl, hf.1⟩)
    | _ =>
      obtain rfl := Option.some.inj hi
      exact .inl hf.1
  | delete n pc =>
    cases pc with
    | setInvalid j =>
      obtain rfl := Option.some.inj hi
      exact .inr (.inr ⟨n, ⟨rfl, nofun⟩, hf.1, hf.2⟩)
    | _ => cases hi

/-- No record of a name, but for one that is BUSY now. -/
theorem State.not_holds_setStatus {s : State} {i : Fin 200} {n : Key} {st : Status}
    (hst : st ≠ .valid) (h : ∀ j, s.Holds j n → j = i) (j : Fin 200) :
    ¬(s.setStatus i st).Holds j n := by
  intro hj
  by_cases hji : j = i
  · subst hji
    have hv := hj.status
    rw [State.setStatus_self] at hv
    exact hst hv
  · refine hji (h j ⟨?_, ?_⟩)
    · rw [← State.setStatus_of_ne st hji, hj.status]
    · rw [← State.setStatus_of_ne st hji, hj.name]

theorem Inv.write_findKey (h : Inv σ) {n : Key} {data : Data}
    (hk : σ.calls c = .write n data .findKey) (hc : σ.Careful c) (io : Io) : Inv (σ.step c io) := by
  rw [Config.Careful, hk] at hc
  rw [Config.step, hk, Call.step, writeStep]
  have hw : ∀ pc m, (Call.write n data pc).Writes m → ∀ c', c' ≠ c → ¬(σ.calls c').Writes m := by
    rintro pc m ⟨rfl, _⟩ c' hc'
    exact (hc c' hc').1
  cases hf : σ.db.findKey n.bytes with
  | none =>
    exact h.stay (by rw [hk]; rfl) (by rw [hk]; exact Call.not_wrote_findKey) (by rintro _ ⟨⟩)
      (hw _) (State.findKey_eq_none.1 hf)
  | some i =>
    have hi := State.of_findKey_eq_some hf
    refine h.stay (by rw [hk]; rfl) (by rw [hk]; exact Call.not_wrote_findKey)
      (fun j hj c' hc' hu => ?_) (hw _)
      ⟨.inl hi, fun j hj => h.oneRecord j i hj.status hi.status (hj.name.trans hi.name.symm)⟩
    obtain rfl := Option.some.inj hj
    -- Another call that uses the slot knows that it is BUSY, or is to write or remove this name.
    rcases (h.fits c').of_uses hu with hb | ⟨m, d, hm, hm' | hm'⟩ | ⟨m, hm, hm', _⟩
    · rw [hi.status] at hb
      cases hb
    · obtain rfl := hi.key_unique hm'
      exact (hc c' hc').1 (by rw [hm]; exact Call.writes_of_chosen rfl)
    · rw [hi.status] at hm'
      cases hm'
    · obtain rfl := hi.key_unique hm'
      exact (hc c' hc').2 hm

theorem Inv.write_freeIndex (h : Inv σ) {n : Key} {data : Data}
    (hk : σ.calls c = .write n data .freeIndex) (hc : σ.Careful c) (io : Io) :
    Inv (σ.step c io) := by
  have hno : ∀ j, ¬σ.db.Holds j n := by
    have hf := h.fits c
    rwa [hk] at hf
  rw [Config.Careful, hk] at hc
  rw [Config.step, hk, Call.step, writeStep]
  have hw : ∀ pc m, (Call.write n data pc).Writes m → ∀ c', c' ≠ c → ¬(σ.calls c').Writes m := by
    rintro pc m ⟨rfl, _⟩ c' hc'
    exact h.differ c c' (Ne.symm hc') n (by rw [hk]; exact Call.writes_freeIndex)
  cases hf : σ.db.freeIndex with
  | none =>
    exact h.stay (by rw [hk]; rfl) (by rw [hk]; exact Call.not_wrote_freeIndex) (by rintro _ ⟨⟩)
      (hw _) trivial
  | some i =>
    have hi := State.of_freeIndex_eq_some hf
    refine h.stay (by rw [hk]; rfl) (by rw [hk]; exact Call.not_wrote_freeIndex)
      (fun j hj c' hc' hu => ?_) (hw _) ⟨.inr hi, fun j hj => absurd hj (hno j)⟩
    obtain rfl := Option.some.inj hj
    -- The slot is INVALID, so that no call uses it but one that has yet to mark it BUSY.
    rcases (h.fits c').of_uses hu with hb | ⟨m, d, hm, _⟩ | ⟨m, _, hm', _⟩
    · rw [hi] at hb
      cases hb
    · exact hc c' m d i hm hf
    · have hv := hm'.status
      rw [hi] at hv
      cases hv

/-- Steps of a `db_write` that has chosen a slot, up to its last assignment. -/
theorem Inv.write_move (h : Inv σ) {n : Key} {data : Data} {pc pc' : WritePc} {i : Fin 200}
    (hk : σ.calls c = .write n data pc) (hpc : pc.chosen = some i) (hpc' : pc'.chosen = some i)
    {s' : State} (hm : σ.db.Moves s' i) (hst : (s'.table i).status ≠ .valid)
    (hfits : (Call.write n data pc').Fits s') :
    Inv ⟨Function.update σ.calls c (.write n data pc'), s'⟩ := by
  have hu : (σ.calls c).uses = some i := by rw [hk, Call.uses, hpc]
  refine h.move hm (fun j hj => (Option.some.inj (hu.symm.trans hj)).symm)
    (by rw [hk]; exact Call.not_wrote_of_chosen hpc)
    (fun c' hc' => h.apart c c' (Ne.symm hc') i hu)
    (fun j hj => (Option.some.inj (hpc'.symm.trans hj)).symm) (fun m hm' => ?_) hfits
    (fun hv => absurd hv hst) fun hv => absurd hv hst
  obtain rfl := hm'.1
  rw [hk]
  exact Call.writes_of_chosen hpc

/-- The last steps of a `db_write`, after which its slot is no longer BUSY. -/
theorem Inv.write_done (h : Inv σ) {n : Key} {data : Data} {pc : WritePc} {i : Fin 200}
    (hk : σ.calls c = .write n data pc) (hpc : pc.chosen = some i) {r : ℤ} {s' : State}
    (hm : σ.db.Moves s' i) (hrecord : (s'.table i).status = .valid →
      r = 0 ∧ s'.Holds i n ∧ (∀ j, ¬σ.db.Holds j n) ∧
        ∃ fd, s'.file i = some fd ∧ s'.content fd = data.bytes) :
    Inv ⟨Function.update σ.calls c (.write n data (.done r)), s'⟩ := by
  have hu : (σ.calls c).uses = some i := by rw [hk, Call.uses, hpc]
  have hwrites : (σ.calls c).Writes n := by
    rw [hk]
    exact Call.writes_of_chosen hpc
  refine h.move hm (fun j hj => (Option.some.inj (hu.symm.trans hj)).symm)
    (by rw [hk]; exact Call.not_wrote_of_chosen hpc)
    (fun c' hc' => h.apart c c' (Ne.symm hc') i hu) (by rintro _ ⟨⟩)
    (fun m hm' => absurd rfl (hm'.2.2 r)) trivial (fun hv => ?_) fun hv => ?_
  · obtain ⟨_, hi, hno, _⟩ := hrecord hv
    exact .inr ⟨n, hwrites, hi, hno⟩
  · obtain ⟨rfl, hi, _, fd, hfd, hdata⟩ := hrecord hv
    refine .inr ⟨fd, hfd, c, n, ?_, hi⟩
    rw [Function.update_self]
    exact ⟨rfl, hdata.symm, rfl⟩

theorem Inv.write_step (h : Inv σ) {n : Key} {data : Data} {pc : WritePc}
    (hk : σ.calls c = .write n data pc) (hc : σ.Careful c) (io : Io) : Inv (σ.step c io) := by
  have hf := h.fits c
  rw [hk] at hf
  cases pc with
  | findKey => exact h.write_findKey hk hc io
  | freeIndex => exact h.write_freeIndex hk hc io
  | setBusy i =>
    rw [Config.step, hk]
    change Inv ⟨_, σ.db.setStatus i .busy⟩
    refine h.write_move hk rfl rfl (moves_setStatus _ i .busy) ?_ ⟨?_, ?_⟩
    · rw [State.setStatus_self]
      exact (by decide : Status.busy ≠ .valid)
    · rw [State.setStatus_self]
    · exact State.not_holds_setStatus (by decide) hf.2
  | create i =>
    obtain ⟨hbusy, hno⟩ := hf
    rw [Config.step, hk, Call.step, writeStep]
    split_ifs with hio
    · refine h.write_move hk rfl rfl (moves_create _ i) ?_
        ⟨?_, fun j hj => hno j ⟨?_, ?_⟩, State.create_file_self, State.create_content_self⟩
      · rw [State.create_table, hbusy]
        decide
      · rw [State.create_table, hbusy]
      · rw [← hj.status, State.create_table]
      · rw [← hj.name, State.create_table]
    · exact h.write_move hk rfl rfl (moves_refl _ i) (by rw [hbusy]; decide) ⟨hbusy, hno⟩
  | write i fd =>
    obtain ⟨hbusy, hno, hfd, hnil⟩ := hf
    -- The call goes on to the name only if `write` has returned the length of the data.
    have hm := moves_write hfd (data.bytes.take (io.written data.bytes.length).toNat)
    rw [Config.step, hk, Call.step, writeStep]
    simp only []
    split_ifs with hlen
    · exact h.write_move hk rfl rfl hm (by rw [State.write, hbusy]; decide)
        ⟨hbusy, fun j hj => hno j ⟨hj.status, hj.name⟩⟩
    · refine h.write_move hk rfl rfl hm (by rw [State.write, hbusy]; decide)
        ⟨hbusy, fun j hj => hno j ⟨hj.status, hj.name⟩, fd, hfd, ?_⟩
      change (σ.db.write fd _).content fd = _
      rw [State.write_content_self, not_not.1 hlen, Int.toNat_natCast, List.take_length, hnil,
        List.drop_nil, List.append_nil]
  | setName i =>
    obtain ⟨hbusy, hno, hfile⟩ := hf
    have hbusy' : ((σ.db.setName i n.bytes).table i).status = .busy := by
      rw [State.setName_self, hbusy]
    rw [Config.step, hk]
    change Inv ⟨_, σ.db.setName i n.bytes⟩
    refine h.write_move hk rfl rfl (moves_setName _ i n.bytes) (by rw [hbusy']; decide)
      ⟨hbusy', fun j hj => ?_, hfile, ?_⟩
    · by_cases hji : j = i
      · subst hji
        have hv := hj.status
        rw [hbusy'] at hv
        cases hv
      · refine hno j ⟨?_, ?_⟩
        · rw [← State.setName_of_ne n.bytes hji, hj.status]
        · rw [← State.setName_of_ne n.bytes hji, hj.name]
    · rw [State.setName_self]
      exact n.cString_strncpy
  | setValid i =>
    obtain ⟨hbusy, hno, ⟨fd, hfd, hdata⟩, hname⟩ := hf
    rw [Config.step, hk]
    change Inv ⟨_, σ.db.setStatus i .valid⟩
    refine h.write_done hk rfl (moves_setStatus _ i .valid) fun _ =>
      ⟨rfl, ⟨?_, ?_⟩, hno, fd, hfd, hdata⟩
    · rw [State.setStatus_self]
    · rw [State.setStatus_self]
      exact hname
  | setInvalid i =>
    rw [Config.step, hk]
    change Inv ⟨_, σ.db.setStatus i .invalid⟩
    refine h.write_done hk rfl (moves_setStatus _ i .invalid) fun hv => ?_
    rw [State.setStatus_self] at hv
    cases hv
  | done r =>
    have hsame : σ.step c io = σ := by
      rw [Config.step, hk, Call.step, writeStep, ← hk, Function.update_eq_self]
    rwa [hsame]

theorem Inv.read_step (h : Inv σ) {n : Key} {pc : ReadPc} (hk : σ.calls c = .read n pc) (io : Io) :
    Inv (σ.step c io) := by
  rw [Config.step, hk]
  exact h.stay (by rw [hk]; rfl) (by rw [hk]; exact Call.not_wrote_read) (by rintro _ ⟨⟩)
    (fun _ hw => hw.elim) trivial

/-- Steps of a `db_delete` that do not change the database. -/
theorem Inv.delete_stay (h : Inv σ) {n : Key} {pc pc' : DeletePc} (hk : σ.calls c = .delete n pc)
    (hpc : pc.removing = none) (hpc' : pc'.removing = none) :
    Inv ⟨Function.update σ.calls c (.delete n pc'), σ.db⟩ := by
  refine h.stay (by rw [hk]; exact hpc) (by rw [hk]; exact Call.not_wrote_delete)
    (fun i hi => ?_) (fun _ hw => hw.elim) ?_
  · cases hpc'.symm.trans hi
  · cases pc' with
    | setInvalid => cases hpc'
    | _ => trivial

theorem Inv.delete_unlink (h : Inv σ) {n : Key} {i : Fin 200}
    (hk : σ.calls c = .delete n (.unlink i)) (hfile : (σ.db.file i).isSome)
    (hfind : σ.db.findKey n.bytes = some i) (hw : ∀ c', ¬(σ.calls c').Writes n) :
    Inv ⟨Function.update σ.calls c (.delete n (.setInvalid i)), σ.db.unlink i⟩ := by
  have hi := State.of_findKey_eq_some hfind
  refine h.move (moves_unlink _ i) (by rw [hk]; rintro _ ⟨⟩) (by rw [hk]; exact Call.not_wrote_delete)
    (fun c' _ hu => ?_) (fun j hj => (Option.some.inj hj).symm) (fun _ hw => hw.elim)
    ⟨⟨hi.status, hi.name⟩, Function.update_self ..⟩ (fun _ => .inl rfl) fun _ => ?_
  · rcases (h.fits c').of_uses hu with hb | ⟨m, d, hm, hm' | hm'⟩ | ⟨m, _, _, hnone⟩
    · rw [hi.status] at hb
      cases hb
    · obtain rfl := hi.key_unique hm'
      exact hw c' (by rw [hm]; exact Call.writes_of_chosen rfl)
    · rw [hi.status] at hm'
      cases hm'
    · rw [hnone] at hfile
      cases hfile
  · exact .inl ⟨c, n, Function.update_self ..⟩

theorem Inv.delete_step (h : Inv σ) {n : Key} {pc : DeletePc} (hk : σ.calls c = .delete n pc)
    (hc : σ.Careful c) (io : Io) : Inv (σ.step c io) := by
  cases pc with
  | findKey =>
    rw [Config.step, hk, Call.step, deleteStep]
    cases hf : σ.db.findKey n.bytes with
    | none => exact h.delete_stay hk rfl rfl
    | some i => exact h.delete_stay hk rfl rfl
  | checkBusy i =>
    rw [Config.step, hk, Call.step, deleteStep]
    split_ifs
    · exact h.delete_stay hk rfl rfl
    · exact h.delete_stay hk rfl rfl
  | unlink i =>
    rw [Config.Careful, hk] at hc
    rw [Config.step, hk, Call.step, deleteStep]
    split_ifs with hfile
    · -- The file is removed: the record is still that of the name, and nobody writes it.
      obtain ⟨hfind, hw⟩ := hc hfile
      exact h.delete_unlink hk hfile hfind hw
    · exact h.delete_stay hk rfl rfl
  | setInvalid i =>
    -- The slot becomes INVALID, after its file.
    have hu : (σ.calls c).uses = some i := by
      rw [hk]
      rfl
    have hst : ((σ.db.setStatus i .invalid).table i).status ≠ .valid := by
      rw [State.setStatus_self]
      exact (by decide : Status.invalid ≠ .valid)
    rw [Config.step, hk]
    change Inv ⟨_, σ.db.setStatus i .invalid⟩
    exact h.move (moves_setStatus _ i .invalid)
      (fun j hj => (Option.some.inj (hu.symm.trans hj)).symm)
      (by rw [hk]; exact Call.not_wrote_delete)
      (fun c' hc' => h.apart c c' (Ne.symm hc') i hu) (by rintro _ ⟨⟩) (fun _ hw => hw.elim) trivial
      (fun hv => absurd hv hst) fun hv => absurd hv hst
  | done r =>
    have hsame : σ.step c io = σ := by
      rw [Config.step, hk, Call.step, deleteStep, ← hk, Function.update_eq_self]
    rwa [hsame]

/-- Careful steps keep the invariant. -/
theorem Inv.step (h : Inv σ) (hc : σ.Careful c) (io : Io) : Inv (σ.step c io) := by
  cases hk : σ.calls c with
  | write n data pc => exact h.write_step hk hc io
  | read n pc => exact h.read_step hk io
  | delete n pc => exact h.delete_step hk hc io

end Step

/-! ## Runs -/

section Runs

/-- A call that begins knows nothing yet. -/
theorem Call.New.fits {k : Call} (h : k.New) (s : State) : k.Fits s := by
  cases k with
  | write n data pc =>
    obtain rfl : pc = .findKey := h
    trivial
  | read => trivial
  | delete n pc =>
    obtain rfl : pc = .findKey := h
    trivial

/-- It has no slot. -/
theorem Call.New.uses_ne {k : Call} (h : k.New) (i : Fin 200) : k.uses ≠ some i := by
  intro hi
  cases k with
  | write n data pc =>
    obtain rfl : pc = .findKey := h
    cases hi
  | read => cases hi
  | delete n pc =>
    obtain rfl : pc = .findKey := h
    cases hi

/-- It has not found out yet that there is no record of a name. -/
theorem Call.New.not_writes {k : Call} (h : k.New) (n : Key) : ¬k.Writes n := by
  intro hn
  cases k with
  | write m data pc => exact hn.2.1 h
  | read => cases hn
  | delete => cases hn

variable {ι : Type*}

/-- The configuration when calls begin on an empty table. -/
def Config.init (calls : ι → Call) : Config ι := { calls, db := .init }

variable {calls : ι → Call}

theorem inv_init (hnew : ∀ c, (calls c).New) : Inv (Config.init calls) where
  fits c := (hnew c).fits _
  apart c _ _ i hi := absurd hi ((hnew c).uses_ne i)
  differ c _ _ n hn := absurd hn ((hnew c).not_writes n)
  oneRecord := nofun
  separate := ⟨nofun, nofun⟩
  backed := nofun

variable [DecidableEq ι] {σ : Config ι}

theorem inv_of_runs (hnew : ∀ c, (calls c).New)
    (h : Runs Config.step Config.Careful (Config.init calls) σ) : Inv σ :=
  h.invariant (inv_init hnew) fun _ _ io hσ hc => hσ.step hc io

namespace Config

/-- The table is in order: calls write slots of their own, no two VALID records have the same name,
    and their files exist. -/
def Consistent (σ : Config ι) : Prop := σ.OneWriter ∧ σ.OneRecord ∧ σ.FilesExist

/-- The next step of a call does not remove a file. -/
def KeepsFiles (σ : Config ι) (c : ι) : Prop :=
  ∀ n i, σ.calls c = .delete n (.unlink i) → σ.db.file i = none

end Config

omit [DecidableEq ι] in
theorem Inv.oneWriter (h : Inv σ) : σ.OneWriter := by
  have huses : ∀ c i, (σ.calls c).chosen = some i → (σ.calls c).uses = some i := by
    intro c i hi
    cases hk : σ.calls c with
    | write =>
      rw [hk] at hi
      exact hi
    | _ =>
      rw [hk] at hi
      cases hi
  intro c c' i hi hi'
  by_contra hne
  exact h.apart c c' hne i (huses c i hi) (huses c' i hi')

omit [DecidableEq ι] in
/-- The files that are missing are those of a `db_delete` under way. -/
theorem Inv.filesExist_iff (h : Inv σ) :
    σ.FilesExist ↔ ∀ c n i, σ.calls c ≠ .delete n (.setInvalid i) := by
  constructor
  · intro hfiles c n i hc
    have hf := h.fits c
    rw [hc] at hf
    have hfile := hfiles i hf.1.status
    rw [hf.2] at hfile
    cases hfile
  · intro hno i hi
    rcases h.backed i hi with ⟨c, n, hc⟩ | ⟨fd, hfd, _⟩
    · exact absurd hc (hno c n i)
    · rw [hfd]
      rfl

/-- If no file is removed, no `db_delete` gets past its `unlink`. -/
theorem not_removing_of_runs (hnew : ∀ c, (calls c).New)
    (h : Runs Config.step Config.KeepsFiles (Config.init calls) σ) (c : ι) (n : Key) (i : Fin 200) :
    σ.calls c ≠ .delete n (.setInvalid i) := by
  revert c n i
  refine h.invariant (I := fun σ => ∀ c n i, σ.calls c ≠ .delete n (.setInvalid i)) ?_ ?_
  · intro c n i hc
    have hn := hnew c
    rw [show calls c = _ from hc] at hn
    cases hn
  · intro σ c io ih hkeep
    refine (Function.forall_update_iff _ fun _ (k : Call) => ∀ n i, k ≠ .delete n (.setInvalid i)).2
      ⟨fun n i => ?_, fun c' _ => ih c'⟩
    cases hk : σ.calls c with
    | delete m pc =>
      intro he
      obtain ⟨rfl, hfile⟩ := of_deleteStep_eq_setInvalid (Call.delete.inj he).2
      rw [hkeep m i hk] at hfile
      cases hfile
    | _ => exact nofun

/-- In careful runs, the table is consistent but for a file that a `db_delete` has removed, but
    whose record it has yet to mark INVALID; if no file is removed, the table is consistent. -/
theorem table_consistent (hnew : ∀ c, (calls c).New) :
    (Runs Config.step Config.Careful (Config.init calls) σ → σ.OneWriter ∧ σ.OneRecord ∧
      (σ.FilesExist ↔ ∀ c n i, σ.calls c ≠ .delete n (.setInvalid i))) ∧
    (Runs Config.step (fun σ c => σ.Careful c ∧ σ.KeepsFiles c) (Config.init calls) σ →
      σ.Consistent) := by
  have hcareful : Runs Config.step Config.Careful (Config.init calls) σ →
      σ.OneWriter ∧ σ.OneRecord ∧
        (σ.FilesExist ↔ ∀ c n i, σ.calls c ≠ .delete n (.setInvalid i)) := fun h =>
    have hinv := inv_of_runs hnew h
    ⟨hinv.oneWriter, hinv.oneRecord, hinv.filesExist_iff⟩
  refine ⟨hcareful, fun h => ?_⟩
  obtain ⟨hwriter, hrecord, hfiles⟩ := hcareful (h.mono fun _ _ hP => hP.1)
  exact ⟨hwriter, hrecord, hfiles.2 (not_removing_of_runs hnew (h.mono fun _ _ hP => hP.2))⟩

end Runs

section Schedules

/-- The first key of `dbtest.c`. -/
def key0 : Key := ⟨[107, 101, 121, 48], by decide, by decide⟩

/-- A `db_write` that is about to begin. -/
def newWrite (k : Key) (b : UInt8) : Call :=
  .write k ⟨[b], by rw [List.length_singleton]; decide⟩ .findKey

/-- Two workers that write the same key. -/
def twoWrites : Bool → Call := fun c => newWrite key0 (bif c then 1 else 0)

/-- One worker writes a key that the other one deletes. -/
def writeDelete : Bool → Call := fun c => bif c then .delete key0 .findKey else newWrite key0 0

/-- Steps of one worker. -/
def turns {ι : Type*} (c : ι) (n : ℕ) : List (ι × Io) := List.replicate n (c, Io.all)

set_option maxRecDepth 10000 in
/-- One of the writers runs alone until its record is VALID. -/
theorem table_consistent_twoWrites :
    (exec Config.step (Config.init twoWrites) (turns false 7)).Consistent := by
  have hnew : ∀ c, (twoWrites c).New := fun _ => rfl
  refine (table_consistent hnew).2 ?_
  refine runs_exec _ _ fun k hk => ?_
  obtain rfl | hk0 := Nat.eq_zero_or_pos k
  · refine ⟨fun c' hc' => ?_, nofun⟩
    obtain rfl : c' = true := by simpa [turns] using hc'
    exact ⟨fun h => h.2.1 rfl, id⟩
  · change k < 7 at hk
    interval_cases k
    · refine ⟨fun c' _ _ i hc' => ?_, nofun⟩
      cases c' <;> cases hc'
    all_goals exact ⟨trivial, nofun⟩

set_option maxRecDepth 10000 in
/-- Both writers may find the key absent and get the same slot; a second record of the key becomes
    VALID if one of them looks it up while the other one's record is BUSY; and a `db_delete` leaves
    a VALID record without a file behind for a while. -/
theorem exists_inconsistent :
    (∃ σ, Runs Config.step (fun _ _ => True) (Config.init twoWrites) σ ∧ ¬σ.OneWriter) ∧
    (∃ σ, Runs Config.step (fun _ _ => True) (Config.init twoWrites) σ ∧ ¬σ.OneRecord) ∧
    ∃ σ, Runs Config.step (fun _ _ => True) (Config.init writeDelete) σ ∧ ¬σ.FilesExist := by
  refine ⟨⟨_, runs_exec _ (turns false 1 ++ turns true 2 ++ turns false 1) fun _ _ => trivial,
      fun h => ?_⟩,
    ⟨_, runs_exec _ (turns false 3 ++ turns true 7 ++ turns false 4) fun _ _ => trivial, fun h => ?_⟩,
    ⟨_, runs_exec _ (turns false 7 ++ turns true 3) fun _ _ => trivial, fun h => ?_⟩⟩
  · exact absurd (h false true 0 rfl rfl) (by decide)
  · exact absurd (h 0 1 (by decide) (by decide) (by decide)) (by decide)
  · exact absurd (h 0 (by decide)) (by decide)

end Schedules

end Cs5600.Db
