import Mathlib.Data.Fin.VecNotation
import Cs5600.Db.Safety

/-!
# What readers get

A `db_read` opens the file of a record some time after it has looked the record
up, and reads the file some time after that. In the meantime the record may be
deleted and its slot given to another name, or the file may be truncated by a
`db_write` of the name (`exists_misread`). A careful reader opens a file only if
its record is still the one it has looked up, and a careful writer truncates a
file only when nobody has opened it to read. What a `db_read` returns is then the
data of a `db_write` of its name that has returned before (`reads_whole`).
-/

namespace Cs5600.Db

open Interleave

variable {ι : Type*} {σ : Config ι} {c : ι}

namespace Config

/-- A condition under which the next step of a call does not mislead a reader. -/
def ReadsCareful (σ : Config ι) (c : ι) : Prop :=
  match σ.calls c with
  | .read name (.openFile i) => (σ.db.file i).isSome → σ.db.findKey name.bytes = some i
  | .write _ _ (.create i) => ∀ c' name fd, σ.calls c' = .read name (.read fd) → σ.db.file i ≠ some fd
  | _ => True

/-- The value of a call is one that a `db_write` has written, for the same name. -/
def Sound (σ : Config ι) : Call → Prop
  | .read n (.read fd) => fd < σ.db.fresh ∧ ∃ c, (σ.calls c).Wrote n (σ.db.content fd)
  | .read n (.done (some bytes)) => ∃ c, (σ.calls c).Wrote n bytes
  | _ => True

/-- No `db_write` is about to write a file that a `db_read` has opened. -/
def Unshared (σ : Config ι) : Prop :=
  ∀ c c' n n' data i fd, σ.calls c = .read n (.read fd) → σ.calls c' ≠ .write n' data (.write i fd)

end Config

/-- What holds in all states of runs in which readers are careful, too. -/
structure ReadsInv (σ : Config ι) : Prop where
  inv : Inv σ
  sound : ∀ c, σ.Sound (σ.calls c)
  unshared : σ.Unshared

/-! ## What a step leaves as it is -/

section Kept

variable [DecidableEq ι]

/-- A `db_write` that has returned stays so. -/
theorem Call.Wrote.step {n : Key} {bytes : List UInt8} {c' : ι} (h : (σ.calls c').Wrote n bytes)
    (io : Io) : ((σ.step c io).calls c').Wrote n bytes := by
  by_cases hc : c' = c
  · subst hc
    rw [Config.step_calls_self]
    cases hk : σ.calls c' with
    | write m data pc =>
      rw [hk] at h
      obtain ⟨rfl, rfl, rfl⟩ := h
      exact ⟨rfl, rfl, rfl⟩
    | _ =>
      rw [hk] at h
      cases h
  · rwa [Config.step_calls_of_ne _ _ hc]

theorem Call.Wrote.length_le {k : Call} {n : Key} {bytes : List UInt8} (h : k.Wrote n bytes) :
    bytes.length ≤ 4096 := by
  cases k with
  | write m data pc =>
    obtain ⟨_, rfl, _⟩ := h
    exact data.length_le
  | _ => cases h

theorem fresh_le_create (s : State) (i : Fin 200) : s.fresh ≤ (s.create i).1.fresh := by
  rw [State.create]
  split
  · exact le_rfl
  · exact Nat.le_succ _

/-- A file that is not the one created keeps its bytes. -/
theorem create_content_of_ne {s : State} {i : Fin 200} {f : ℕ} (hf : f < s.fresh)
    (hi : s.file i ≠ some f) : (s.create i).1.content f = s.content f := by
  rw [State.create]
  split
  next g hg => exact Function.update_of_ne (fun he : f = g => hi (he ▸ hg)) ..
  next => exact Function.update_of_ne hf.ne ..

theorem create_fd_ne {s : State} {i : Fin 200} {f : ℕ} (hf : f < s.fresh)
    (hi : s.file i ≠ some f) : (s.create i).2 ≠ f := by
  rw [State.create]
  split
  next g hg => exact fun he => hi (he ▸ hg)
  next => exact hf.ne'

end Kept

/-! ## The invariant -/

section Step

variable [DecidableEq ι]

theorem Config.fresh_le_step (σ : Config ι) (c : ι) (io : Io) :
    σ.db.fresh ≤ (σ.step c io).db.fresh := by
  change σ.db.fresh ≤ ((σ.calls c).step io σ.db).2.fresh
  rcases Call.step_files io σ.db (σ.calls c) with ⟨_, hfresh, _⟩ | ⟨n, data, i, _, hs⟩ |
    ⟨n, data, i, fd, bytes, _, hs, _⟩
  · exact hfresh.ge
  · rw [hs]
    exact fresh_le_create σ.db i
  · rw [hs]
    exact le_rfl

/-- Nobody changes a file that a `db_read` has opened. -/
theorem ReadsInv.content_step (h : ReadsInv σ) (hc : σ.ReadsCareful c) (io : Io) {c' : ι} {n : Key}
    {fd : ℕ} (hk : σ.calls c' = .read n (.read fd)) :
    (σ.step c io).db.content fd = σ.db.content fd := by
  have hfd := h.sound c'
  rw [hk] at hfd
  change ((σ.calls c).step io σ.db).2.content fd = _
  rcases Call.step_files io σ.db (σ.calls c) with ⟨hsame, _⟩ | ⟨m, data, i, hm, hs⟩ |
    ⟨m, data, i, fd', bytes, hm, hs, _⟩
  · rw [hsame]
  · rw [Config.ReadsCareful, hm] at hc
    rw [hs]
    exact create_content_of_ne hfd.1 (hc c' n fd hk)
  · have hne : fd ≠ fd' := by
      rintro rfl
      exact h.unshared c' c n m data i fd hk hm
    rw [hs]
    exact Function.update_of_ne hne ..

omit [DecidableEq ι] in
/-- A file that a careful reader opens has the data of a `db_write`, and nobody writes it. -/
theorem ReadsInv.opened (h : ReadsInv σ) {n : Key} {i : Fin 200} {fd : ℕ}
    (hfind : σ.db.findKey n.bytes = some i) (hfile : σ.db.file i = some fd) :
    (∃ c, (σ.calls c).Wrote n (σ.db.content fd)) ∧
      ∀ c m data j, σ.calls c ≠ .write m data (.write j fd) := by
  have hi := State.of_findKey_eq_some hfind
  constructor
  · rcases h.inv.backed i hi.status with ⟨c, m, hm⟩ | ⟨fd', hfd', c, m, hwr, hm⟩
    · have hf := h.inv.fits c
      rw [hm] at hf
      rw [hf.2] at hfile
      cases hfile
    · obtain rfl := hi.key_unique hm
      obtain rfl := Option.some.inj (hfd'.symm.trans hfile)
      exact ⟨c, hwr⟩
  · intro c m data j hk
    have hf := h.inv.fits c
    rw [hk] at hf
    obtain rfl := h.inv.separate.inj i j fd hfile hf.2.2.1
    have hbusy := hf.1
    rw [hi.status] at hbusy
    cases hbusy

theorem ReadsInv.sound_step (h : ReadsInv σ) (hc : σ.ReadsCareful c) (io : Io) (c' : ι) :
    (σ.step c io).Sound ((σ.step c io).calls c') := by
  by_cases hcc : c' = c
  · subst hcc
    rw [Config.step_calls_self]
    cases hk : σ.calls c' with
    | write => trivial
    | delete => trivial
    | read n pc =>
      have hdb : (σ.step c' io).db = σ.db := by rw [Config.step, hk, Call.step]
      rw [Call.step]
      cases hpc : readStep io n σ.db pc with
      | read fd =>
        obtain ⟨i, rfl, hfile⟩ := of_readStep_eq_read hpc
        rw [Config.ReadsCareful, hk] at hc
        -- What has been opened is the file of a VALID record, which some call has written.
        obtain ⟨⟨w, hw⟩, _⟩ := h.opened (hc (by rw [hfile]; rfl)) hfile
        refine ⟨?_, w, ?_⟩
        · rw [hdb]
          exact h.inv.separate.lt_fresh i fd hfile
        · rw [hdb]
          exact hw.step io
      | done r =>
        cases r with
        | none => trivial
        | some bytes =>
          have hs := h.sound c'
          rw [hk] at hs
          rcases of_readStep_eq_done hpc with rfl | ⟨fd, rfl, rfl⟩
          · obtain ⟨w, hw⟩ := hs
            exact ⟨w, hw.step io⟩
          · obtain ⟨_, w, hw⟩ := hs
            refine ⟨w, ?_⟩
            rw [List.take_of_length_le hw.length_le]
            exact hw.step io
      | _ => trivial
  · rw [Config.step_calls_of_ne _ _ hcc]
    have hs := h.sound c'
    cases hk : σ.calls c' with
    | read n pc =>
      rw [hk] at hs
      cases pc with
      | read fd =>
        obtain ⟨hfd, w, hw⟩ := hs
        refine ⟨lt_of_lt_of_le hfd (σ.fresh_le_step c io), w, ?_⟩
        -- The bytes of an open file do not change.
        rw [h.content_step hc io hk]
        exact hw.step io
      | done r =>
        cases r with
        | none => trivial
        | some bytes =>
          obtain ⟨w, hw⟩ := hs
          exact ⟨w, hw.step io⟩
      | _ => trivial
    | _ => trivial

theorem ReadsInv.unshared_step (h : ReadsInv σ) (hc : σ.ReadsCareful c) (io : Io) :
    (σ.step c io).Unshared := by
  intro a b n m data i fd ha hb
  by_cases hac : a = c
  · subst hac
    rw [Config.step_calls_self] at ha
    have hba : b ≠ a := by
      rintro rfl
      rw [Config.step_calls_self,
        ha] at hb
      cases hb
    rw [Config.step_calls_of_ne _ _ hba] at hb
    cases hk : σ.calls a with
    | write =>
      rw [hk] at ha
      cases ha
    | delete =>
      rw [hk] at ha
      cases ha
    | read n' pc =>
      rw [hk] at ha
      obtain ⟨rfl, hpc⟩ := Call.read.inj ha
      obtain ⟨j, rfl, hfile⟩ := of_readStep_eq_read hpc
      rw [Config.ReadsCareful, hk] at hc
      exact (h.opened (hc (by rw [hfile]; rfl)) hfile).2 b m data i hb
  · rw [Config.step_calls_of_ne _ _ hac] at ha
    by_cases hbc : b = c
    · subst hbc
      rw [Config.step_calls_self] at hb
      rcases Call.step_files io σ.db (σ.calls b) with ⟨_, _, hno⟩ | ⟨m', data', j, hm, hs⟩ |
        ⟨m', data', j, fd', bytes, _, _, hno⟩
      · exact hno m data i fd hb
      · rw [hs] at hb
        obtain ⟨_, _, hpc⟩ := Call.write.inj hb
        have hfd := h.sound a
        rw [ha] at hfd
        rw [Config.ReadsCareful, hm] at hc
        -- A file that is created now is none that has been opened before.
        exact create_fd_ne hfd.1 (hc a n fd ha) (WritePc.write.inj hpc).2
      · exact hno m data i fd hb
    · rw [Config.step_calls_of_ne _ _ hbc] at hb
      exact h.unshared a b n m data i fd ha hb

theorem ReadsInv.step (h : ReadsInv σ) (hc : σ.Careful c) (hr : σ.ReadsCareful c) (io : Io) :
    ReadsInv (σ.step c io) where
  inv := h.inv.step hc io
  sound := h.sound_step hr io
  unshared := h.unshared_step hr io

end Step

/-! ## Runs -/

section Runs

variable [DecidableEq ι] {calls : ι → Call}

omit [DecidableEq ι] in
theorem readsInv_init (hnew : ∀ c, (calls c).New) : ReadsInv (Config.init calls) := by
  have hread : ∀ c n pc, calls c = .read n pc → pc = .findKey := by
    intro c n pc hk
    have hc := hnew c
    rwa [hk] at hc
  refine ⟨inv_init hnew, fun c => ?_, fun c c' n m data i fd hk => ?_⟩
  · change (Config.init calls).Sound (calls c)
    cases hk : calls c with
    | read n pc =>
      obtain rfl := hread c n pc hk
      trivial
    | _ => trivial
  · cases hread c n _ hk

/-- In careful runs, what a `db_read` returns is all the data of a `db_write` of the same name that
    has returned 0. -/
theorem reads_whole (hnew : ∀ c, (calls c).New)
    (h : Runs Config.step (fun σ c => σ.Careful c ∧ σ.ReadsCareful c) (Config.init calls) σ)
    {c : ι} {n : Key} {bytes : List UInt8} (hc : σ.calls c = .read n (.done (some bytes))) :
    ∃ c', (σ.calls c').Wrote n bytes := by
  have hinv : ReadsInv σ := h.invariant (readsInv_init hnew) fun _ _ io hσ hP => hσ.step hP.1 hP.2 io
  have hs := hinv.sound c
  rwa [hc] at hs

end Runs

section Schedules

/-- The second key of `dbtest.c`. -/
def key1 : Key := ⟨[107, 101, 121, 49], by decide, by decide⟩

/-- Two workers, of which one writes a key and one reads it. -/
def writeRead : Bool → Call := fun c => bif c then .read key0 .findKey else newWrite key0 1

set_option maxRecDepth 10000 in
theorem reads_whole_writeRead : ∃ c',
    ((exec Config.step (Config.init writeRead) (turns false 7 ++ turns true 3)).calls c').Wrote
      key0 [1] := by
  have hnew : ∀ c, (writeRead c).New := by
    intro c
    cases c <;> rfl
  refine reads_whole hnew (c := true) (runs_exec _ _ fun k hk => ?_) (by rfl)
  change k < 10 at hk
  interval_cases k
  · refine ⟨fun c' hc' => ?_, trivial⟩
    obtain rfl : c' = true := by simpa [turns] using hc'
    exact ⟨id, id⟩
  · refine ⟨fun c' _ _ i hc' => ?_, trivial⟩
    cases c' <;> cases hc'
  · exact ⟨trivial, trivial⟩
  · refine ⟨trivial, fun c' _ _ hc' => ?_⟩
    cases c' <;> cases hc'
  all_goals first | exact ⟨trivial, trivial⟩ | exact ⟨trivial, fun _ => rfl⟩

/-- A worker writes a key, which another one reads while a third deletes it, and a fourth writes
    another key. -/
def reuse : Fin 4 → Call :=
  ![newWrite key0 0, .read key0 .findKey, .delete key0 .findKey, newWrite key1 1]

/-- Two workers write a key that a third one reads. -/
def rewrite : Fin 3 → Call := ![newWrite key0 0, .read key0 .findKey, newWrite key0 1]

set_option maxRecDepth 10000 in
/-- A reader may get the data of another name, as the slot of its record has been reused, or
    nothing at all from a file that has just been truncated. -/
theorem exists_misread :
    (∃ σ, Runs Config.step (fun _ _ => True) (Config.init reuse) σ ∧
      σ.calls 1 = .read key0 (.done (some [1])) ∧
        ∀ c data pc, reuse c = .write key0 data pc → data.bytes ≠ [1]) ∧
    ∃ σ, Runs Config.step (fun _ _ => True) (Config.init rewrite) σ ∧
      σ.calls 1 = .read key0 (.done (some [])) ∧
        ∀ c data pc, rewrite c = .write key0 data pc → data.bytes ≠ [] := by
  refine ⟨⟨_, runs_exec _ (turns 0 7 ++ turns 1 1 ++ turns 2 4 ++ turns 3 7 ++ turns 1 2)
      fun _ _ => trivial, by rfl, fun c data pc hk => ?_⟩,
    ⟨_, runs_exec _ (turns 0 7 ++ turns 1 1 ++ turns 2 3 ++ turns 1 2) fun _ _ => trivial, by rfl,
      fun c data pc hk => ?_⟩⟩
  · match c, hk with
    | 0, hk =>
      obtain ⟨_, rfl, _⟩ := Call.write.inj hk
      decide
    | 3, hk => exact absurd (Call.write.inj hk).1 (by decide)
  · match c, hk with
    | 0, hk =>
      obtain ⟨_, rfl, _⟩ := Call.write.inj hk
      decide
    | 2, hk =>
      obtain ⟨_, rfl, _⟩ := Call.write.inj hk
      decide

end Schedules

end Cs5600.Db
