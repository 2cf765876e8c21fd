import Cs5600.Twins

/-!
# Deleted data does not leak

Calls that only read give the same results in states whose images are twins
(`exec_alike`): they look at visible bytes only. This holds for `fs_read` with
any offset and length. Where its arithmetic wraps, it either reads bytes below
the size of the file anyway, or runs into a fault, because it leaves the array
of pointers before it is done.

Since the calls that write keep twins, runs of the same calls from such states
have the same results (`results_twins`), whatever was left in free blocks and
past the ends of files.
-/

namespace Cs5600

open LabelledGraph Table FsM

/-! ## Computations that do not tell states apart -/

/-- The computation has the same result in both states, and does not change them. -/
def FsM.Alike {α : Type} (s s' : FsState) (x : FsM α) : Prop :=
  ∃ r, x.run s = (r, s) ∧ x.run s' = (r, s')

section Alike

variable {α β : Type} {s s' : FsState} {x : FsM α}

theorem alike_pure (a : α) : (pure a : FsM α).Alike s s' := ⟨_, rfl, rfl⟩

theorem alike_err (e : Errno) : (err e : FsM α).Alike s s' := ⟨_, rfl, rfl⟩

theorem alike_fault (t : Fault) : (fault t : FsM α).Alike s s' := ⟨_, rfl, rfl⟩

theorem FsM.Alike.bind {f : α → FsM β} (hx : x.Alike s s')
    (hf : ∀ a, x.run s = (.ok a, s) → (f a).Alike s s') : (x >>= f).Alike s s' := by
  obtain ⟨r, hs, hs'⟩ := hx
  cases r with
  | ok a =>
    obtain ⟨r, hr, hr'⟩ := hf a hs
    exact ⟨r, (bind_ok hs).trans hr, (bind_ok hs').trans hr'⟩
  | err e => exact ⟨_, bind_err hs, bind_err hs'⟩
  | fault t => exact ⟨_, bind_fault hs, bind_fault hs'⟩

theorem FsM.Alike.map (hx : x.Alike s s') (f : α → β) : (f <$> x).Alike s s' :=
  hx.bind fun _ _ => alike_pure _

theorem alike_failIf (c : Bool) (e : Errno) : (failIf c e).Alike s s' := by
  rw [failIf]
  split_ifs
  · exact alike_err e
  · exact alike_pure ()

theorem alike_inodeToStat (y : FsInode) : (inodeToStat y).Alike s s' := by
  refine FsM.Alike.bind ?_ fun _ _ => alike_pure _
  rw [nblocksOf]
  split_ifs
  · exact alike_fault _
  · exact alike_pure _

end Alike

/-! ## The loop of `fs_read` -/

/-- A pointer that is not negative as an `int` is read as it is. -/
theorem cint_toNat {v : UInt32} (h : 0 ≤ cint v) : (cint v).toNat = v.toNat := by
  by_cases hv : v.toNat < 2 ^ 31
  · rw [cint_of_lt hv, Int.toNat_natCast]
  · have hlt := v.toNat_lt
    have hint : cint v = (v.toNat : ℤ) - 2 ^ 32 := by
      rw [cint, Int32.toInt, UInt32.toBitVec_toInt32, BitVec.toInt_eq_toNat_cond]
      change (if 2 * v.toNat < 2 ^ 32 then _ else (v.toNat : ℤ) - _) = _
      rw [if_neg (by omega)]
      rfl
    omega

theorem bind_eq_ok {α β : Type} {x : FsM α} {f : α → FsM β} {s s'' : FsState} {b : β}
    (h : (x >>= f).run s = (.ok b, s'')) :
    ∃ a s', x.run s = (.ok a, s') ∧ (f a).run s' = (.ok b, s'') := by
  rw [bind_run] at h
  rcases hx : x.run s with ⟨a | e | t, s'⟩
  · rw [hx] at h
    exact ⟨a, s', rfl, h⟩
  · rw [hx] at h
    cases h
  · rw [hx] at h
    cases h

section ReadLoop

variable {s s' : FsState} {x : FsInode} {len : ℕ} {start : ℤ} {boff : Fin 4096}

/-- One turn of the loop. -/
theorem readLoop_eq (hlen : len ≠ 0) (hst : 0 ≤ start ∧ start.toNat < 1019) :
    readLoop x len start boff = (do
      let b ← blockRead (cint (x.ptrs ⟨start.toNat, hst.2⟩))
      let rest ← readLoop x (len - min (4096 - boff.1) len) (start + 1) 0
      pure (b.slice boff (min (4096 - boff.1) len) ++ rest)) := by
  rw [readLoop, dif_neg hlen, FsInode.ptr, dif_pos hst]
  rfl

theorem readLoop_fault (hlen : len ≠ 0) (hst : ¬(0 ≤ start ∧ start.toNat < 1019)) :
    readLoop x len start boff = fault (.ptrs start) := by
  rw [readLoop, dif_neg hlen, FsInode.ptr, dif_neg hst]
  rfl

/-- If the loop ends well, it has not left the array of pointers. -/
theorem le_of_readLoop {bs : List UInt8} (hrun : (readLoop x len start boff).run s = (.ok bs, s')) :
    len = 0 ∨ 0 ≤ start ∧ start * 4096 + boff.1 + len ≤ 1019 * 4096 := by
  induction len using Nat.strong_induction_on generalizing s start boff bs with
  | _ len ih =>
    by_cases hlen : len = 0
    · exact .inl hlen
    · by_cases hst : 0 ≤ start ∧ start.toNat < 1019
      · rw [readLoop_eq hlen hst] at hrun
        obtain ⟨b, s₁, _, hrun⟩ := bind_eq_ok hrun
        obtain ⟨rest, s₂, hrest, hpure⟩ := bind_eq_ok hrun
        obtain ⟨_, rfl⟩ := Prod.mk.inj hpure
        have hboff := boff.2
        have hle := ih _ (by omega) hrest
        change _ ∨ 0 ≤ start + 1 ∧ (start + 1) * 4096 + (0 : ℕ) + _ ≤ _ at hle
        omega
      · rw [readLoop_fault hlen hst] at hrun
        cases hrun

/-- Bytes of a file in one of its blocks. -/
theorem slice_alike {img img' : Image} {k off n : ℕ} (hk : k < 1019) (hend : off + n ≤ 4096)
    (hbyte : ∀ i < n, img'.fileByte x (k * 4096 + (off + i)) = img.fileByte x (k * 4096 + (off + i))) :
    (img'.block (x.ptrs ⟨k, hk⟩).toNat).slice off n = (img.block (x.ptrs ⟨k, hk⟩).toNat).slice off n := by
  refine List.map_congr_left fun i hi => ?_
  have hi := List.mem_range.1 hi
  have hptr : x.ptrAt ((k * 4096 + (off + i)) / 4096) = (x.ptrs ⟨k, hk⟩).toNat := by
    rw [show (k * 4096 + (off + i)) / 4096 = k by omega, FsInode.ptrAt]
    exact congrArg (fun l => (x.ptrs l).toNat) (Fin.ext (val_ofNat_1019 hk))
  have hi' := hbyte i hi
  rwa [Image.fileByte, Image.fileByte, hptr,
    show (k * 4096 + (off + i)) % 4096 = off + i by omega] at hi'

/-- The loop does not tell states apart in which the bytes it reads are the same. -/
theorem readLoop_alike (hn : s'.img.nblocks = s.img.nblocks)
    (hbyte : 0 ≤ start → start * 4096 + boff.1 + len ≤ 1019 * 4096 →
      ∀ q : ℕ, start * 4096 + boff.1 ≤ q → q < start * 4096 + boff.1 + len →
        s'.img.fileByte x q = s.img.fileByte x q) : (readLoop x len start boff).Alike s s' := by
  induction len using Nat.strong_induction_on generalizing start boff with
  | _ len ih =>
    by_cases hlen : len = 0
    · rw [readLoop, dif_pos hlen]
      exact alike_pure _
    · by_cases hst : 0 ≤ start ∧ start.toNat < 1019
      · have hboff := boff.2
        -- The rest is read from the beginning of the next block on.
        have hrest : (readLoop x (len - min (4096 - boff.1) len) (start + 1) 0).Alike s s' :=
          ih _ (by omega) fun _ hle q hq hq' => by
            change (start + 1) * 4096 + (0 : ℕ) + _ ≤ _ at hle
            change (start + 1) * 4096 + (0 : ℕ) ≤ _ at hq
            change _ < (start + 1) * 4096 + (0 : ℕ) + _ at hq'
            exact hbyte hst.1 (by omega) q (by omega) (by omega)
        obtain ⟨r, hr, hr'⟩ := hrest
        rw [readLoop_eq hlen hst]
        by_cases hov : cint (x.ptrs ⟨start.toNat, hst.2⟩) * 4096 < -2 ^ 31 ∨
            2 ^ 31 ≤ cint (x.ptrs ⟨start.toNat, hst.2⟩) * 4096
        · exact ⟨_, bind_fault (if_pos hov), bind_fault (if_pos hov)⟩
        · by_cases hblk : 0 ≤ cint (x.ptrs ⟨start.toNat, hst.2⟩) ∧
              cint (x.ptrs ⟨start.toNat, hst.2⟩) < s.img.nblocks
          · -- Both states have the block, or none has.
            have hread : ∀ {t : FsState}, t.img.nblocks = s.img.nblocks →
                (blockRead (cint (x.ptrs ⟨start.toNat, hst.2⟩))).run t =
                  (.ok (t.img.block (x.ptrs ⟨start.toNat, hst.2⟩).toNat), t) := by
              intro t ht
              rw [← cint_toNat hblk.1]
              exact (if_neg hov).trans (if_pos (ht.symm ▸ hblk))
            cases r with
            | ok rest =>
              have hslice : (s'.img.block (x.ptrs ⟨start.toNat, hst.2⟩).toNat).slice boff
                  (min (4096 - boff.1) len) = (s.img.block (x.ptrs ⟨start.toNat, hst.2⟩).toNat).slice
                    boff (min (4096 - boff.1) len) := slice_alike hst.2 (by omega) fun i hi => by
                have hle := le_of_readLoop hr
                change _ ∨ 0 ≤ start + 1 ∧ (start + 1) * 4096 + (0 : ℕ) + _ ≤ _ at hle
                exact hbyte hst.1 (by omega) (start.toNat * 4096 + (boff.1 + i)) (by omega) (by omega)
              refine ⟨_, (bind_ok (hread rfl)).trans (bind_ok hr),
                (bind_ok (hread hn)).trans ((bind_ok hr').trans ?_)⟩
              rw [hslice]
              rfl
            | err e => exact ⟨_, (bind_ok (hread rfl)).trans (bind_err hr),
                (bind_ok (hread hn)).trans (bind_err hr')⟩
            | fault t => exact ⟨_, (bind_ok (hread rfl)).trans (bind_fault hr),
                (bind_ok (hread hn)).trans (bind_fault hr')⟩
          · exact ⟨_, bind_err ((if_neg hov).trans (if_neg hblk)),
              bind_err ((if_neg hov).trans (if_neg (hn.symm ▸ hblk)))⟩
      · rw [readLoop_fault hlen hst]
        exact alike_fault _

/-- A conversion to an `int` keeps a number up to a multiple of `2 ^ 32`. -/
theorem exists_toInt32_eq (y : ℤ) : ∃ k, toInt32 y = y - 2 ^ 32 * k := by
  refine ⟨(y - toInt32 y) / 2 ^ 32, ?_⟩
  rw [toInt32, Int.bmod_def]
  split_ifs <;> omega

/-- `fs_read` does not tell states apart in which the bytes of the file are the same. -/
theorem readFile_alike (hn : s'.img.nblocks = s.img.nblocks) (h0 : 0 ≤ x.size.toInt)
    (hle : x.size.toInt ≤ 1019 * 4096)
    (hbyte : ∀ q < x.size.toInt.toNat, s'.img.fileByte x q = s.img.fileByte x q) (offset : ℤ) :
    (readFile x len offset).Alike s s' := by
  simp only [readFile]
  generalize hsize : x.size.toInt = size at h0 hle hbyte
  by_cases ho : size ≤ offset
  · rw [if_pos ho]
    exact alike_pure _
  · rw [if_neg ho]
    generalize hlen : (if size % 2 ^ 64 < (offset + len) % 2 ^ 64 then
      ((size - offset) % 2 ^ 64).toNat else len) = n
    by_cases hneg : n ≠ 0 ∧ offset.tmod 4096 < 0
    · rw [if_pos hneg]
      exact alike_fault _
    · rw [if_neg hneg]
      refine readLoop_alike hn fun hst hend q hq hq' => hbyte q ?_
      have hboff : ((Fin.ofNat 4096 (offset.tmod 4096).toNat).1 : ℤ) = offset.tmod 4096 := by
        have hlt := Int.tmod_lt_of_pos offset (show (0 : ℤ) < 4096 by decide)
        rw [Fin.val_ofNat, Nat.mod_eq_of_lt (by omega)]
        omega
      have hoff := Int.mul_tdiv_add_tmod offset 4096
      obtain ⟨k, hk⟩ := exists_toInt32_eq (offset.tdiv 4096)
      rw [hboff, hk] at hend hq'
      rw [hk] at hst
      -- Up to a multiple of `2 ^ 44`, the loop ends where the C code means it to.
      split_ifs at hlen with hwrap
      · omega
      · omega

end ReadLoop

/-! ## Calls that only read -/

section Reads

variable {s s' : FsState} (h : s.WF) (h' : s'.WF) (ht : s.img.Twins s'.img)
include h h' ht

theorem alike_translate (path : FsPath) : (translate path.bytes).Alike s s' :=
  ⟨_, translate_run h path, by rw [translate_run h' path, ht.agree.translate]⟩

theorem alike_readInode {i : ℕ} (hi : s.img.table.Live i) : (readInode i).Alike s s' :=
  ⟨_, readInode_run h hi, by rw [readInode_run h' (ht.agree.live.2 hi), ht.agree.inode hi]⟩

theorem alike_readDir {i : ℕ} (hi : s.img.table.Live i) (hd : (s.img.table.inode i).isDir = true) :
    (readDir ((s.img.table.inode i).ptrs 0)).Alike s s' := by
  refine ⟨_, readDir_run h hi hd, ?_⟩
  have hrun := readDir_run h' (ht.agree.live.2 hi) (by rwa [ht.agree.inode hi])
  rwa [ht.agree.inode hi, ht.agree.dir hi hd] at hrun

theorem readdirLoop_alike {p : ℕ} (hp : s.img.table.Live p)
    (hd : (s.img.table.inode p).isDir = true) (filler : Calls → Bool) (calls : Calls)
    (ks : List (Fin 128)) : (readdirLoop (s.img.table.dir p) filler calls ks).Alike s s' := by
  induction ks generalizing calls with
  | nil => exact alike_pure _
  | cons k ks ih =>
    rw [readdirLoop]
    split_ifs with hv
    · obtain ⟨r, hr, hr'⟩ := alike_readInode h h' ht (hp.child hd hv)
      rw [readInode_run h (hp.child hd hv)] at hr
      obtain ⟨rfl, _⟩ := Prod.mk.inj hr
      refine FsM.Alike.bind ⟨_, attempt_ok (readInode_run h (hp.child hd hv)), attempt_ok hr'⟩
        fun o _ => ?_
      cases o with
      | none => exact ih _
      | some x =>
        refine (alike_inodeToStat x).bind fun st _ => ?_
        simp only []
        split_ifs
        · exact alike_pure _
        · exact ih _
    · exact ih _

/-- The start of calls that look up an object and read its inode. -/
theorem alike_inode {α : Type} (path : FsPath) {f : FsInode → FsM α}
    (hf : ∀ i, s.img.table.Live i → (f (s.img.table.inode i)).Alike s s') :
    (do
      let inum ← translate path.bytes
      let x ← readInode inum
      f x).Alike s s' := by
  refine (alike_translate h h' ht path).bind fun i hi => ?_
  rw [translate_run h path] at hi
  cases htr : s.img.table.translate path with
  | error e =>
    rw [htr] at hi
    cases hi
  | ok j =>
    rw [htr] at hi
    obtain ⟨⟨⟩, _⟩ := Prod.mk.inj hi
    have hlive := h.img.table.live_of_translate htr
    refine (alike_readInode h h' ht hlive).bind fun x hx => ?_
    rw [readInode_run h hlive] at hx
    obtain ⟨⟨⟩, _⟩ := Prod.mk.inj hx
    exact hf _ hlive

/-- A call that only reads does not tell states apart whose images are twins. -/
theorem exec_alike (env : Env) {op : Op} (hm : ¬op.Modifies) : (op.exec env).Alike s s' := by
  cases op with
  | getattr path => exact (alike_inode h h' ht path fun i _ => alike_inodeToStat _).map _
  | readdir path filler =>
    refine (alike_inode h h' ht path fun i hi => ?_).map _
    refine (alike_failIf _ _).bind fun _ hrun => ?_
    -- The call goes on only in a directory, whose entries are the same in both images.
    have hd : (s.img.table.inode i).isDir = true := by
      by_contra hd
      rw [show (!(s.img.table.inode i).isDir) = true by simpa using hd] at hrun
      cases hrun
    refine (alike_readDir h h' ht hi hd).bind fun dir hdir => ?_
    rw [readDir_run h hi hd] at hdir
    obtain ⟨⟨⟩, _⟩ := Prod.mk.inj hdir
    exact readdirLoop_alike h h' ht hi hd filler _ _
  | read path len offset =>
    refine (alike_inode h h' ht path fun i hi => ?_).map _
    refine (alike_failIf _ _).bind fun _ hrun => ?_
    -- It goes on only in a file, whose bytes up to its size are the same.
    have hr : (s.img.table.inode i).isReg = true := by
      by_contra hr
      rw [show (!(s.img.table.inode i).isReg) = true by simpa using hr] at hrun
      cases hrun
    obtain ⟨h0, hle⟩ := h.img.table.size_le hi hr
    exact readFile_alike ht.nblocks h0 hle
      (fun q hq => ht.fileByte h.img hi (FsInode.isDir_of_isReg hr) hq) offset
  | statfs =>
    -- What is free is counted in the bitmap, which is the same in both images.
    have hsb : s'.superblock = s.superblock := by
      rw [h.superblock, h'.superblock, ht.block fun _ => .inl Nat.two_pos]
    have hmap : s'.bitmap = s.bitmap := by rw [h.bitmap, h'.bitmap, ht.bitmap]
    refine FsM.Alike.map ?_ _
    simp only [FsM.Alike, fsStatfs, bind_get, hsb, hmap]
    split_ifs
    · exact alike_fault _
    · exact alike_pure _
  | _ => exact absurd trivial hm

end Reads

/-! ## Runs -/

/-- The results of a sequence of calls. -/
def FsState.results (s : FsState) : List (Env × Op) → List (Res Out)
  | [] => []
  | (env, op) :: calls => ((op.exec env).run s).1 :: ((op.exec env).run s).2.results calls

/-- The arguments of all calls of a sequence are as FUSE passes them. -/
def FsState.Ok (s : FsState) : List (Env × Op) → Prop
  | [] => True
  | (env, op) :: calls => op.Ok s.img ∧ ((op.exec env).run s).2.Ok calls

/-- A call gives the same result in states whose images are twins, and they stay so. -/
theorem exec_twins {s s' : FsState} (h : s.WF) (h' : s'.WF) (ht : s.img.Twins s'.img) (env : Env)
    {op : Op} (hop : op.Ok s.img) : ((op.exec env).run s').1 = ((op.exec env).run s).1 ∧
      ((op.exec env).run s).2.img.Twins ((op.exec env).run s').2.img := by
  by_cases hm : op.Modifies
  · obtain ⟨r, ws, he⟩ := Op.exists_ends env hm hop
    obtain ⟨ws', he', htw⟩ := he.twins ht h.img h'.img hop
    rw [exec_run h hop he, exec_run h' (ht.ok h.img hop) he']
    exact ⟨rfl, htw⟩
  · obtain ⟨r, hr, hr'⟩ := exec_alike h h' ht env hm
    rw [hr, hr']
    exact ⟨rfl, ht⟩

/-- Sequences of calls have the same results from states whose images are twins. -/
theorem results_twins {s s' : FsState} (h : s.WF) (h' : s'.WF) (ht : s.img.Twins s'.img)
    {calls : List (Env × Op)} (hok : s.Ok calls) : s'.results calls = s.results calls := by
  induction calls generalizing s s' with
  | nil => rfl
  | cons c calls ih =>
    obtain ⟨env, op⟩ := c
    obtain ⟨hop, hok⟩ := hok
    obtain ⟨hr, htw⟩ := exec_twins h h' ht env hop
    have hrest := ih (exec_wf h env hop) (exec_wf h' env (ht.ok h.img hop)) htw hok
    rw [FsState.results, FsState.results, hr, hrest]

/-- An empty file system with a free block that is not empty. -/
def leftoverFs : FsState := .mount ((Image.format 8).put ⟨5, fun _ => 7⟩)

theorem not_visible_format {j : ℕ} : ¬(Image.format 8).table.Visible 5 j := by
  rintro (hb | ⟨i, r, hi, ho, _⟩)
  · omega
  · rw [Image.live_format.1 hi] at ho
    rcases Image.owns_format ho with ⟨_, hb⟩ | ⟨_, hb⟩
    · cases hb
    · cases hb

theorem wf_leftoverFs : leftoverFs.WF := by
  refine FsState.mount_wf ((Image.format_wf (by decide) (by decide)).put_of_not_referenced
    (w := ⟨5, _⟩) (show 5 < 8 by decide) (show 1 < 5 by decide) ?_)
  rintro ⟨i, r, hi, ho⟩
  rw [Image.live_format.1 hi] at ho
  rcases Image.owns_format ho with ⟨_, hb⟩ | ⟨_, hb⟩
  · cases hb
  · cases hb

theorem twins_leftoverFs : emptyFs.img.Twins leftoverFs.img where
  nblocks := rfl
  byte {b j} hb := by
    have hne : b ≠ 5 := fun he => not_visible_format (he ▸ hb)
    have hlt : (⟨5, fun _ => 7⟩ : Write).lba < (Image.format 8).nblocks := show 5 < 8 by decide
    exact congrArg (Block.byte · j) (Image.put_block_of_ne hlt hne)

/-- What was left in a free block is not read from a new file. -/
theorem results_leftoverFs :
    leftoverFs.results [(⟨500, 500, 0⟩, .create pathA 0o100644),
      (⟨500, 500, 0⟩, .write pathA [1, 2, 3] 0), (⟨500, 500, 0⟩, .read pathA 4096 0)] =
    emptyFs.results [(⟨500, 500, 0⟩, .create pathA 0o100644),
      (⟨500, 500, 0⟩, .write pathA [1, 2, 3] 0), (⟨500, 500, 0⟩, .read pathA 4096 0)] :=
  results_twins wf_emptyFs wf_leftoverFs twins_leftoverFs
    ⟨show RegMode _ from rfl, ⟨by decide, by decide⟩, trivial, trivial⟩

end Cs5600
