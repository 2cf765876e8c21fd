import Cs5600.Failures

/-!
# Files larger than an inode can hold

An inode has 1019 pointers, and `fs_write` does not check that a write needs no more. It allocates
blocks beyond the last pointer as long as there are any, and if there are too few it has marked
those that there were. Only where it is refused before, or there is no free block at all, such
a write fails and leaves everything as it was (`Op.Bounded`). In runs of such calls, and of
calls that need no more pointers, indices of pointers are below 1019 (`ptrs_bounded`).
-/

namespace Cs5600

open Table FsM

/-! ## Allocating beyond the last pointer -/

section Overrun

variable {s : FsState} {x : FsInode}

/-- With more blocks to be had than there are pointers left, the index 1019 is used. -/
theorem allocPtrs_overrun (h : s.Mounted) {i n : ℕ} (hi : i ≤ 1019) (hn : 1019 < i + n)
    (hfree : 1019 < i + (freeBlocks s.img.nblocks (s.img.block 1)).length) :
    ∃ s', (allocPtrs x i n).run s = (.fault (.ptrs 1019), s') := by
  induction n generalizing s x i with
  | zero => omega
  | succ n ih =>
    obtain ⟨b, bs, hbs⟩ := List.exists_cons_of_length_pos
      (show 0 < (freeBlocks s.img.nblocks (s.img.block 1)).length by omega)
    rw [allocPtrs, bind_ok (h.allocateBlock_cons hbs)]
    rcases Nat.eq_or_lt_of_le hi with rfl | hlt
    · -- There is no such pointer.
      rw [FsInode.setPtr, dif_neg (by decide)]
      exact ⟨_, rfl⟩
    · rw [setPtr_eq hlt, bind_ok (pure_run _)]
      have hrest := h.free_wrote_bitSet hbs
      rw [hbs, List.length_cons] at hfree
      exact ih (h.wrote_one _) (i := i + 1) (by omega) (by omega) (by rw [hrest]; omega)

end Overrun

/-! ## Calls within the bounds -/

/-- A write that does not get to allocate a block: it is refused, or there is none. -/
def Image.Stopped (img : Image) (path : FsPath) (offset : ℤ) : Prop :=
  (∃ e, img.table.writable path offset.toNat = .error e) ∨ img.free = []

namespace Op

/-- The operations that use pointers of files. -/
def Indexes : Op → Prop
  | unlink _ | truncate _ _ | read _ _ _ | write _ _ _ => True
  | _ => False

/-- The arguments are as FUSE passes them, and writes that need more than 1019 blocks are
    stopped. -/
def Bounded (img : Image) : Op → Prop
  | read _ len offset => 0 ≤ offset ∧ offset + len < 2 ^ 31
  | write path buf offset => 0 ≤ offset ∧ offset + buf.length < 2 ^ 31 ∧
      (offset + buf.length ≤ 1019 * 4096 ∨ img.Stopped path offset)
  | op => op.Ok img

/-- The call does not go beyond the pointers of an inode; a write that needs more of them fails, and
    the inode and the bitmap stay as they were. -/
structure KeepsIndices (s : FsState) (op : Op) : Prop where
  ptrs : ∀ env i, ((op.exec env).run s).1 ≠ .fault (.ptrs i)
  large : ∀ env path buf offset, op = .write path buf offset → 1019 * 4096 < offset + buf.length →
    ∃ e s', (op.exec env).run s = (.err e, s') ∧ s'.bitmap = s.bitmap ∧
      s'.img.block 1 = s.img.block 1 ∧
      ∀ i, s.img.table.translate path = .ok i → s'.img.block i = s.img.block i

variable {s : FsState} {op : Op}

/-- Other writes are ordinary calls. -/
theorem Bounded.ok_or_stopped {img : Image} (hop : op.Bounded img) : op.Ok img ∨
    ∃ path buf, ∃ o : ℕ, op = .write path buf o ∧ o + buf.length < 2 ^ 31 ∧
      1019 * 4096 < o + buf.length ∧ img.Stopped path o := by
  cases op with
  | write path buf offset =>
    obtain ⟨h0, hlt, hend⟩ := hop
    by_cases hle : offset + buf.length ≤ 1019 * 4096
    · exact .inl ⟨h0, hle⟩
    · obtain ⟨o, rfl⟩ := Int.eq_ofNat_of_zero_le h0
      exact .inr ⟨path, buf, o, rfl, by omega, by omega, hend.resolve_left hle⟩
  | read => exact .inl trivial
  | _ => exact .inl hop

end Op

/-- The states of runs whose calls are within the bounds. -/
inductive BoundedRun (s : FsState) : FsState → Prop
  | init : BoundedRun s s
  | call {s' : FsState} (env : Env) (op : Op) : BoundedRun s s' → op.Bounded s'.img →
      BoundedRun s ((op.exec env).run s').2

section Calls

variable {s s' : FsState} {path : FsPath} {buf : List UInt8} {o : ℕ}

/-- A large write that is stopped does nothing. -/
theorem exec_stopped (h : s.WF) (env : Env) (hlt : o + buf.length < 2 ^ 31)
    (hend : 1019 * 4096 < o + buf.length) (hstop : s.img.Stopped path o) :
    ∃ e, ((Op.write path buf o).exec env).run s = (.err e, s) := by
  cases hl : s.img.table.writable path o with
  | error e => exact ⟨e, map_run Out.count (fsWrite_refused h hl)⟩
  | ok i =>
    have hnil : s.img.free = [] := hstop.resolve_left fun ⟨e, he⟩ => by
      rw [Int.toNat_natCast, hl] at he
      cases he
    have hcap := h.img.table.nptrs_le (h.img.table.of_regular (writable_eq_ok.1 hl).1).1
    have hrun : (fsWrite env path.bytes buf o).run s = _ := fsWrite_noSpace h hl hlt
      (by rw [hnil, blocksFor, List.length_nil]; omega) (by rw [hnil, List.length_nil]; omega)
    rw [hnil, bitWrites, h.mounted.wrote_nil] at hrun
    exact ⟨_, map_run Out.count hrun⟩

/-- A large write goes beyond the pointers when there are enough blocks for that. -/
theorem fsWrite_overrun (h : s.WF) (env : Env) {i : ℕ} (hl : s.img.table.writable path o = .ok i)
    (hlt : o + buf.length < 2 ^ 31) (hend : 1019 * 4096 < o + buf.length)
    (hfree : 1019 < (s.img.table.inode i).nptrs + s.img.free.length) :
    ∃ s', ((Op.write path buf o).exec env).run s = (.fault (.ptrs 1019), s') := by
  have hcap := h.img.table.nptrs_le (h.img.table.of_regular (writable_eq_ok.1 hl).1).1
  obtain ⟨s', hrun⟩ := allocPtrs_overrun (x := s.img.table.inode i) h.mounted hcap
    (n := blocksFor (o + buf.length) - (s.img.table.inode i).nptrs) (by rw [blocksFor]; omega) hfree
  exact ⟨s', map_run Out.count ((fsWrite_alloc h hl hlt).trans (bind_fault hrun))⟩

theorem BoundedRun.wf (h : s.WF) (hs : BoundedRun s s') : s'.WF := by
  induction hs with
  | init => exact h
  | call env op _ hop ih =>
    rcases hop.ok_or_stopped with hok | ⟨path, buf, o, rfl, hlt, hend, hstop⟩
    · exact exec_wf ih env hok
    · obtain ⟨e, hrun⟩ := exec_stopped ih env hlt hend hstop
      rwa [hrun]

/-- Calls within the bounds do not run into a fault at a pointer. -/
theorem Op.Bounded.ptrs (h : s.WF) {op : Op} (hi : op.Indexes) (hop : op.Bounded s.img) (env : Env)
    (i : ℤ) : ((op.exec env).run s).1 ≠ .fault (.ptrs i) := by
  by_cases hm : op.Modifies
  · rcases hop.ok_or_stopped with hok | ⟨path, buf, o, rfl, hlt, hend, hstop⟩
    · obtain ⟨r, ws, he⟩ := Op.exists_ends env hm hok
      rw [exec_run h hok he]
      exact he.ne_fault _
    · obtain ⟨e, hrun⟩ := exec_stopped h env hlt hend hstop
      rw [hrun]
      exact fun hf => by cases hf
  · cases op with
    | read path len offset =>
      obtain ⟨o, rfl⟩ := Int.eq_ofNat_of_zero_le hop.1
      have hlen := hop.2
      have hrun : (fsRead path.bytes len o).run s = _ := fsRead_run h (by omega)
      rw [show ((Op.read path len o).exec env).run s = _ from map_run Out.bytes hrun]
      cases s.img.table.regular path with
      | error e => exact fun hf => by cases hf
      | ok i => exact fun hf => by cases hf
    | unlink => exact absurd trivial hm
    | truncate => exact absurd trivial hm
    | write => exact absurd trivial hm
    | _ => cases hi

theorem Op.Bounded.keepsIndices (h : s.WF) {op : Op} (hi : op.Indexes) (hop : op.Bounded s.img) :
    op.KeepsIndices s where
  ptrs := hop.ptrs h hi
  large env path buf offset hw hend := by
    subst hw
    obtain ⟨o, rfl⟩ := Int.eq_ofNat_of_zero_le hop.1
    have hlt := hop.2.1
    obtain ⟨e, hrun⟩ : ∃ e, ((Op.write path buf o).exec env).run s = (.err e, s) :=
      exec_stopped h env (by omega) (by omega) (hop.2.2.resolve_left (by omega))
    exact ⟨e, s, hrun, rfl, rfl, fun _ _ => rfl⟩

/-- A large write that gets to allocate blocks goes beyond the pointers, or marks blocks and
    fails. -/
theorem stopped_of_keepsIndices (h : s.WF) (hlt : o + buf.length < 2 ^ 31)
    (hend : 1019 * 4096 < o + buf.length) (hk : (Op.write path buf o).KeepsIndices s) :
    s.img.Stopped path o := by
  by_contra hstop
  obtain ⟨href, hne⟩ := not_or.1 hstop
  cases hl : s.img.table.writable path o with
  | error e => exact href ⟨e, hl⟩
  | ok i =>
    by_cases hfree : (s.img.table.inode i).nptrs + s.img.free.length ≤ 1019
    · -- There are too few blocks, and all of them are marked.
      have hwrite : (fsWrite ⟨0, 0, 0⟩ path.bytes buf o).run s = _ :=
        fsWrite_noSpace h hl hlt (by rw [blocksFor]; omega) hfree
      have hrun := map_run Out.count hwrite
      obtain ⟨e, s', hrun', hmap, -⟩ := hk.large ⟨0, 0, 0⟩ path buf o rfl (by omega)
      obtain ⟨-, rfl⟩ := Prod.mk.inj (hrun.symm.trans hrun')
      refine h.img.bitmap_fresh_ne [] List.prefix_rfl (fun w hw => by cases hw) hne ?_
      rw [List.append_nil]
      exact hmap.trans h.bitmap
    · obtain ⟨s', hrun⟩ := fsWrite_overrun h ⟨0, 0, 0⟩ hl hlt hend (by omega)
      exact hk.ptrs ⟨0, 0, 0⟩ 1019 (congrArg Prod.fst hrun)

/-- In runs of calls within the bounds, such calls keep to the pointers of inodes; and writes do so
    only if they are within the bounds. -/
theorem ptrs_bounded (h : s.WF) (hs : BoundedRun s s') :
    (∀ op : Op, op.Indexes → op.Bounded s'.img → op.KeepsIndices s') ∧
    ∀ (path : FsPath) (buf : List UInt8) (offset : ℤ), 0 ≤ offset → offset + buf.length < 2 ^ 31 →
      ((Op.write path buf offset).KeepsIndices s' ↔ (Op.write path buf offset).Bounded s'.img) := by
  have hwf := hs.wf h
  refine ⟨fun op hi hop => hop.keepsIndices hwf hi, fun path buf offset h0 hlt => ?_⟩
  refine ⟨fun hk => ⟨h0, hlt, ?_⟩, fun hop => hop.keepsIndices hwf trivial⟩
  obtain ⟨o, rfl⟩ := Int.eq_ofNat_of_zero_le h0
  refine or_iff_not_imp_left.2 fun hle => ?_
  exact stopped_of_keepsIndices hwf (by omega) (by omega) hk

end Calls

/-- A file is made in an empty file system of eight blocks. -/
theorem ptrs_bounded_fileA :
    (∀ op : Op, op.Indexes → op.Bounded fileA.img → op.KeepsIndices fileA) ∧
    ∀ (path : FsPath) (buf : List UInt8) (offset : ℤ), 0 ≤ offset → offset + buf.length < 2 ^ 31 →
      ((Op.write path buf offset).KeepsIndices fileA ↔
        (Op.write path buf offset).Bounded fileA.img) :=
  ptrs_bounded wf_emptyFs
    (.call ⟨500, 500, 0⟩ (.create pathA 0o100644) .init (show RegMode _ from rfl))

/-- The file system of 1100 blocks with an empty file. -/
def largeFs : FsState :=
  (((Op.create pathA 0o100644).exec ⟨500, 500, 0⟩).run (.mount (.format 1100))).2

/-- One byte more than a file can hold is written: the pointer 1019 is used. -/
theorem not_keepsIndices_largeFs : largeFs.WF ∧
    ∃ (buf : List UInt8) (s' : FsState), buf.length = 1019 * 4096 + 1 ∧
    ((Op.write pathA buf (0 : ℕ)).exec ⟨500, 500, 0⟩).run largeFs = (.fault (.ptrs 1019), s') := by
  have hwf : largeFs.WF :=
    exec_wf (FsState.mount_wf (Image.format_wf (by decide) (by decide))) _ (show RegMode _ from rfl)
  have hfree : 1019 < largeFs.img.free.length := by decide +kernel
  have hl : largeFs.img.table.writable pathA 0 = .ok 4 := rfl
  obtain ⟨buf, hbuf⟩ : ∃ buf : List UInt8, buf.length = 1019 * 4096 + 1 :=
    ⟨List.replicate (1019 * 4096 + 1) 120, List.length_replicate⟩
  obtain ⟨s', hrun⟩ := fsWrite_overrun hwf ⟨500, 500, 0⟩ hl
    (show 0 + buf.length < 2 ^ 31 by omega) (by omega) (by omega)
  exact ⟨hwf, buf, s', hbuf, hrun⟩

end Cs5600
