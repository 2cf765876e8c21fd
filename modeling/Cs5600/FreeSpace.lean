import Cs5600.Accounting

/-!
# Free space

`fs_statfs` counts the bits of the bitmap that are not set, and `allocate_block` takes the
first of them from 2 on. So `f_bfree` says how often `allocate_block` can be called before
it fails, in every state of a run (`bfree_predicts`): the calls return the free blocks in
order (`allocateBlocks_run`). Freed in any order, they leave the bitmap as it was
(`foldl_bitClear_bitSet`).
-/

namespace Cs5600

open FsM

/-! ## Bitmaps as sets of bits -/

/-- Bitmaps with the same bits are the same. -/
theorem Block.ext_bitTest {map map' : Block} (h : ∀ i, bitTest map i = bitTest map' i) :
    map = map' := by
  funext j
  have hbyte : ∀ b : Block, b.byte j = b j := fun b => b.byte_of_lt j.2
  rw [← hbyte map, ← hbyte map', ← UInt8.toNat_inj]
  refine Nat.eq_of_testBit_eq fun k => ?_
  by_cases hk : k < 8
  · have hbit := h (8 * j + k)
    rwa [bitTest_eq_testBit, bitTest_eq_testBit, show (8 * j.1 + k) / 8 = j by omega,
      show (8 * j.1 + k) % 8 = k by omega] at hbit
  · -- A byte has no more bits.
    have hlt : ∀ b : UInt8, b.toNat < 2 ^ k := fun b =>
      lt_of_lt_of_le b.toNat_lt (Nat.pow_le_pow_right (by decide) (not_lt.1 hk))
    rw [Nat.testBit_lt_two_pow (hlt _), Nat.testBit_lt_two_pow (hlt _)]

/-- Bits that are set, and cleared again in any order. -/
theorem foldl_bitClear_bitSet {map : Block} {bs cs : List ℕ}
    (hbs : ∀ b ∈ bs, b < 32768 ∧ bitTest map b = false) (hcs : cs.Perm bs) :
    cs.foldl bitClear (bs.foldl bitSet map) = map := by
  refine Block.ext_bitTest fun i => ?_
  rw [bitTest_foldl_bitClear fun c hc => (hbs c (hcs.mem_iff.1 hc)).1,
    bitTest_foldl_bitSet fun b hb => (hbs b hb).1]
  by_cases hi : i ∈ bs
  · rw [decide_eq_true (hcs.mem_iff.2 hi), (hbs i hi).2]
    rfl
  · rw [decide_eq_false (mt hcs.mem_iff.1 hi), decide_eq_false hi]
    rfl

theorem freeBlocks_pairwise (n : ℕ) (map : Block) : (freeBlocks n map).Pairwise (· < ·) :=
  List.Pairwise.filter _ List.pairwise_lt_range'

/-! ## Calls in a row -/

/-- So many calls of `allocate_block`: the blocks that they return. -/
def allocateBlocks : ℕ → FsM (List ℕ)
  | 0 => pure []
  | n + 1 => do
    let b ← allocateBlock
    let bs ← allocateBlocks n
    pure (b :: bs)

/-- `free_block` of one block after the other. -/
def freeAll : List ℕ → FsM Unit
  | [] => pure ()
  | b :: bs => do
    freeBlock b
    freeAll bs

section Mounted

variable {s : FsState} (h : s.Mounted)
include h

theorem allocateBlocks_run {bs : List ℕ} (hbs : bs <+: s.img.free) :
    (allocateBlocks bs.length).run s =
      (.ok bs, s.wrote (bitWrites bitSet (s.img.block 1) bs)) := by
  induction bs generalizing s with
  | nil =>
    rw [bitWrites, h.wrote_nil]
    rfl
  | cons b bs ih =>
    obtain ⟨rest, hrest⟩ := hbs
    rw [List.cons_append] at hrest
    have hfree := h.free_wrote_bitSet hrest.symm
    have hrun := ih (h.wrote_one (bitSet (s.img.block 1) b)) ⟨rest, hfree.symm⟩
    rw [h.wrote_bitWrites] at hrun
    rw [List.length_cons, allocateBlocks, bind_ok (h.allocateBlock_cons hrest.symm), bind_ok hrun]
    rfl

theorem freeAll_run {cs : List ℕ} (hcs : ∀ c ∈ cs, c < 32768) :
    (freeAll cs).run s = (.ok (), s.wrote (bitWrites bitClear (s.img.block 1) cs)) := by
  induction cs generalizing s with
  | nil =>
    rw [bitWrites, h.wrote_nil]
    rfl
  | cons c cs ih =>
    have hrun := ih (h.wrote_one (bitClear (s.img.block 1) c))
      fun b hb => hcs b (List.mem_cons_of_mem _ hb)
    rw [h.wrote_bitWrites] at hrun
    rw [freeAll, bind_ok (h.freeBlock (hcs c List.mem_cons_self)), hrun]

end Mounted

/-! ## What `fs_statfs` reports -/

section Statfs

variable {s s' : FsState}

/-- The same image, with the superblock and the bitmap that belong to it. -/
theorem FsState.WF.of_img (h : s.WF) (hm : s'.Mounted) (himg : s'.img = s.img) : s'.WF :=
  ⟨hm.superblock, hm.bitmap, himg ▸ h.img⟩

theorem fsStatfs_run (h : s.WF) : ∃ st, fsStatfs.run s = (.ok st, s) ∧
    st.bfree = s.img.free.length := by
  have hm := h.mounted
  have hcap := hm.le_cap
  obtain ⟨st, hst⟩ : ∃ st, fsStatfs.run s = (.ok st, s) := by
    rw [fsStatfs, bind_get]
    simp only [hm.diskSize]
    rw [if_neg (by omega)]
    exact ⟨_, rfl⟩
  refine ⟨st, hst, ?_⟩
  rw [← bfree_eq h, FsState.bfree, hst]

/-- Calls do not change the size of the image. -/
theorem exec_nblocks (h : s.WF) (env : Env) {op : Op} (hop : op.Ok s.img) :
    ((op.exec env).run s).2.img.nblocks = s.img.nblocks := by
  by_cases hm : op.Modifies
  · obtain ⟨r, ws, he⟩ := Op.exists_ends env hm hop
    rw [exec_run h hop he]
    exact FsState.nblocks_wrote (he.writable h.img hop)
  · rw [exec_reads hm]

theorem Reachable.nblocks (h : s.WF) (hs : Reachable s s') : s'.img.nblocks = s.img.nblocks := by
  induction hs with
  | init => rfl
  | call env op hs hop ih => rw [exec_nblocks (hs.wf h) env hop, ih]

/-- In every state of a run, `f_bfree` is the number of calls of `allocate_block` that succeed. They
    return free blocks in increasing order, and the next call fails. When the blocks are freed
    again, in any order, the disk and the bitmap are as before. -/
theorem bfree_predicts (h : s.WF) (hs : Reachable s s') :
    ∃ st bs t, fsStatfs.run s' = (.ok st, s') ∧ st.bfree = (bs.length : ℤ) ∧
      (allocateBlocks bs.length).run s' = (.ok bs, t) ∧ bs.Pairwise (· < ·) ∧
      (∀ b ∈ bs, 2 ≤ b ∧ b < s.img.nblocks ∧ bitTest s'.bitmap b = false) ∧
      allocateBlock.run t = (.err .ENOSPC, t) ∧
      ∀ cs : List ℕ, cs.Perm bs → ∃ t' st', (freeAll cs).run t = (.ok (), t') ∧
        t'.bitmap = s'.bitmap ∧ t'.img = s'.img ∧ fsStatfs.run t' = (.ok st', t') ∧
          st'.bfree = st.bfree := by
  have hwf := hs.wf h
  have hm := hwf.mounted
  obtain ⟨st, hst, hbfree⟩ := fsStatfs_run hwf
  have hlt : ∀ b ∈ s'.img.free, b < 32768 ∧ bitTest (s'.img.block 1) b = false :=
    fun b hb => ⟨hwf.img.free_lt hb, (mem_freeBlocks.1 hb).2.2⟩
  have hmarks : Writable s'.img.nblocks (bitWrites bitSet (s'.img.block 1) s'.img.free) :=
    writable_bitWrites hm.three_le
  have hm' := hm.wrote hmarks
  refine ⟨st, s'.img.free, _, hst, hbfree, allocateBlocks_run hm List.prefix_rfl,
    freeBlocks_pairwise _ _, fun b hb => ?_, hm'.allocateBlock_nil ?_, fun cs hcs => ?_⟩
  · rw [hwf.bitmap, ← hs.nblocks h]
    exact mem_freeBlocks.1 hb
  · -- All blocks are marked now.
    refine List.eq_nil_iff_forall_not_mem.2 fun b hb => ?_
    obtain ⟨h2, hn, hbit⟩ := mem_freeBlocks.1 hb
    rw [FsState.wrote_img, Image.bitmap_puts_bitWrites hm.one_lt,
      bitTest_foldl_bitSet fun b hb => (hlt b hb).1, Bool.or_eq_false_iff,
      decide_eq_false_iff_not] at hbit
    rw [FsState.nblocks_wrote hmarks] at hn
    exact hbit.1 (mem_freeBlocks.2 ⟨h2, hn, hbit.2⟩)
  · have hfree := freeAll_run hm' fun c hc => (hlt c (hcs.mem_iff.1 hc)).1
    have himg : ((s'.wrote (bitWrites bitSet (s'.img.block 1) s'.img.free)).wrote
        (bitWrites bitClear ((s'.wrote (bitWrites bitSet (s'.img.block 1) s'.img.free)).img.block 1)
          cs)).img = s'.img := by
      rw [FsState.wrote_img, Image.puts_bitWrites hm'.one_lt, FsState.wrote_img,
        Image.puts_bitWrites hm.one_lt]
      simp only [Function.update_self, Function.update_idem, foldl_bitClear_bitSet hlt hcs,
        Function.update_eq_self]
    have hmap := congrArg (·.block 1) himg
    obtain ⟨st', hst', hbfree'⟩ := fsStatfs_run
      (hwf.of_img (hm'.wrote (writable_bitWrites hm'.three_le)) himg)
    refine ⟨_, st', hfree, hmap.trans hwf.bitmap.symm, himg, hst', ?_⟩
    rw [hbfree', hbfree, himg]

end Statfs

/-- A file is made in an empty file system of eight blocks. -/
theorem bfree_predicts_fileA :
    ∃ st bs t, fsStatfs.run fileA = (.ok st, fileA) ∧ st.bfree = (bs.length : ℤ) ∧
      (allocateBlocks bs.length).run fileA = (.ok bs, t) ∧ bs.Pairwise (· < ·) ∧
      (∀ b ∈ bs, 2 ≤ b ∧ b < emptyFs.img.nblocks ∧ bitTest fileA.bitmap b = false) ∧
      allocateBlock.run t = (.err .ENOSPC, t) ∧
      ∀ cs : List ℕ, cs.Perm bs → ∃ t' st', (freeAll cs).run t = (.ok (), t') ∧
        t'.bitmap = fileA.bitmap ∧ t'.img = fileA.img ∧ fsStatfs.run t' = (.ok st', t') ∧
          st'.bfree = st.bfree :=
  bfree_predicts wf_emptyFs reachable_fileA

end Cs5600
