import Cs5600.Lookup

/-!
# How calls end

For each operation on names, the ways a call ends in a well-formed state: its
result, and the blocks it writes, in order. A call that is *refused* writes
nothing. There are three kinds:

* `NewEnds`: `fs_create` and `fs_mkdir` allocate blocks, write the new object to
  them and then its entry, and may run out of blocks or of entries;
* `RemoveEnds`: `fs_unlink` and `fs_rmdir` invalidate the entry of an object and
  then free its blocks;
* `RenameEnds`: `fs_rename` writes the new name.

Besides, `fs_chmod` and `fs_utime` write an inode (`SetEnds`).

There is always a way of ending (`exists_newEnds` and so on), and a call ends in
that way (`fsCreate_run` and so on). In particular, no call runs into a fault.
-/

namespace Cs5600

open LabelledGraph Table FsM

namespace Image

variable (img : Image) (path : FsPath)

/-- The free blocks of an image. -/
def free : List ℕ := freeBlocks img.nblocks (img.block 1)

/-- The block of entries of a directory. -/
def dirPtr (p : ℕ) : ℕ := ((img.table.inode p).ptrs 0).toNat

/-- How a new object is made of `need` blocks, to which `init` writes it. -/
inductive NewEnds (need : ℕ) (init : List ℕ → List Write) : Res Unit → List Write → Prop
  | refused {e : Errno} : img.table.newLeaf path = .error e → NewEnds need init (.err e) []
  | noBlocks {p : ℕ} {leaf : List UInt8} : img.table.newLeaf path = .ok (p, leaf) →
      img.free.length < need →
      NewEnds need init (.err .ENOSPC) (bitWrites bitSet (img.block 1) img.free)
  | noEntry {p : ℕ} {leaf : List UInt8} {bs : List ℕ} :
      img.table.newLeaf path = .ok (p, leaf) → bs.length = need → bs <+: img.free →
      (img.table.dir p).find (!·.valid) = none →
      NewEnds need init (.err .ENOSPC) (bitWrites bitSet (img.block 1) bs ++ init bs)
  | done {p : ℕ} {leaf : List UInt8} {bs : List ℕ} {k : Fin 128} :
      img.table.newLeaf path = .ok (p, leaf) → bs.length = need → bs <+: img.free →
      (img.table.dir p).find (!·.valid) = some k →
      NewEnds need init (.ok ()) (bitWrites bitSet (img.block 1) bs ++ init bs ++
        [⟨img.dirPtr p, ((img.table.dir p).add k (Fin.ofNat _ (bs.headD 0)) leaf).encode⟩])

/-- How an object is removed, unless a check gives an error. -/
inductive RemoveEnds (check : ℕ → Option Errno) : Res Unit → List Write → Prop
  | refused {e : Errno} : img.table.oldLeaf path = .error e → RemoveEnds check (.err e) []
  | kept {p : ℕ} {k : Fin 128} {e : Errno} : img.table.oldLeaf path = .ok (p, k) →
      check (img.table.dir p k).inode = some e → RemoveEnds check (.err e) []
  | done {p : ℕ} {k : Fin 128} : img.table.oldLeaf path = .ok (p, k) →
      check (img.table.dir p k).inode = none →
      RemoveEnds check (.ok ()) (⟨img.dirPtr p, ((img.table.dir p).invalidate k).encode⟩ ::
        bitWrites bitClear (img.block 1)
          ((img.table.dir p k).inode.1 :: (img.table.inode (img.table.dir p k).inode).used))

/-- How an entry is renamed. -/
inductive RenameEnds (src dst : FsPath) : Res Unit → List Write → Prop
  | refused {e : Errno} : img.table.renamed src dst = .error e → RenameEnds src dst (.err e) []
  | done {p : ℕ} {k : Fin 128} {leaf : List UInt8} :
      img.table.renamed src dst = .ok (p, k, leaf) →
      RenameEnds src dst (.ok ()) [⟨img.dirPtr p, ((img.table.dir p).rename k leaf).encode⟩]

/-- How an inode is changed. -/
inductive SetEnds (f : FsInode → FsInode) : Res Unit → List Write → Prop
  | refused {e : Errno} : img.table.translate path = .error e → SetEnds f (.err e) []
  | done {i : ℕ} : img.table.translate path = .ok i →
      SetEnds f (.ok ()) [⟨i, (f (img.table.inode i)).encode⟩]

variable {img path}

theorem lt_of_mem_free {b : ℕ} (hb : b ∈ img.free) : 2 ≤ b ∧ b < img.nblocks :=
  ⟨(mem_freeBlocks.1 hb).1, (mem_freeBlocks.1 hb).2.1⟩

theorem exists_newEnds (img : Image) (path : FsPath) (need : ℕ) (init : List ℕ → List Write) :
    ∃ r ws, img.NewEnds path need init r ws := by
  cases hl : img.table.newLeaf path with
  | error e => exact ⟨_, _, .refused hl⟩
  | ok pl =>
    by_cases hf : img.free.length < need
    · exact ⟨_, _, .noBlocks hl hf⟩
    · have hlen : (img.free.take need).length = need := List.length_take_of_le (by omega)
      have hpre := List.take_prefix need img.free
      cases hk : (img.table.dir pl.1).find (!·.valid) with
      | none => exact ⟨_, _, .noEntry hl hlen hpre hk⟩
      | some k => exact ⟨_, _, .done hl hlen hpre hk⟩

theorem exists_removeEnds (img : Image) (path : FsPath) (check : ℕ → Option Errno) :
    ∃ r ws, img.RemoveEnds path check r ws := by
  cases hl : img.table.oldLeaf path with
  | error e => exact ⟨_, _, .refused hl⟩
  | ok pk =>
    cases hc : check (img.table.dir pk.1 pk.2).inode with
    | none => exact ⟨_, _, .done hl hc⟩
    | some e => exact ⟨_, _, .kept hl hc⟩

theorem exists_renameEnds (src dst : FsPath) : ∃ r ws, img.RenameEnds src dst r ws := by
  cases hl : img.table.renamed src dst with
  | error e => exact ⟨_, _, .refused hl⟩
  | ok pkl => exact ⟨_, _, .done hl⟩

theorem exists_setEnds (img : Image) (path : FsPath) (f : FsInode → FsInode) :
    ∃ r ws, img.SetEnds path f r ws := by
  cases hl : img.table.translate path with
  | error e => exact ⟨_, _, .refused hl⟩
  | ok i => exact ⟨_, _, .done hl⟩

end Image

/-! ## What the operations write -/

/-- The blocks of a new file. -/
def newFile (env : Env) (mode : UInt32) : List ℕ → List Write
  | n :: _ => [⟨n, (newInode env mode 0 fun _ => 0).encode⟩]
  | [] => []

/-- The inode of a new directory whose entries are in the block `b`. -/
def newDirInode (env : Env) (mode : UInt32) (b : ℕ) : FsInode :=
  newInode env (sIfdir ||| mode) 4096 (Function.update (fun _ => 0) 0 (UInt32.ofNat b))

/-- The blocks of a new directory. -/
def newDir (env : Env) (mode : UInt32) : List ℕ → List Write
  | n :: b :: _ => [⟨b, Block.zero⟩, ⟨n, (newDirInode env mode b).encode⟩]
  | _ => []

/-- Why an object is not unlinked. -/
def Table.unlinkCheck (t : Table) (i : ℕ) : Option Errno :=
  if (t.inode i).isDir then some .EISDIR else none

/-- Why a directory is not removed. -/
def Table.rmdirCheck (t : Table) (i : ℕ) : Option Errno :=
  if (t.inode i).isDir then
    if ((t.dir i).find (·.valid)).isSome then some .ENOTEMPTY else none
  else some .ENOTDIR

theorem Table.isDir_of_rmdirCheck {t : Table} {i : ℕ} (hc : t.rmdirCheck i = none) :
    (t.inode i).isDir = true := by
  by_contra hd
  rw [rmdirCheck, if_neg hd] at hc
  cases hc

/-- An inode with other permissions. -/
def FsInode.chmod (mode : UInt32) (x : FsInode) : FsInode :=
  { x with mode := (x.mode &&& sIfmt) ||| (mode &&& ~~~sIfmt) }

/-- An inode with other times. -/
def FsInode.utime (modtime : Int64) (x : FsInode) : FsInode :=
  { x with mtime := timeOf modtime, ctime := timeOf modtime }

/-! ## Their runs -/

section Mounted

variable {s : FsState}

theorem FsState.Mounted.writeInode (h : s.Mounted) {i : ℕ} (h1 : 1 < i) (hi : i < s.img.nblocks)
    (x : FsInode) : (writeInode i x).run s = (.ok (), s.wrote [⟨i, x.encode⟩]) :=
  h.blockWrite h1 hi x.encode

theorem FsState.Mounted.writeDir (h : s.Mounted) {ptr : UInt32} (h1 : 1 < ptr.toNat)
    (hptr : ptr.toNat < s.img.nblocks) (d : DirBlock) :
    (writeDir ptr d).run s = (.ok (), s.wrote [⟨ptr.toNat, d.encode⟩]) := by
  have hcap := h.le_cap
  rw [Cs5600.writeDir, cint_of_lt (by omega)]
  exact h.blockWrite h1 hptr d.encode

/-- The end of `fs_create` and `fs_mkdir`. -/
theorem FsState.Mounted.addEntry (h : s.Mounted) {ptr : UInt32} (h1 : 1 < ptr.toNat)
    (hptr : ptr.toNat < s.img.nblocks) {dir : DirBlock} {k : Fin 128}
    (hk : dir.find (!·.valid) = some k) (n : ℕ) (leaf : List UInt8) :
    (addEntry ptr dir n leaf).run s =
      (.ok (), s.wrote [⟨ptr.toNat, (dir.add k (Fin.ofNat _ n) leaf).encode⟩]) := by
  rw [Cs5600.addEntry, hk]
  exact h.writeDir h1 hptr _

theorem addEntry_full {ptr : UInt32} {dir : DirBlock} (hk : dir.find (!·.valid) = none) (n : ℕ)
    (leaf : List UInt8) : (addEntry ptr dir n leaf).run s = (.err .ENOSPC, s) := by
  rw [addEntry, hk]
  rfl

end Mounted

section Runs

variable {s : FsState} (h : s.WF) {env : Env} {path : FsPath} {mode : UInt32} {r : Res Unit}
  {ws : List Write}
include h

theorem writable_newFile (env : Env) (mode : UInt32) {n : ℕ} (hn : n ∈ s.img.free) :
    Writable s.img.nblocks (bitWrites bitSet (s.img.block 1) [n] ++ newFile env mode [n]) := by
  obtain ⟨h2, hlt⟩ := Image.lt_of_mem_free hn
  exact (writable_bitWrites h.mounted.three_le).append (writable_singleton (by simp; omega) hlt)

/-- Allocating the block of a new file, and writing its inode. -/
theorem newFile_run {n : ℕ} (hn : [n] <+: s.img.free) {α : Type} (f : ℕ → FsM α) :
    (do
      let inum ← allocateBlock
      writeInode inum (newInode env mode 0 fun _ => 0)
      f inum).run s =
    (f n).run (s.wrote (bitWrites bitSet (s.img.block 1) [n] ++ newFile env mode [n])) := by
  obtain ⟨rest, hrest⟩ := hn
  have hfree : freeBlocks s.img.nblocks (s.img.block 1) = n :: rest := hrest.symm
  obtain ⟨h2, hlt⟩ := Image.lt_of_mem_free (b := n) (by rw [← hrest]; exact List.mem_cons_self)
  have hm := h.mounted.wrote_one (bitSet (s.img.block 1) n)
  have hwrite := hm.writeInode (i := n) h2 (by rwa [h.mounted.nblocks_wrote_one])
    (newInode env mode 0 fun _ => 0)
  rw [bind_ok (h.mounted.allocateBlock_cons hfree), bind_ok hwrite, FsState.wrote_wrote]
  rfl

/-- `fs_create` ends as it should. -/
theorem fsCreate_run (he : s.img.NewEnds path 1 (newFile env mode) r ws) :
    (fsCreate env path.bytes mode).run s = (r, s.wrote ws) := by
  refine (newLeaf_run h path fun _ leaf x dir => do
    let inum ← allocateBlock
    writeInode inum (newInode env mode 0 fun _ => 0)
    addEntry (x.ptrs 0) dir inum leaf).trans ?_
  cases he with
  | refused hl => rw [hl, h.mounted.wrote_nil]
  | noBlocks hl hf =>
    -- `allocate_block` finds no block for the inode.
    have hnil : s.img.free = [] := List.length_eq_zero_iff.1 (by omega)
    rw [hl, hnil]
    exact (bind_err (h.mounted.allocateBlock_nil hnil)).trans (by rw [bitWrites, h.mounted.wrote_nil])
  | noEntry hl hlen hpre hk =>
    obtain ⟨n, rfl⟩ := List.length_eq_one_iff.1 hlen
    -- The inode has been written when `addEntry` finds that all entries are valid.
    rw [hl]
    dsimp only
    rw [newFile_run h hpre, addEntry_full hk]
  | @done p leaf bs k hl hlen hpre hk =>
    obtain ⟨n, rfl⟩ := List.length_eq_one_iff.1 hlen
    obtain ⟨hp, hd, _⟩ := newLeaf_eq_ok.1 hl
    obtain ⟨h2, hlt⟩ := h.img.table.dir_lt (h.img.table.live_of_lookupParent hp) hd
    have hw := writable_newFile h env mode (hpre.subset List.mem_cons_self)
    rw [hl]
    dsimp only
    rw [newFile_run h hpre, (h.mounted.wrote hw).addEntry h2 _ hk, FsState.wrote_wrote]
    · rfl
    · rw [FsState.nblocks_wrote hw]
      exact hlt

theorem writable_newDir (env : Env) (mode : UInt32) {n b : ℕ} (hn : n ∈ s.img.free)
    (hb : b ∈ s.img.free) :
    Writable s.img.nblocks
      (bitWrites bitSet (s.img.block 1) [n, b] ++ newDir env mode [n, b]) := by
  obtain ⟨hn2, hnlt⟩ := Image.lt_of_mem_free hn
  obtain ⟨hb2, hblt⟩ := Image.lt_of_mem_free hb
  refine (writable_bitWrites h.mounted.three_le).append fun w hw => ?_
  rcases List.mem_cons.1 hw with rfl | hw
  · exact ⟨by simp; omega, hblt⟩
  · rw [List.mem_singleton.1 hw]
    exact ⟨by simp; omega, hnlt⟩

/-- Allocating the blocks of a new directory, and writing them. -/
theorem newDir_run {n b : ℕ} (hn : [n, b] <+: s.img.free) {α : Type} (f : ℕ → FsM α) :
    (do
      let inum ← allocateBlock
      let dblk ← allocateBlock
      blockWrite dblk Block.zero
      writeInode inum
        (newInode env (sIfdir ||| mode) 4096 (Function.update (fun _ => 0) 0 (UInt32.ofNat dblk)))
      f inum).run s =
    (f n).run (s.wrote (bitWrites bitSet (s.img.block 1) [n, b] ++ newDir env mode [n, b])) := by
  obtain ⟨rest, hrest⟩ := hn
  have hfree : freeBlocks s.img.nblocks (s.img.block 1) = n :: b :: rest := hrest.symm
  obtain ⟨hn2, hnlt⟩ := Image.lt_of_mem_free (b := n) (by rw [← hrest]; exact List.mem_cons_self)
  obtain ⟨hb2, hblt⟩ := Image.lt_of_mem_free (b := b)
    (by rw [← hrest]; exact List.mem_cons_of_mem _ List.mem_cons_self)
  have hm := h.mounted.wrote_one (bitSet (s.img.block 1) n)
  -- The second `allocate_block` sees the bit that the first one has set.
  have hbits : (s.wrote [⟨1, bitSet (s.img.block 1) n⟩]).wrote
      [⟨1, bitSet ((s.wrote [⟨1, bitSet (s.img.block 1) n⟩]).img.block 1) b⟩] =
      s.wrote (bitWrites bitSet (s.img.block 1) [n, b]) := h.mounted.wrote_bitWrites bitSet n [b]
  have hw : Writable s.img.nblocks (bitWrites bitSet (s.img.block 1) [n, b]) :=
    writable_bitWrites h.mounted.three_le
  have hm₂ := h.mounted.wrote hw
  have hzero := hm₂.blockWrite (b := b) hb2 (by rwa [FsState.nblocks_wrote hw]) Block.zero
  have hw₃ : Writable (s.wrote (bitWrites bitSet (s.img.block 1) [n, b])).img.nblocks
      [⟨b, Block.zero⟩] :=
    writable_singleton (by simp; omega) (by rwa [FsState.nblocks_wrote hw])
  have hinode := (hm₂.wrote hw₃).writeInode (i := n) hn2
    (by rwa [FsState.nblocks_wrote hw₃, FsState.nblocks_wrote hw]) (newDirInode env mode b)
  rw [newDirInode] at hinode
  rw [bind_ok (h.mounted.allocateBlock_cons hfree),
    bind_ok (hm.allocateBlock_cons (h.mounted.free_wrote_bitSet hfree)), hbits, bind_ok hzero,
    bind_ok hinode, FsState.wrote_wrote, FsState.wrote_wrote]
  rfl

/-- `fs_mkdir` ends as it should. -/
theorem fsMkdir_run (he : s.img.NewEnds path 2 (newDir env mode) r ws) :
    (fsMkdir env path.bytes mode).run s = (r, s.wrote ws) := by
  refine (newLeaf_run h path fun _ leaf x dir => do
    let inum ← allocateBlock
    let dblk ← allocateBlock
    blockWrite dblk Block.zero
    writeInode inum
      (newInode env (sIfdir ||| mode) 4096 (Function.update (fun _ => 0) 0 (UInt32.ofNat dblk)))
    addEntry (x.ptrs 0) dir inum leaf).trans ?_
  cases he with
  | refused hl => rw [hl, h.mounted.wrote_nil]
  | noBlocks hl hf =>
    rw [hl]
    cases hfree : s.img.free with
    | nil =>
      exact (bind_err (h.mounted.allocateBlock_nil hfree)).trans
        (by rw [bitWrites, h.mounted.wrote_nil])
    | cons n rest =>
      -- The block for the inode is allocated, but there is none for the entries.
      rw [hfree, List.length_cons] at hf
      obtain rfl := List.length_eq_zero_iff.1 (show rest.length = 0 by omega)
      exact (bind_ok (h.mounted.allocateBlock_cons hfree)).trans (bind_err
        ((h.mounted.wrote_one _).allocateBlock_nil (h.mounted.free_wrote_bitSet hfree)))
  | noEntry hl hlen hpre hk =>
    obtain ⟨n, b, rfl⟩ := List.length_eq_two.1 hlen
    rw [hl]
    dsimp only
    rw [newDir_run h hpre, addEntry_full hk]
  | @done p leaf bs k hl hlen hpre hk =>
    obtain ⟨n, b, rfl⟩ := List.length_eq_two.1 hlen
    obtain ⟨hp, hd, _⟩ := newLeaf_eq_ok.1 hl
    obtain ⟨h2, hlt⟩ := h.img.table.dir_lt (h.img.table.live_of_lookupParent hp) hd
    have hw := writable_newDir h env mode (hpre.subset List.mem_cons_self)
      (hpre.subset (List.mem_cons_of_mem _ List.mem_cons_self))
    rw [hl]
    dsimp only
    rw [newDir_run h hpre, (h.mounted.wrote hw).addEntry h2 _ hk, FsState.wrote_wrote]
    · rfl
    · rw [FsState.nblocks_wrote hw]
      exact hlt

/-- The entry of a path in a directory is valid, and names a live object. -/
theorem FsState.WF.oldLeaf (hdir : s.img.table.ParentDir path) {p : ℕ} {k : Fin 128}
    (hl : s.img.table.oldLeaf path = .ok (p, k)) :
    s.img.table.Live p ∧ (s.img.table.inode p).isDir = true ∧
      (s.img.table.dir p k).valid = true ∧ s.img.table.Live (s.img.table.dir p k).inode :=
  h.walks.oldLeaf_mem hdir hl

/-- The pointers in use of a live object are blocks of the disk. -/
theorem FsState.WF.ptr_lt {i k : ℕ} (hi : s.img.table.Live i)
    (hk : k < (s.img.table.inode i).nptrs) :
    k < 1019 ∧ (s.img.table.inode i).ptrAt k < 32768 := by
  have hk' : k < 1019 := lt_of_lt_of_le hk (h.img.table.nptrs_le hi)
  have hcap : s.img.nblocks ≤ 32768 := h.img.table.le_cap
  have hlt := (h.img.table.owned hi (owns_ptr.2 ⟨(val_ofNat_1019 hk').symm ▸ hk, rfl⟩)).2.1
  exact ⟨hk', lt_of_lt_of_le hlt hcap⟩

omit h

section Walks

variable {P : ℕ → Prop} (hw : s.Walks P)
include hw

/-- The state after a directory is written. -/
theorem FsState.Walks.wrote_dir {p : ℕ} (hp : P p) (hd : (s.img.table.inode p).isDir = true)
    (d : DirBlock) :
    (writeDir ((s.img.table.inode p).ptrs 0) d).run s =
        (.ok (), s.wrote [⟨s.img.dirPtr p, d.encode⟩]) ∧
      (s.wrote [⟨s.img.dirPtr p, d.encode⟩]).Mounted ∧
      (s.wrote [⟨s.img.dirPtr p, d.encode⟩]).img.block 1 = s.img.block 1 := by
  obtain ⟨h2, hlt⟩ := hw.dir_lt hp hd
  refine ⟨hw.mounted.writeDir h2 hlt d, hw.mounted.wrote (writable_singleton ?_ hlt),
    Image.put_block_of_ne (w := ⟨s.img.dirPtr p, d.encode⟩) hlt ?_⟩
  · exact lt_of_lt_of_le Nat.two_pos h2
  · exact (show 1 < s.img.dirPtr p from h2).ne

/-- Freeing the inode of an object whose entry was invalidated, and then other blocks. -/
theorem FsState.Walks.free_run {p i : ℕ} (hp : P p) (hd : (s.img.table.inode p).isDir = true)
    (d : DirBlock) (hi : P i) {bs : List ℕ} {x : FsM Unit}
    (hx : ∀ t : FsState, t.Mounted →
      x.run t = (.ok (), t.wrote (bitWrites bitClear (t.img.block 1) bs))) :
    (do
      writeDir ((s.img.table.inode p).ptrs 0) d
      freeBlock i
      x).run s =
    (.ok (), s.wrote (⟨s.img.dirPtr p, d.encode⟩ :: bitWrites bitClear (s.img.block 1) (i :: bs))) := by
  obtain ⟨hrun, hm, hmap⟩ := hw.wrote_dir hp hd d
  have hlt : i < 32768 := lt_of_lt_of_le (hw.lt hi).2 hw.mounted.le_cap
  rw [bind_ok hrun, bind_ok (hm.freeBlock hlt), hx _ (hm.wrote_one _), hm.wrote_bitWrites,
    FsState.wrote_wrote, hmap]
  rfl

/-- How `fs_rmdir` ends: it looks at the first block of a directory, and frees that. -/
theorem FsState.Walks.fsRmdir_run (hdir : s.img.table.ParentDir path) :
    (fsRmdir path.bytes).run s =
    match s.img.table.oldLeaf path with
    | .error e => (.err e, s)
    | .ok (p, k) =>
      match s.img.table.rmdirCheck (s.img.table.dir p k).inode with
      | some e => (.err e, s)
      | none => (.ok (), s.wrote (⟨s.img.dirPtr p, ((s.img.table.dir p).invalidate k).encode⟩ ::
          bitWrites bitClear (s.img.block 1)
            [(s.img.table.dir p k).inode.1, s.img.dirPtr (s.img.table.dir p k).inode])) := by
  refine (hw.oldLeaf_run path hdir fun _ parentInode dir k => do
    let x ← readInode (dir k).inode
    failIf (!x.isDir) .ENOTDIR
    let entries ← readDir (x.ptrs 0)
    failIf (entries.find (·.valid)).isSome .ENOTEMPTY
    writeDir (parentInode.ptrs 0) (dir.invalidate k)
    freeBlock (dir k).inode
    freeBlock (cint (x.ptrs 0))).trans ?_
  cases hl : s.img.table.oldLeaf path with
  | error e => rfl
  | ok pk =>
    obtain ⟨p, k⟩ := pk
    obtain ⟨hp, hd, hv, hi⟩ := hw.oldLeaf_mem hdir hl
    simp only [rmdirCheck]
    refine (bind_ok (hw.readInode_run hi)).trans ?_
    split_ifs with hx hne
    · -- A directory with a valid entry.
      refine (bind_failIf_false (by rw [hx]; rfl)).trans ((bind_ok (hw.readDir_run hi hx)).trans ?_)
      exact bind_failIf_true hne
    · refine (bind_failIf_false (by rw [hx]; rfl)).trans ((bind_ok (hw.readDir_run hi hx)).trans
        ((bind_failIf_false (by simpa using hne)).trans (hw.free_run hp hd _ hi fun t ht => ?_)))
      rw [hw.cint_ptr hi hx]
      exact ht.freeBlock (lt_of_lt_of_le (hw.dir_lt hi hx).2 hw.mounted.le_cap)
    · -- Not a directory.
      exact bind_failIf_true (by simpa using hx)

end Walks

include h

/-- `fs_unlink` ends as it should. -/
theorem fsUnlink_run (hdir : s.img.table.ParentDir path)
    (he : s.img.RemoveEnds path s.img.table.unlinkCheck r ws) :
    (fsUnlink path.bytes).run s = (r, s.wrote ws) := by
  refine (h.walks.oldLeaf_run path hdir fun _ parentInode dir k => do
    let x ← readInode (dir k).inode
    failIf x.isDir .EISDIR
    writeDir (parentInode.ptrs 0) (dir.invalidate k)
    freeBlock (dir k).inode
    let n ← nblocksOf x.size
    freePtrs x (List.range n.toNat)).trans ?_
  cases he with
  | refused hl => rw [hl, h.mounted.wrote_nil]
  | @kept p k e hl hc =>
    obtain ⟨hp, hd, hv, hi⟩ := h.oldLeaf hdir hl
    rw [unlinkCheck] at hc
    rw [hl, h.mounted.wrote_nil]
    refine (bind_ok (readInode_run h hi)).trans ?_
    split_ifs at hc with hx
    rw [← Option.some.inj hc]
    exact bind_failIf_true hx
  | @done p k hl hc =>
    obtain ⟨hp, hd, hv, hi⟩ := h.oldLeaf hdir hl
    rw [unlinkCheck] at hc
    split_ifs at hc with hx
    have hx : (s.img.table.inode (s.img.table.dir p k).inode).isDir = false := by simpa using hx
    -- What is not a directory is a file, whose size tells how many blocks are freed.
    have hsize := h.img.table.size_le hi (h.img.table.isReg hi hx)
    rw [hl]
    refine (bind_ok (readInode_run h hi)).trans ((bind_failIf_false hx).trans
      (h.walks.free_run hp hd _ hi fun t ht => ?_))
    rw [nblocksOf_eq hx hsize.1 hsize.2, bind_ok (pure_run _), Int.toNat_natCast]
    exact freePtrs_run ht (fun i hk => (h.ptr_lt hi (List.mem_range.1 hk)).1)
      fun i hk => (h.ptr_lt hi (List.mem_range.1 hk)).2

/-- `fs_rmdir` ends as it should. -/
theorem fsRmdir_run (hdir : s.img.table.ParentDir path)
    (he : s.img.RemoveEnds path s.img.table.rmdirCheck r ws) :
    (fsRmdir path.bytes).run s = (r, s.wrote ws) := by
  rw [h.walks.fsRmdir_run hdir]
  cases he with
  | refused hl => rw [hl, h.mounted.wrote_nil]
  | kept hl hc =>
    rw [hl, h.mounted.wrote_nil]
    simp only [hc]
  | @done p k hl hc =>
    have hx := isDir_of_rmdirCheck hc
    -- A directory has one block, its first.
    have hused : (s.img.table.inode (s.img.table.dir p k).inode).used =
        [s.img.dirPtr (s.img.table.dir p k).inode] := by
      rw [FsInode.used, FsInode.nptrs, if_pos hx]
      rfl
    rw [hl, hused]
    simp only [hc]

/-- `fs_rename` ends as it should. -/
theorem fsRename_run {src dst : FsPath} (hdir : s.img.table.ParentDir src)
    (he : s.img.RenameEnds src dst r ws) :
    (fsRename src.bytes dst.bytes).run s = (r, s.wrote ws) := by
  have hsrc := lookupParent_run h src
  have hdst := lookupParent_run h dst
  cases he with
  | @refused e hl =>
    rw [h.mounted.wrote_nil, fsRename]
    rw [renamed] at hl
    -- The checks are made in this order, and the first that fails ends the call.
    cases hs : s.img.table.lookupParent src with
    | error e' =>
      rw [hs] at hl hsrc
      rw [← Except.error.inj hl]
      exact bind_err hsrc
    | ok sl =>
      obtain ⟨p, srcLeaf⟩ := sl
      rw [hs] at hl hsrc
      refine (bind_ok hsrc).trans ?_
      cases hd : s.img.table.lookupParent dst with
      | error e' =>
        rw [hd] at hdst
        simp only [hd, Except.error.injEq] at hl
        rw [← hl]
        exact bind_err hdst
      | ok dl =>
        obtain ⟨q, dstLeaf⟩ := dl
        rw [hd] at hdst
        refine (bind_ok hdst).trans ?_
        simp only [hd] at hl
        have hlive := h.img.table.live_of_lookupParent hs
        split_ifs at hl with hpq hk
        · rw [← Except.error.inj hl]
          refine (bind_failIf_false (by simpa using hpq)).trans
            ((bind_ok (readInode_run h hlive)).trans
              ((bind_ok (readDir_run h hlive (hdir p _ hs))).trans ?_))
          exact bind_failIf_true hk
        · refine (bind_failIf_false (by simpa using hpq)).trans
            ((bind_ok (readInode_run h hlive)).trans
              ((bind_ok (readDir_run h hlive (hdir p _ hs))).trans
                ((bind_failIf_false (by simpa using hk)).trans ?_)))
          cases hk' : (s.img.table.dir p).find (·.named srcLeaf) with
          | none =>
            simp only [hk', Except.error.injEq] at hl
            rw [← hl]
            rfl
          | some k => simp [hk'] at hl
        · rw [← Except.error.inj hl]
          exact bind_failIf_true (by simpa using hpq)
  | @done p k leaf hl =>
    obtain ⟨hd, hnone, hold⟩ := renamed_eq_ok.1 hl
    obtain ⟨srcLeaf, hs, hk⟩ := oldLeaf_eq_ok.1 hold
    rw [hs] at hsrc
    rw [hd] at hdst
    have hlive := h.img.table.live_of_lookupParent hs
    have hpd := hdir p _ hs
    -- All checks pass.
    refine (bind_ok hsrc).trans ((bind_ok hdst).trans ((bind_failIf_false (by simp)).trans
      ((bind_ok (readInode_run h hlive)).trans ((bind_ok (readDir_run h hlive hpd)).trans
        ((bind_failIf_false (by rw [hnone]; rfl)).trans ?_)))))
    rw [hk]
    exact (h.walks.wrote_dir hlive hpd _).1

/-- `fs_chmod` and `fs_utime` end as they should. -/
theorem setInode_run {f : FsInode → FsInode} (he : s.img.SetEnds path f r ws) :
    (do
      let inum ← Cs5600.translate path.bytes
      let x ← readInode inum
      writeInode inum (f x)).run s = (r, s.wrote ws) := by
  have hrun := translate_run h path
  cases he with
  | refused hl =>
    rw [hl] at hrun
    rw [h.mounted.wrote_nil]
    exact bind_err hrun
  | done hl =>
    have hlive := h.img.table.live_of_translate hl
    obtain ⟨h2, hlt⟩ := h.img.table.lt_of_live hlive
    rw [hl] at hrun
    exact (bind_ok hrun).trans ((bind_ok (readInode_run h hlive)).trans (h.mounted.writeInode h2 hlt _))

theorem fsChmod_run (he : s.img.SetEnds path (.chmod mode) r ws) :
    (fsChmod path.bytes mode).run s = (r, s.wrote ws) := setInode_run h he

theorem fsUtime_run {modtime : Int64} (he : s.img.SetEnds path (.utime modtime) r ws) :
    (fsUtime path.bytes modtime).run s = (r, s.wrote ws) := setInode_run h he

end Runs

end Cs5600
