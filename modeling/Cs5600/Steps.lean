import Cs5600.Contents

/-!
# Well-formedness at every write

A call of an operation keeps the image well-formed, and not only at its end: the
image is well-formed after each of the blocks it writes, whichever way the call
ends (`NewEnds.along` and so on). An object is linked only once its blocks are
marked and written, and its blocks are freed only once it is unlinked.

`fs_truncate` is the exception. It frees the blocks of a file before it writes
the inode, so only the image at its end is known to be well-formed
(`TruncateEnds.wf`).
-/

namespace Cs5600

open LabelledGraph Table WriteLog

/-- The mode `fs_create` is called with: that of a regular file. -/
def RegMode (mode : UInt32) : Prop := mode &&& sIfmt = sIfreg

/-- The mode `fs_mkdir` is called with: no type bits. -/
def PlainMode (mode : UInt32) : Prop := mode &&& sIfmt = 0

namespace Table

variable {t : Table} {b : ℕ}

/-- The blocks of an object in use are those of its pointers. -/
theorem WF.mem_used (h : t.WF) {i : ℕ} (hi : t.Live i) :
    b ∈ (t.inode i).used ↔ ∃ k, t.Owns i (.ptr k) b := by
  rw [FsInode.used, List.mem_map]
  constructor
  · rintro ⟨k, hk, rfl⟩
    have hk := List.mem_range.1 hk
    have hk' := lt_of_lt_of_le hk (h.nptrs_le hi)
    exact ⟨Fin.ofNat 1019 k, owns_ptr.2 ⟨(val_ofNat_1019 hk').symm ▸ hk, rfl⟩⟩
  · rintro ⟨k, hk, rfl⟩
    have hk' : Fin.ofNat 1019 k.1 = k := Fin.ext (val_ofNat_1019 k.2)
    exact ⟨k.1, List.mem_range.2 hk, by rw [FsInode.ptrAt, hk']⟩

theorem WF.mem_blocks (h : t.WF) {i : ℕ} (hi : t.Live i) :
    b ∈ i :: (t.inode i).used ↔ ∃ r, t.Owns i r b := by
  rw [List.mem_cons, h.mem_used hi]
  constructor
  · rintro (rfl | ⟨k, ho⟩)
    · exact ⟨.inode, rfl⟩
    · exact ⟨.ptr k, ho⟩
  · rintro ⟨r, ho⟩
    cases r with
    | inode => exact .inl ho
    | ptr k => exact .inr ⟨k, ho⟩

end Table

namespace Image

variable {img : Image}

/-! ## Blocks that are not referenced -/

/-- Blocks within the image, other than the first two, that are not referenced. -/
def Unreferenced (img : Image) (b : ℕ) : Prop := 2 ≤ b ∧ b < img.nblocks ∧ ¬img.table.Referenced b

/-- Blocks that are not referenced may be written. -/
theorem along_of_unreferenced (h : img.WF) {ws : List Write}
    (hw : ∀ w ∈ ws, img.Unreferenced w.lba) : Along put WF img ws := by
  induction ws generalizing img with
  | nil => exact h
  | cons w ws ih =>
    obtain ⟨h2, hlt, hnr⟩ := hw w List.mem_cons_self
    refine ⟨h, ih (h.put_of_not_referenced hlt h2 hnr) fun v hv => ?_⟩
    obtain ⟨h2', hlt', hnr'⟩ := hw v (List.mem_cons_of_mem _ hv)
    refine ⟨h2', (put_nblocks hlt).symm ▸ hlt', fun hr => hnr' ?_⟩
    exact (agree_put_of_not_referenced hlt hnr).referenced.1 hr

/-- Free blocks are not referenced. -/
theorem WF.unreferenced_of_mem_free (h : img.WF) {b : ℕ} (hb : b ∈ img.free) :
    img.Unreferenced b :=
  ⟨(lt_of_mem_free hb).1, (lt_of_mem_free hb).2,
    h.table.not_referenced_of_not_marked (mem_freeBlocks.1 hb).2.2⟩

theorem WF.free_lt (h : img.WF) {b : ℕ} (hb : b ∈ img.free) : b < 32768 :=
  have hcap : img.nblocks ≤ 32768 := h.table.le_cap
  lt_of_lt_of_le (lt_of_mem_free hb).2 hcap

theorem writable_dir (h : img.WF) {p : ℕ} (hp : img.table.Live p)
    (hd : (img.table.inode p).isDir = true) (b : Block) :
    Writable img.nblocks [⟨img.dirPtr p, b⟩] := by
  obtain ⟨h2, hlt⟩ := h.table.dir_lt hp hd
  exact writable_singleton (lt_of_lt_of_le Nat.two_pos h2) hlt

theorem writable_inode (h : img.WF) {i : ℕ} (hi : img.table.Live i) (b : Block) :
    Writable img.nblocks [⟨i, b⟩] := by
  obtain ⟨h2, hlt⟩ := h.table.lt_of_live hi
  exact writable_singleton (lt_of_lt_of_le Nat.two_pos h2) hlt

/-- A write of another block keeps the size of the image and the bitmap. -/
theorem block_one_put {w : Write} (h2 : 2 ≤ w.lba) (hlt : w.lba < img.nblocks) :
    (img.put w).nblocks = img.nblocks ∧ (img.put w).block 1 = img.block 1 :=
  ⟨put_nblocks hlt, put_block_of_ne hlt (show 1 < w.lba from h2).ne⟩

theorem block_one_putDir (h : img.WF) {p : ℕ} (hp : img.table.Live p)
    (hd : (img.table.inode p).isDir = true) (b : Block) :
    (img.put ⟨img.dirPtr p, b⟩).nblocks = img.nblocks ∧
      (img.put ⟨img.dirPtr p, b⟩).block 1 = img.block 1 :=
  block_one_put (w := ⟨img.dirPtr p, b⟩) (h.table.dir_lt hp hd).1 (h.table.dir_lt hp hd).2

theorem block_one_putInode (h : img.WF) {i : ℕ} (hi : img.table.Live i) (x : FsInode) :
    (img.put ⟨i, x.encode⟩).nblocks = img.nblocks ∧
      (img.put ⟨i, x.encode⟩).block 1 = img.block 1 :=
  block_one_put (w := ⟨i, x.encode⟩) (h.table.lt_of_live hi).1 (h.table.lt_of_live hi).2

/-! ## New objects -/

section Fresh

variable (h : img.WF) {bs : List ℕ} {ws : List Write} (hbs : bs <+: img.free)
  (hw : ∀ w ∈ ws, w.lba ∈ bs)
include h hbs hw

/-- Free blocks may be marked and then written. -/
theorem along_fresh : Along put WF img (bitWrites bitSet (img.block 1) bs ++ ws) := by
  have hmarks := along_marks h fun b (hb : b ∈ bs) => h.free_lt (hbs.subset hb)
  refine hmarks.append (along_of_unreferenced hmarks.last fun w hmem => ?_)
  obtain ⟨h2, hlt, hnr⟩ := h.unreferenced_of_mem_free (hbs.subset (hw w hmem))
  refine ⟨h2, (nblocks_puts_bitWrites h.one_lt).symm ▸ hlt, fun hr => hnr ?_⟩
  exact (agree_bitWrites h _ _).referenced.1 hr

theorem lba_fresh {w : Write} (hmem : w ∈ bitWrites bitSet (img.block 1) bs ++ ws) :
    w.lba < img.nblocks ∧ ∀ b, img.table.Referenced b → w.lba ≠ b := by
  rcases List.mem_append.1 hmem with hmem | hmem
  · rw [mem_bitWrites hmem]
    exact ⟨h.one_lt, fun b hb he => by have := h.two_le_of_referenced hb; omega⟩
  · obtain ⟨_, hlt, hnr⟩ := h.unreferenced_of_mem_free (hbs.subset (hw w hmem))
    exact ⟨hlt, fun b hb he => hnr (he ▸ hb)⟩

theorem nblocks_fresh :
    (img.puts (bitWrites bitSet (img.block 1) bs ++ ws)).nblocks = img.nblocks :=
  puts_nblocks fun _ hmem => (lba_fresh h hbs hw hmem).1

theorem block_fresh {b : ℕ} (hb : img.table.Referenced b) :
    (img.puts (bitWrites bitSet (img.block 1) bs ++ ws)).block b = img.block b :=
  puts_block_of_notMem (fun _ hmem => (lba_fresh h hbs hw hmem).1)
    fun _ hmem => (lba_fresh h hbs hw hmem).2 b hb

theorem agree_fresh :
    img.table.Agree (img.puts (bitWrites bitSet (img.block 1) bs ++ ws)).table :=
  agree_of_blocks (nblocks_fresh h hbs hw) fun _ hb => block_fresh h hbs hw hb

theorem bitmap_fresh : (img.puts (bitWrites bitSet (img.block 1) bs ++ ws)).block 1 =
    bs.foldl bitSet (img.block 1) := by
  rw [puts_append, puts_block_of_notMem (fun w hmem => ?_) fun w hmem => ?_,
    bitmap_puts_bitWrites h.one_lt]
  · rw [nblocks_puts_bitWrites h.one_lt]
    exact (lt_of_mem_free (hbs.subset (hw w hmem))).2
  · have := (lt_of_mem_free (hbs.subset (hw w hmem))).1
    omega

/-- The blocks are then marked, but not referenced. -/
theorem marked_fresh {b : ℕ} (hb : b ∈ bs) :
    2 ≤ b ∧ b < (img.puts (bitWrites bitSet (img.block 1) bs ++ ws)).nblocks ∧
      (img.puts (bitWrites bitSet (img.block 1) bs ++ ws)).table.marked b = true ∧
      ¬(img.puts (bitWrites bitSet (img.block 1) bs ++ ws)).table.Referenced b := by
  obtain ⟨h2, hlt, hnr⟩ := h.unreferenced_of_mem_free (hbs.subset hb)
  refine ⟨h2, (nblocks_fresh h hbs hw).symm ▸ hlt, ?_,
    fun hr => hnr ((agree_fresh h hbs hw).referenced.1 hr)⟩
  change bitTest ((img.puts (bitWrites bitSet (img.block 1) bs ++ ws)).block 1) b = true
  rw [bitmap_fresh h hbs hw, bitTest_foldl_bitSet fun c hc => h.free_lt (hbs.subset hc),
    decide_eq_true hb, Bool.true_or]

end Fresh

section New

variable {path : FsPath} {need : ℕ} {init : List ℕ → List Write}

/-- What `init` writes to free blocks is a new object in them. -/
structure Makes (img : Image) (need : ℕ) (init : List ℕ → List Write) : Prop where
  lba : ∀ bs, ∀ w ∈ init bs, w.lba ∈ bs
  owns : ∀ {bs b}, bs.length = need → bs <+: img.free →
    ((∃ r, (img.puts (bitWrites bitSet (img.block 1) bs ++ init bs)).table.Owns (bs.headD 0) r b) ↔
      b ∈ bs)
  object : ∀ {bs}, bs.length = need → bs <+: img.free →
    NewObject (img.puts (bitWrites bitSet (img.block 1) bs ++ init bs)).table (bs.headD 0)

/-- The new object may be linked. -/
theorem Makes.canLink (h : img.WF) (c : img.Makes need init) {p : ℕ} {leaf : List UInt8}
    {bs : List ℕ} {k : Fin 128} (hl : img.table.newLeaf path = .ok (p, leaf))
    (hlen : bs.length = need) (hbs : bs <+: img.free)
    (hk : (img.table.dir p).find (!·.valid) = some k) (hn : bs.headD 0 < 2 ^ 31) :
    CanLink (img.puts (bitWrites bitSet (img.block 1) bs ++ init bs)).table p k
      (Fin.ofNat (2 ^ 31) (bs.headD 0)) leaf := by
  obtain ⟨hp, hd, hnone⟩ := newLeaf_eq_ok.1 hl
  have hlive := h.table.live_of_lookupParent hp
  have ha := agree_fresh h hbs (c.lba _)
  have hdir := ha.dir hlive hd
  refine
    { live := ha.live.2 hlive
      isDir := by rw [ha.inode hlive]; exact hd
      free := by rw [hdir]; simpa using DirBlock.of_find_eq_some hk
      absent := fun j hv he => ?_
      name := goodName_of_lookupParent hp
      object := ?_ }
  · rw [hdir] at hv he
    have hj := DirBlock.find_eq_none.1 hnone j
    rw [FsDirent.named_iff.2 ⟨hv, he⟩] at hj
    cases hj
  · rw [Fin.val_ofNat, Nat.mod_eq_of_lt hn]
    exact c.object hlen hbs

theorem WF.headD_lt (h : img.WF) {bs : List ℕ} (hbs : bs <+: img.free) : bs.headD 0 < 2 ^ 31 := by
  cases bs with
  | nil => exact Nat.two_pow_pos 31
  | cons b bs =>
    exact lt_of_lt_of_le (h.free_lt (hbs.subset List.mem_cons_self)) (by decide)

/-- The blocks of a new object are written without any effect on the others, and the last write
    links it. -/
theorem Makes.agree_done (h : img.WF) (c : img.Makes need init) {p : ℕ} {leaf : List UInt8}
    {bs : List ℕ} {k : Fin 128} (hl : img.table.newLeaf path = .ok (p, leaf))
    (hlen : bs.length = need) (hbs : bs <+: img.free)
    (hk : (img.table.dir p).find (!·.valid) = some k) :
    img.table.Agree (img.puts (bitWrites bitSet (img.block 1) bs ++ init bs)).table ∧
      CanLink (img.puts (bitWrites bitSet (img.block 1) bs ++ init bs)).table p k
        (Fin.ofNat (2 ^ 31) (bs.headD 0)) leaf ∧
      ((img.puts (bitWrites bitSet (img.block 1) bs ++ init bs)).table.link p k
        (Fin.ofNat (2 ^ 31) (bs.headD 0)) leaf).Agree
        (img.puts (bitWrites bitSet (img.block 1) bs ++ init bs ++ [⟨img.dirPtr p,
          ((img.table.dir p).add k (Fin.ofNat _ (bs.headD 0)) leaf).encode⟩])).table := by
  obtain ⟨hp, hd, _⟩ := newLeaf_eq_ok.1 hl
  have hlive := h.table.live_of_lookupParent hp
  have ha := agree_fresh h hbs (c.lba bs)
  have hlink := c.canLink h hl hlen hbs hk (h.headD_lt hbs)
  have hwf : (img.puts (bitWrites bitSet (img.block 1) bs ++ init bs)).WF :=
    (along_fresh h hbs (c.lba bs)).last
  have hput := agree_putLink hwf hlink (b := img.dirPtr p) (by rw [ha.inode hlive]; rfl)
  rw [ha.dir hlive hd] at hput
  refine ⟨ha, hlink, ?_⟩
  rwa [puts_append img (_ ++ _) [_], puts_cons, puts_nil]

/-- The image is well-formed at every write of `fs_create` and `fs_mkdir`. -/
theorem NewEnds.along (h : img.WF) (c : img.Makes need init) {r : Res Unit} {ws : List Write}
    (he : img.NewEnds path need init r ws) : Along put WF img ws := by
  cases he with
  | refused => exact h
  | noBlocks => exact along_marks h fun b hb => h.free_lt hb
  | noEntry _ _ hbs _ => exact along_fresh h hbs (c.lba _)
  | @done p leaf bs k hl hlen hbs hk =>
    have halong := along_fresh h hbs (c.lba bs)
    have hwf : (img.puts (bitWrites bitSet (img.block 1) bs ++ init bs)).WF := halong.last
    obtain ⟨hp, hd, _⟩ := newLeaf_eq_ok.1 hl
    have hlive := h.table.live_of_lookupParent hp
    have ha := agree_fresh h hbs (c.lba bs)
    have hlink := hwf.putLink (c.canLink h hl hlen hbs hk (h.headD_lt hbs))
      (b := img.dirPtr p) (by rw [ha.inode hlive]; rfl)
    rw [ha.dir hlive hd] at hlink
    exact halong.concat hlink

theorem NewEnds.writable (h : img.WF) (c : img.Makes need init) {r : Res Unit} {ws : List Write}
    (he : img.NewEnds path need init r ws) : Writable img.nblocks ws := by
  have hinit : ∀ {bs}, bs <+: img.free →
      Writable img.nblocks (bitWrites bitSet (img.block 1) bs ++ init bs) := by
    intro bs hbs
    refine (writable_bitWrites h.table.three_le).append fun w hw => ?_
    obtain ⟨h2, hlt⟩ := lt_of_mem_free (hbs.subset (c.lba _ w hw))
    exact ⟨by omega, hlt⟩
  cases he with
  | refused => exact writable_nil
  | noBlocks => exact writable_bitWrites h.table.three_le
  | noEntry _ _ hbs _ => exact hinit hbs
  | done hl _ hbs _ =>
    obtain ⟨hp, hd, _⟩ := newLeaf_eq_ok.1 hl
    exact (hinit hbs).append (writable_dir h (h.table.live_of_lookupParent hp) hd _)

variable {env : Env} {mode : UInt32}

/-- The inode in the block that is written last. -/
theorem inode_puts_concat {ws : List Write} {i : ℕ} {x : FsInode} (hi : i < (img.puts ws).nblocks) :
    (img.puts (ws ++ [⟨i, x.encode⟩])).table.inode i = x := by
  rw [table_inode, puts_append, puts_cons, puts_nil, put_block_self (w := ⟨i, x.encode⟩) hi,
    FsInode.decode_encode]

theorem lba_newFile (env : Env) (mode : UInt32) (bs : List ℕ) :
    ∀ w ∈ newFile env mode bs, w.lba ∈ bs := by
  intro w hw
  cases bs with
  | nil => cases hw
  | cons n bs =>
    rw [List.mem_singleton.1 hw]
    exact List.mem_cons_self

theorem inode_newFile (env : Env) (mode : UInt32) (h : img.WF) {n : ℕ} (hbs : [n] <+: img.free) :
    (img.puts (bitWrites bitSet (img.block 1) [n] ++ newFile env mode [n])).table.inode n =
      newInode env mode 0 fun _ => 0 := by
  refine inode_puts_concat ?_
  rw [nblocks_puts_bitWrites h.one_lt]
  exact (lt_of_mem_free (hbs.subset List.mem_cons_self)).2

theorem isDir_newFileInode (env : Env) (hmode : RegMode mode) :
    (newInode env mode 0 fun _ => 0).isDir = false :=
  FsInode.isDir_of_isReg ((FsInode.isReg_iff _).2 hmode)

/-- The only block of a new file is that of its inode. -/
theorem owns_newFile (env : Env) (h : img.WF) (hmode : RegMode mode) {n : ℕ}
    (hbs : [n] <+: img.free) {r : Role} {b : ℕ} :
    (img.puts (bitWrites bitSet (img.block 1) [n] ++ newFile env mode [n])).table.Owns n r b ↔
      r = .inode ∧ b = n := by
  have hinode := inode_newFile env mode h hbs
  have hd := isDir_newFileInode env hmode
  have hn : (newInode env mode 0 fun _ => 0).nptrs = 0 := by
    rw [FsInode.nptrs_of_file hd, show (newInode env mode 0 fun _ => 0).size.toInt = 0 from rfl]
    rfl
  cases r with
  | inode => exact (and_iff_right rfl).symm
  | ptr k =>
    rw [owns_ptr, hinode, hn]
    exact iff_of_false (fun ho => absurd ho.1 (Nat.not_lt_zero _)) fun he => nomatch he.1

theorem makes_newFile (h : img.WF) (hmode : RegMode mode) : img.Makes 1 (newFile env mode) where
  lba := lba_newFile env mode
  owns {bs b} hlen hbs := by
    obtain ⟨n, rfl⟩ := List.length_eq_one_iff.1 hlen
    rw [List.headD_cons, List.mem_singleton]
    simp only [owns_newFile env h hmode hbs, exists_eq_left]
  object {bs} hlen hbs := by
    obtain ⟨n, rfl⟩ := List.length_eq_one_iff.1 hlen
    have hinode := inode_newFile env mode h hbs
    have hreg : (newInode env mode 0 fun _ => 0).isReg = true :=
      (FsInode.isReg_iff _).2 hmode
    have hd := isDir_newFileInode env hmode
    have hown : ∀ {r b}, (img.puts (bitWrites bitSet (img.block 1) [n] ++
        newFile env mode [n])).table.Owns n r b → r = .inode ∧ b = n :=
      (owns_newFile env h hmode hbs).1
    refine ⟨?_, ?_, fun ho => ?_, fun ho ho' => (hown ho).1.trans (hown ho').1.symm⟩
    · rw [List.headD_cons, hinode]
      exact .inr ⟨hreg, le_rfl, show (0 : ℤ) ≤ 1019 * 4096 by omega⟩
    · intro hd'
      rw [List.headD_cons, hinode, hd] at hd'
      cases hd'
    · rw [(hown ho).2]
      exact marked_fresh h hbs (lba_newFile env mode _) List.mem_cons_self

theorem lba_newDir (env : Env) (mode : UInt32) (bs : List ℕ) : ∀ w ∈ newDir env mode bs, w.lba ∈ bs := by
  intro w hw
  match bs, hw with
  | n :: b :: bs, hw =>
    rcases List.mem_cons.1 hw with rfl | hw
    · exact List.mem_cons_of_mem _ List.mem_cons_self
    · rw [List.mem_singleton.1 hw]
      exact List.mem_cons_self

/-- A directory block of zeros has no valid entries. -/
theorem valid_decode_zero (k : Fin 128) : (DirBlock.decode Block.zero k).valid = false := by
  have hzero : ∀ i, Block.zero.byte i = 0 := fun i => by
    rw [Block.byte]
    split_ifs <;> rfl
  have hle : ∀ n off, Block.zero.le off n = 0 := by
    intro n
    induction n with
    | zero => exact fun _ => rfl
    | succ n ih =>
      intro off
      rw [Block.le, ih, hzero]
      rfl
  simp only [DirBlock.decode, hle]
  rfl

theorem valid_add_decode_zero {k l : Fin 128} {inum : Fin (2 ^ 31)} {leaf : List UInt8} :
    ((DirBlock.decode Block.zero).add k inum leaf l).valid = true ↔ l = k := by
  rw [DirBlock.add]
  by_cases hl : l = k
  · subst hl
    rw [Function.update_self]
    exact iff_of_true rfl rfl
  · rw [Function.update_of_ne hl, valid_decode_zero]
    exact iff_of_false Bool.false_ne_true hl

theorem isDir_newDirInode (env : Env) (hmode : PlainMode mode) (b : ℕ) :
    (newDirInode env mode b).isDir = true := by
  rw [FsInode.isDir_iff]
  have hmode' : mode &&& sIfmt = 0 := hmode
  change (sIfdir ||| mode) &&& sIfmt = sIfdir
  rw [FsInode.or_and_sIfmt, hmode']
  rfl

theorem newDir_writes {n b : ℕ} : bitWrites bitSet (img.block 1) [n, b] ++ newDir env mode [n, b] =
    bitWrites bitSet (img.block 1) [n, b] ++ [⟨b, Block.zero⟩] ++
      [⟨n, (newDirInode env mode b).encode⟩] := by
  rw [List.append_assoc]
  rfl

theorem inode_newDir (env : Env) (mode : UInt32) (h : img.WF) {n b : ℕ} (hbs : [n, b] <+: img.free) :
    (img.puts (bitWrites bitSet (img.block 1) [n, b] ++ newDir env mode [n, b])).table.inode n =
      newDirInode env mode b := by
  rw [newDir_writes]
  refine inode_puts_concat ?_
  rw [nblocks_fresh h hbs (by simp)]
  exact (lt_of_mem_free (hbs.subset List.mem_cons_self)).2

theorem ptrs_newDirInode {b : ℕ} (hb : b < 32768) :
    ((newDirInode env mode b).ptrs 0).toNat = b := by
  change (UInt32.ofNat b).toNat = b
  rw [UInt32.toNat_ofNat', Nat.mod_eq_of_lt (by omega)]

/-- A new directory has the block of its inode and the one of its entries. -/
theorem owns_newDir (env : Env) (h : img.WF) (hmode : PlainMode mode) {n b : ℕ}
    (hbs : [n, b] <+: img.free) {r : Role} {c : ℕ} :
    (img.puts (bitWrites bitSet (img.block 1) [n, b] ++ newDir env mode [n, b])).table.Owns n r c ↔
      (r = .inode ∧ c = n) ∨ (r = .ptr 0 ∧ c = b) := by
  have hblt := h.free_lt (hbs.subset (List.mem_cons_of_mem _ List.mem_cons_self))
  have hinode := inode_newDir env mode h hbs
  have hd := isDir_newDirInode env hmode b
  cases r with
  | inode => exact ⟨fun ho => .inl ⟨rfl, ho⟩, fun he => he.elim (·.2) fun he => nomatch he.1⟩
  | ptr k =>
    rw [owns_ptr, hinode, FsInode.nptrs, if_pos hd]
    constructor
    · rintro ⟨hk, rfl⟩
      obtain rfl : k = 0 := Fin.ext (Nat.lt_one_iff.1 hk)
      exact .inr ⟨rfl, ptrs_newDirInode hblt⟩
    · rintro (⟨he, _⟩ | ⟨he, rfl⟩)
      · cases he
      · rw [Role.ptr.inj he, ptrs_newDirInode hblt]
        exact ⟨Nat.zero_lt_one, rfl⟩

theorem makes_newDir (h : img.WF) (hmode : PlainMode mode) : img.Makes 2 (newDir env mode) where
  lba := lba_newDir env mode
  owns {bs c} hlen hbs := by
    obtain ⟨n, b, rfl⟩ := List.length_eq_two.1 hlen
    rw [List.headD_cons, List.mem_pair]
    simp only [owns_newDir env h hmode hbs, exists_or, exists_eq_left]
  object {bs} hlen hbs := by
    obtain ⟨n, b, rfl⟩ := List.length_eq_two.1 hlen
    -- The two blocks are different ones, as a free block is found only once.
    have hnb : n ≠ b := by
      have hnd := (List.Sublist.nodup hbs.sublist freeBlocks_nodup)
      exact fun he => (List.nodup_cons.1 hnd).1 (he ▸ List.mem_cons_self)
    have hblt := h.free_lt (hbs.subset (List.mem_cons_of_mem _ List.mem_cons_self))
    have hm₁ := marked_fresh h hbs (lba_newDir env mode _) List.mem_cons_self
    have hm₂ := marked_fresh h hbs (lba_newDir env mode _)
      (List.mem_cons_of_mem _ List.mem_cons_self)
    have hinode := inode_newDir env mode h hbs
    have hown := fun {r : Role} {c : ℕ} => (owns_newDir env h hmode hbs (r := r) (c := c)).1
    rw [newDir_writes] at hm₁ hm₂ hinode hown ⊢
    have hzero : ∀ w ∈ [(⟨b, Block.zero⟩ : Write)], w.lba ∈ [n, b] := by simp
    generalize himg : img.puts (bitWrites bitSet (img.block 1) [n, b] ++ [⟨b, Block.zero⟩] ++
      [⟨n, (newDirInode env mode b).encode⟩]) = img' at hm₁ hm₂ hinode hown ⊢
    have hd := isDir_newDirInode env hmode b
    -- The block of the entries is written before the inode, which is in another block.
    have hdir : img'.block b = Block.zero := by
      have hn : n < (img.puts (bitWrites bitSet (img.block 1) [n, b] ++ [⟨b, Block.zero⟩])).nblocks := by
        rw [nblocks_fresh h hbs hzero]
        exact (lt_of_mem_free (hbs.subset List.mem_cons_self)).2
      have hb : b < (img.puts (bitWrites bitSet (img.block 1) [n, b])).nblocks := by
        rw [nblocks_puts_bitWrites h.one_lt]
        exact (lt_of_mem_free (hbs.subset (List.mem_cons_of_mem _ List.mem_cons_self))).2
      rw [← himg, puts_append, puts_cons, puts_nil,
        put_block_of_ne (w := ⟨n, (newDirInode env mode b).encode⟩) hn hnb.symm, puts_append,
        puts_cons, puts_nil, put_block_self (w := ⟨b, Block.zero⟩) hb]
    refine ⟨.inl (hinode ▸ hd), fun _ j => ?_, fun ho => ?_, fun ho ho' => ?_⟩
    · rw [List.headD_cons, table_dir, hinode, ptrs_newDirInode hblt, hdir]
      exact valid_decode_zero j
    · rcases hown ho with ⟨_, rfl⟩ | ⟨_, rfl⟩
      · exact hm₁
      · exact hm₂
    · rcases hown ho with ⟨rfl, rfl⟩ | ⟨rfl, rfl⟩ <;> rcases hown ho' with ⟨rfl, he⟩ | ⟨rfl, he⟩
      · rfl
      · exact absurd he hnb
      · exact absurd he.symm hnb
      · rfl

end New

/-! ## Removing and renaming -/

section Remove

variable {path : FsPath} (h : img.WF) {p : ℕ} {k : Fin 128}
include h

/-- The entry of a path may be invalidated if it does not name a directory with entries. -/
theorem canUnlink (hdir : img.table.ParentDir path) (hl : img.table.oldLeaf path = .ok (p, k))
    (hleaf : (img.table.inode (img.table.dir p k).inode).isDir = true →
      ∀ j, (img.table.dir (img.table.dir p k).inode j).valid = false) :
    CanUnlink img.table p k := by
  obtain ⟨leaf, hp, hk⟩ := oldLeaf_eq_ok.1 hl
  exact
    { live := h.table.live_of_lookupParent hp
      isDir := hdir p leaf hp
      valid := (FsDirent.named_iff.1 (DirBlock.of_find_eq_some hk)).1
      leaf := hleaf }

/-- The blocks of a removed object are no longer referenced. -/
theorem not_referenced_unlink (c : CanUnlink img.table p k) {b : ℕ}
    (hb : b ∈ (img.table.dir p k).inode.1 :: (img.table.inode (img.table.dir p k).inode).used) :
    ¬(img.table.unlink p k).Referenced b := by
  rintro ⟨j, r, hj, ho⟩
  obtain ⟨hj, hne⟩ := (c.live_unlink h.table).1 hj
  have hi := c.live.child c.isDir c.valid
  obtain ⟨r', ho'⟩ := (h.table.mem_blocks hi).1 hb
  exact hne (h.table.disjoint hj hi (owns_setDir.1 ho) ho').1

/-- The entry of a path may be renamed. -/
theorem canRename {src dst : FsPath} {leaf : List UInt8} (hdir : img.table.ParentDir src)
    (hl : img.table.renamed src dst = .ok (p, k, leaf)) : CanRename img.table p k leaf := by
  obtain ⟨hp, hnone, hold⟩ := renamed_eq_ok.1 hl
  obtain ⟨srcLeaf, hs, hk⟩ := oldLeaf_eq_ok.1 hold
  refine
    { live := h.table.live_of_lookupParent hp
      isDir := hdir p srcLeaf hs
      valid := (FsDirent.named_iff.1 (DirBlock.of_find_eq_some hk)).1
      absent := fun j hv he => ?_
      name := goodName_of_lookupParent hp }
  have hj := DirBlock.find_eq_none.1 hnone j
  rw [FsDirent.named_iff.2 ⟨hv, he⟩] at hj
  cases hj

variable {check : ℕ → Option Errno} {r : Res Unit} {ws : List Write}

/-- The image is well-formed at every write of `fs_unlink` and `fs_rmdir`. -/
theorem RemoveEnds.along (hdir : img.table.ParentDir path)
    (hcheck : ∀ i, check i = none → (img.table.inode i).isDir = true →
      ∀ j, (img.table.dir i j).valid = false)
    (he : img.RemoveEnds path check r ws) : Along put WF img ws := by
  cases he with
  | refused => exact h
  | kept => exact h
  | @done p k hl hc =>
    have c := canUnlink h hdir hl (hcheck _ hc)
    have hput := h.putUnlink c rfl
    have ha := agree_putUnlink h c rfl
    have hmap := (block_one_putDir h c.live c.isDir ((img.table.dir p).invalidate k).encode).2
    have hcap : img.nblocks ≤ 32768 := h.table.le_cap
    refine ⟨h, ?_⟩
    rw [← hmap]
    refine along_unmarks hput fun b hb => ?_
    obtain ⟨r, ho⟩ := (h.table.mem_blocks (c.live.child c.isDir c.valid)).1 hb
    obtain ⟨h2, hblt, _⟩ := h.table.owned (c.live.child c.isDir c.valid) ho
    have hblt : b < img.nblocks := hblt
    exact ⟨h2, by omega, fun hr => not_referenced_unlink h c hb (ha.referenced.1 hr)⟩

theorem RemoveEnds.writable (hdir : img.table.ParentDir path)
    (he : img.RemoveEnds path check r ws) : Writable img.nblocks ws := by
  cases he with
  | refused => exact writable_nil
  | kept => exact writable_nil
  | @done p k hl _ =>
    obtain ⟨leaf, hp, _⟩ := oldLeaf_eq_ok.1 hl
    have hbits : Writable img.nblocks (bitWrites bitClear (img.block 1)
        ((img.table.dir p k).inode.1 :: (img.table.inode (img.table.dir p k).inode).used)) :=
      writable_bitWrites h.table.three_le
    exact (writable_dir h (h.table.live_of_lookupParent hp) (hdir _ _ hp) _).append hbits

/-- The image is well-formed before and after `fs_rename`. -/
theorem RenameEnds.along {src dst : FsPath} (hdir : img.table.ParentDir src)
    (he : img.RenameEnds src dst r ws) : Along put WF img ws := by
  cases he with
  | refused => exact h
  | @done p k leaf hl => exact ⟨h, h.putRename (canRename h hdir hl) rfl⟩

theorem RenameEnds.writable {src dst : FsPath} (hdir : img.table.ParentDir src)
    (he : img.RenameEnds src dst r ws) : Writable img.nblocks ws := by
  cases he with
  | refused => exact writable_nil
  | done hl =>
    have c := canRename h hdir hl
    exact writable_dir h c.live c.isDir _

end Remove

/-! ## Changing files -/

section Files

/-- `fs_chmod` keeps the type of an object. -/
theorem chmod_keeps (mode : UInt32) (x : FsInode) :
    (x.chmod mode).mode &&& sIfmt = x.mode &&& sIfmt ∧ (x.chmod mode).size = x.size ∧
      (x.chmod mode).ptrs = x.ptrs := by
  refine ⟨?_, rfl, rfl⟩
  rw [FsInode.chmod, FsInode.or_and_sIfmt, UInt32.and_assoc, UInt32.and_self, UInt32.and_assoc,
    show ~~~sIfmt &&& sIfmt = 0 from rfl, UInt32.and_zero, UInt32.or_zero]

theorem nptrs_truncated (env : Env) {x : FsInode} (hd : x.isDir = false) :
    (x.truncated env).nptrs = 0 := by
  have hd' : (x.truncated env).isDir = false := hd
  rw [FsInode.nptrs_of_file hd', show (x.truncated env).size.toInt = 0 from rfl]
  rfl

theorem utime_keeps (modtime : Int64) (x : FsInode) :
    (x.utime modtime).mode &&& sIfmt = x.mode &&& sIfmt ∧ (x.utime modtime).size = x.size ∧
      (x.utime modtime).ptrs = x.ptrs := ⟨rfl, rfl, rfl⟩

variable {env : Env} {path : FsPath} (h : img.WF) {i : ℕ} {ws : List Write}
include h

/-- An inode may be replaced by one of the same kind and size with the same pointers. -/
theorem canSetInode {x : FsInode} (hi : img.table.Live i)
    (htype : x.mode &&& sIfmt = (img.table.inode i).mode &&& sIfmt)
    (hsize : x.size = (img.table.inode i).size) (hptrs : x.ptrs = (img.table.inode i).ptrs) :
    CanSetInode img.table i x := by
  have hkind : x.isDir = (img.table.inode i).isDir := by rw [FsInode.isDir, FsInode.isDir, htype]
  have hreg : x.isReg = (img.table.inode i).isReg := by rw [FsInode.isReg, FsInode.isReg, htype]
  have hn : x.nptrs = (img.table.inode i).nptrs := by rw [FsInode.nptrs, FsInode.nptrs, hkind, hsize]
  refine
    { live := hi
      kind := hkind
      good := by
        rw [GoodInode, hkind, hreg, hsize]
        exact h.table.object hi
      ptr := fun hk => .inl (owns_ptr.2 ⟨hn ▸ hk, by rw [hptrs]⟩)
      inj := fun {k l} hk hl he => ?_ }
  rw [hptrs] at he
  have hok : img.table.Owns i (.ptr k) ((img.table.inode i).ptrs k).toNat := ⟨hn ▸ hk, rfl⟩
  have hol : img.table.Owns i (.ptr l) ((img.table.inode i).ptrs k).toNat := ⟨hn ▸ hl, he⟩
  exact Role.ptr.inj (h.table.disjoint hi hi hok hol).2

/-- The image is well-formed before and after an inode is changed otherwise. -/
theorem SetEnds.along {f : FsInode → FsInode} {r : Res Unit}
    (hf : ∀ x, (f x).mode &&& sIfmt = x.mode &&& sIfmt ∧ (f x).size = x.size ∧ (f x).ptrs = x.ptrs)
    (he : img.SetEnds path f r ws) : Along put WF img ws := by
  cases he with
  | refused => exact h
  | @done i hl =>
    obtain ⟨htype, hsize, hptrs⟩ := hf (img.table.inode i)
    exact ⟨h, h.putInode (canSetInode h (h.table.live_of_translate hl) htype hsize hptrs)
      fun _ => by rw [hptrs]⟩

theorem SetEnds.writable {f : FsInode → FsInode} {r : Res Unit} (he : img.SetEnds path f r ws) :
    Writable img.nblocks ws := by
  cases he with
  | refused => exact writable_nil
  | done hl => exact writable_inode h (h.table.live_of_translate hl) _

/-- A file may be truncated. -/
theorem canTruncate (env : Env) (hi : img.table.regular path = .ok i) :
    CanSetInode img.table i ((img.table.inode i).truncated env) := by
  obtain ⟨hlive, hd, _⟩ := h.table.of_regular hi
  have hn := nptrs_truncated env hd
  exact
    { live := hlive
      kind := rfl
      good := .inr ⟨h.table.isReg hlive hd, le_rfl, show (0 : ℤ) ≤ 1019 * 4096 by omega⟩
      ptr := fun hk => absurd (hn ▸ hk) (Nat.not_lt_zero _)
      inj := fun hk => absurd (hn ▸ hk) (Nat.not_lt_zero _) }

theorem ptrs_truncated (env : Env) (hi : img.table.regular path = .ok i)
    (hdt : ((img.table.inode i).truncated env).isDir = true) :
    ((img.table.inode i).truncated env).ptrs 0 = (img.table.inode i).ptrs 0 :=
  absurd ((h.table.of_regular hi).2.1.symm.trans hdt) Bool.false_ne_true

/-- At its end, the image is as if `fs_truncate` wrote the inode first. -/
theorem puts_truncate (env : Env) (hi : img.table.regular path = .ok i) :
    img.puts (bitWrites bitClear (img.block 1) (img.table.inode i).used ++
        [⟨i, ((img.table.inode i).truncated env).encode⟩]) =
      (img.put ⟨i, ((img.table.inode i).truncated env).encode⟩).puts (bitWrites bitClear
        ((img.put ⟨i, ((img.table.inode i).truncated env).encode⟩).block 1)
        (img.table.inode i).used) := by
  have hlive := (h.table.of_regular hi).1
  obtain ⟨h2, hlt⟩ := h.table.lt_of_live hlive
  rw [(block_one_putInode h hlive _).2, puts_append, puts_cons, puts_nil,
    puts_put_comm (w := ⟨i, _⟩) (fun v hv => ?_) hlt]
  rw [mem_bitWrites hv]
  exact ⟨h.one_lt, (show 1 < i from h2).ne⟩

/-- The blocks freed by `fs_truncate` are not referenced once the inode is written. -/
theorem not_referenced_truncate (hi : img.table.regular path = .ok i) {b : ℕ}
    (hb : b ∈ (img.table.inode i).used) :
    ¬(img.table.setInode i ((img.table.inode i).truncated env)).Referenced b := by
  obtain ⟨hlive, hd, _⟩ := h.table.of_regular hi
  have c := canTruncate h env hi
  rintro ⟨j, r, hj, ho⟩
  replace hj := (live_setInode c.kind).1 hj
  obtain ⟨k, hok⟩ := (h.table.mem_used hlive).1 hb
  by_cases hji : j = i
  · subst hji
    cases r with
    | inode => exact Role.noConfusion (h.table.disjoint hj hj (owns_inode.2 ho) hok).2
    | ptr l =>
      rw [owns_ptr, setInode_self, nptrs_truncated env hd] at ho
      exact Nat.not_lt_zero _ ho.1
  · exact hji (h.table.disjoint hj hlive ((owns_setInode_of_ne hji).1 ho) hok).1

/-- The image is well-formed after `fs_truncate`. -/
theorem TruncateEnds.wf {len : ℤ} {r : Res Unit} (he : img.TruncateEnds env path len r ws) :
    (img.puts ws).WF := by
  cases he with
  | refused => exact h
  | @done i hl =>
    obtain ⟨_, hi⟩ := truncatable_eq_ok.1 hl
    obtain ⟨hlive, _, _⟩ := h.table.of_regular hi
    have c := canTruncate h env hi
    have hptr := ptrs_truncated h env hi
    have hcap : img.nblocks ≤ 32768 := h.table.le_cap
    rw [puts_truncate h env hi]
    refine (along_unmarks (h.putInode c hptr) fun b hb => ?_).last
    obtain ⟨k, ho⟩ := (h.table.mem_used hlive).1 hb
    obtain ⟨hb2, hblt, _⟩ := h.table.owned hlive ho
    have hblt : b < img.nblocks := hblt
    exact ⟨hb2, by omega, fun hr =>
      not_referenced_truncate h hi hb ((agree_putInode h c hptr).referenced.1 hr)⟩

theorem TruncateEnds.writable {len : ℤ} {r : Res Unit} (he : img.TruncateEnds env path len r ws) :
    Writable img.nblocks ws := by
  cases he with
  | refused => exact writable_nil
  | done hl =>
    exact (writable_bitWrites h.table.three_le).append
      (writable_inode h (h.table.of_regular (truncatable_eq_ok.1 hl).2).1 _)

end Files

end Image

end Cs5600
