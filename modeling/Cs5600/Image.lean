import Cs5600.Objects

/-!
# Well-formed images

An image is well-formed (`Image.WF`) if its superblock gives its size, and the
table of objects read from its blocks is well-formed. Every block written by an
operation changes the table in one of the elementary ways:

* `agree_put`: the live objects stay the same if neither the inode of one nor
  the entries of a live directory are written, as for bitmaps, for blocks that
  are not referenced and for the contents of files;
* `agree_putInode` and `agree_putDir`: writing an inode or a directory block is
  what `Table.setInode` and `Table.setDir` do.
-/

namespace Cs5600

open LabelledGraph Table

namespace Image

/-- The objects in the blocks of an image. -/
def table (img : Image) : Table where
  nblocks := img.nblocks
  marked := bitTest (img.block 1)
  inode i := .decode (img.block i)
  dir i := .decode (img.block ((FsInode.decode (img.block i)).ptrs 0).toNat)

/-- The superblock gives the size of the image, and its objects are well-formed. -/
structure WF (img : Image) : Prop where
  diskSize : (FsSuper.decode (img.block 0)).diskSize.toNat = img.nblocks
  table : img.table.WF

variable {img : Image} {w : Write}

theorem table_marked (b : ℕ) : img.table.marked b = bitTest (img.block 1) b := rfl

theorem table_inode (i : ℕ) : img.table.inode i = .decode (img.block i) := rfl

theorem table_dir (i : ℕ) :
    img.table.dir i = .decode (img.block ((img.table.inode i).ptrs 0).toNat) := rfl

theorem table_marked_put (hlt : w.lba < img.nblocks) (h1 : w.lba ≠ 1) :
    (img.put w).table.marked = img.table.marked := by
  change bitTest ((img.put w).block 1) = bitTest (img.block 1)
  rw [put_block_of_ne hlt h1.symm]

theorem table_marked_putBitmap (hlt : 1 < img.nblocks) (map : Block) :
    (img.put ⟨1, map⟩).table.marked = bitTest map := by
  change bitTest ((img.put ⟨1, map⟩).block 1) = bitTest map
  rw [put_block_self (w := ⟨1, map⟩) hlt]

theorem table_inode_put (hlt : w.lba < img.nblocks) {i : ℕ} (hi : i ≠ w.lba) :
    (img.put w).table.inode i = img.table.inode i := by
  rw [table_inode, table_inode, put_block_of_ne hlt hi]

theorem table_dir_put (hlt : w.lba < img.nblocks) {i : ℕ} (hi : i ≠ w.lba)
    (hp : ((img.table.inode i).ptrs 0).toNat ≠ w.lba) :
    (img.put w).table.dir i = img.table.dir i := by
  rw [table_dir, table_dir, table_inode_put hlt hi, put_block_of_ne hlt hp]

/-- Writing a block that holds no live inode and no entries of a live directory. -/
theorem agree_put (hlt : w.lba < img.nblocks) (hb : ∀ i, img.table.Live i → i ≠ w.lba ∧
    ((img.table.inode i).isDir = true → ((img.table.inode i).ptrs 0).toNat ≠ w.lba)) :
    img.table.Agree (img.put w).table where
  nblocks := put_nblocks hlt
  inode hi := table_inode_put hlt (hb _ hi).1
  dir hi hd := table_dir_put hlt (hb _ hi).1 ((hb _ hi).2 hd)

/-- Images of one size that have the same referenced blocks. -/
theorem agree_of_blocks {img' : Image} (hn : img'.nblocks = img.nblocks)
    (hb : ∀ b, img.table.Referenced b → img'.block b = img.block b) :
    img.table.Agree img'.table where
  nblocks := hn
  inode hi := congrArg FsInode.decode (hb _ hi.referenced)
  dir {i} hi hd := by
    rw [table_dir, table_dir, table_inode, hb i hi.referenced, ← table_inode,
      hb _ ⟨_, _, hi, owns_dir hd⟩]

theorem put_block_of_not_referenced (hlt : w.lba < img.nblocks)
    (hw : ¬img.table.Referenced w.lba) {b : ℕ} (hb : img.table.Referenced b) :
    (img.put w).block b = img.block b :=
  put_block_of_ne hlt fun h => hw (h ▸ hb)

theorem agree_put_of_not_referenced (hlt : w.lba < img.nblocks)
    (hw : ¬img.table.Referenced w.lba) : img.table.Agree (img.put w).table :=
  agree_of_blocks (put_nblocks hlt) fun _ hb => put_block_of_not_referenced hlt hw hb

/-- Writing a block of a regular file. -/
theorem agree_put_of_owns (h : img.WF) {p : ℕ} {k : Fin 1019} (hp : img.table.Live p)
    (hd : (img.table.inode p).isDir = false) (ho : img.table.Owns p (.ptr k) w.lba) :
    img.table.Agree (img.put w).table := by
  refine agree_put (h.table.owned hp ho).2.1 fun i hi => ⟨fun he => ?_, fun hdi he => ?_⟩
  · exact Role.noConfusion (h.table.disjoint hi hp (owns_inode.2 he.symm) ho).2
  · obtain ⟨rfl, _⟩ := h.table.disjoint hi hp (he ▸ owns_dir hdi) ho
    rw [hd] at hdi
    cases hdi

/-- Writing an inode. -/
theorem agree_putInode (h : img.WF) {p : ℕ} {x : FsInode} (c : CanSetInode img.table p x)
    (hptr : x.isDir = true → x.ptrs 0 = (img.table.inode p).ptrs 0) :
    (img.table.setInode p x).Agree (img.put ⟨p, x.encode⟩).table := by
  have hlt := (h.table.lt_of_live c.live).2
  have hself : (img.put ⟨p, x.encode⟩).table.inode p = x := by
    rw [table_inode, put_block_self (w := ⟨p, x.encode⟩) hlt, FsInode.decode_encode]
  -- The block of an inode holds no directory entries.
  have hdir : ∀ i, img.table.Live i → (img.table.inode i).isDir = true →
      ((img.table.inode i).ptrs 0).toNat ≠ p := fun i hi hd he =>
    Role.noConfusion (h.table.disjoint hi c.live (he ▸ owns_dir hd) (owns_inode.2 rfl)).2
  refine ⟨put_nblocks (w := ⟨p, x.encode⟩) hlt, fun {i} hi => ?_, fun {i} hi hd => ?_⟩
  · by_cases hip : i = p
    · rw [hip, hself, setInode_self]
    · rw [setInode_of_ne hip, table_inode_put hlt hip]
  · replace hi := (live_setInode c.kind).1 hi
    by_cases hip : i = p
    · subst hip
      rw [setInode_self] at hd
      have hne := hdir i hi (c.kind ▸ hd)
      rw [← hptr hd] at hne
      rw [table_dir, hself, put_block_of_ne hlt hne, hptr hd]
      rfl
    · rw [setInode_of_ne hip] at hd
      exact table_dir_put hlt hip (hdir i hi hd)

/-- Writing the entries of a directory. -/
theorem agree_putDir (h : img.WF) {p b : ℕ} {d : DirBlock} (hp : img.table.Live p)
    (hd : (img.table.inode p).isDir = true) (hb : b = ((img.table.inode p).ptrs 0).toNat)
    (hother : ∀ i, (img.table.setDir p d).Live i → ¬img.table.Live i →
      ∀ r, ¬img.table.Owns i r b) :
    (img.table.setDir p d).Agree (img.put ⟨b, d.encode⟩).table := by
  have hown : img.table.Owns p (.ptr 0) b := hb ▸ owns_dir hd
  have hlt := (h.table.owned hp hown).2.1
  have hne : ∀ i, (img.table.setDir p d).Live i → i ≠ b := by
    intro i hi he
    by_cases hl : img.table.Live i
    · exact Role.noConfusion (h.table.disjoint hl hp (owns_inode.2 he.symm) hown).2
    · exact hother i hi hl .inode he.symm
  refine ⟨put_nblocks (w := ⟨b, d.encode⟩) hlt, fun hi => table_inode_put hlt (hne _ hi),
    fun {i} hi hdi => ?_⟩
  by_cases hip : i = p
  · subst hip
    rw [table_dir, table_inode_put hlt (hne _ hi), ← hb, put_block_self (w := ⟨b, d.encode⟩) hlt,
      DirBlock.decode_encode, setDir_self]
  · rw [setDir_of_ne hip]
    refine table_dir_put hlt (hne _ hi) fun he => ?_
    replace he : ((img.table.inode i).ptrs 0).toNat = b := he
    have hown' : img.table.Owns i (.ptr 0) b := he ▸ owns_dir hdi
    by_cases hl : img.table.Live i
    · exact hip (h.table.disjoint hl hp hown' hown).1
    · exact hother i hi hl _ hown'

/-! ## Well-formedness after a write -/

theorem diskSize_put (h : img.WF) (hlt : w.lba < img.nblocks) (h0 : w.lba ≠ 0) :
    (FsSuper.decode ((img.put w).block 0)).diskSize.toNat = (img.put w).nblocks := by
  rw [put_nblocks hlt, put_block_of_ne hlt h0.symm]
  exact h.diskSize

/-- Writing anything that keeps the live objects of a well-formed table, and the marks. -/
theorem WF.of_agree (h : img.WF) {t : Table} (ht : t.WF) (hm : t.marked = img.table.marked)
    (ha : t.Agree (img.put w).table) (hlt : w.lba < img.nblocks) (h1 : 1 < w.lba) :
    (img.put w).WF := by
  refine ⟨diskSize_put h hlt (by omega), ht.congr ha ?_ fun b hb => ?_⟩
  · rw [table_marked_put hlt h1.ne', ← hm]
    exact ht.reserved
  · obtain ⟨_, _, hi, ho⟩ := hb
    rw [table_marked_put hlt h1.ne', ← hm]
    exact (ht.owned hi ho).2.2

theorem WF.putBitmap (h : img.WF) {map : Block} (hres : bitTest map 0 = true ∧ bitTest map 1 = true)
    (hmark : ∀ b, img.table.Referenced b → bitTest map b = true) : (img.put ⟨1, map⟩).WF := by
  have hlt : 1 < img.nblocks := lt_of_lt_of_le (by decide) h.table.three_le
  have hnr : ¬img.table.Referenced 1 := fun ⟨_, _, hi, ho⟩ => by
    have := (h.table.owned hi ho).1
    omega
  refine ⟨diskSize_put h hlt Nat.one_ne_zero,
    h.table.congr (agree_put_of_not_referenced hlt hnr) ?_ ?_⟩
  · rwa [table_marked_putBitmap hlt]
  · rwa [table_marked_putBitmap hlt]

theorem WF.put_of_not_referenced (h : img.WF) (hlt : w.lba < img.nblocks) (h1 : 1 < w.lba)
    (hb : ¬img.table.Referenced w.lba) : (img.put w).WF :=
  h.of_agree h.table rfl (agree_put_of_not_referenced hlt hb) hlt h1

theorem WF.put_of_owns (h : img.WF) {p : ℕ} {k : Fin 1019} (hp : img.table.Live p)
    (hd : (img.table.inode p).isDir = false) (ho : img.table.Owns p (.ptr k) w.lba) :
    (img.put w).WF :=
  h.of_agree h.table rfl (agree_put_of_owns h hp hd ho) (h.table.owned hp ho).2.1
    (h.table.owned hp ho).1

theorem WF.putInode (h : img.WF) {p : ℕ} {x : FsInode} (c : CanSetInode img.table p x)
    (hptr : x.isDir = true → x.ptrs 0 = (img.table.inode p).ptrs 0) :
    (img.put ⟨p, x.encode⟩).WF :=
  h.of_agree (h.table.setInode c) rfl (agree_putInode h c hptr) (h.table.lt_of_live c.live).2
    (h.table.lt_of_live c.live).1

section Dir

variable {p b : ℕ} {k : Fin 128} {name : List UInt8}

theorem agree_putLink (h : img.WF) {n : Fin (2 ^ 31)} (c : CanLink img.table p k n name)
    (hb : b = ((img.table.inode p).ptrs 0).toNat) :
    (img.table.link p k n name).Agree
      (img.put ⟨b, ((img.table.dir p).add k n name).encode⟩).table := by
  refine agree_putDir h c.live c.isDir hb fun i hi hl r ho => ?_
  obtain rfl := (c.live_link.1 hi).resolve_left hl
  exact (c.object.owned ho).2.2.2 ⟨p, _, c.live, hb ▸ owns_dir c.isDir⟩

theorem WF.putLink (h : img.WF) {n : Fin (2 ^ 31)} (c : CanLink img.table p k n name)
    (hb : b = ((img.table.inode p).ptrs 0).toNat) :
    (img.put ⟨b, ((img.table.dir p).add k n name).encode⟩).WF :=
  h.of_agree (h.table.link c) rfl (agree_putLink h c hb) (hb ▸ (h.table.dir_lt c.live c.isDir).2)
    (hb ▸ (h.table.dir_lt c.live c.isDir).1)

theorem agree_putUnlink (h : img.WF) (c : CanUnlink img.table p k)
    (hb : b = ((img.table.inode p).ptrs 0).toNat) :
    (img.table.unlink p k).Agree
      (img.put ⟨b, ((img.table.dir p).invalidate k).encode⟩).table :=
  agree_putDir h c.live c.isDir hb fun _ hi hl => absurd ((c.live_unlink h.table).1 hi).1 hl

theorem WF.putUnlink (h : img.WF) (c : CanUnlink img.table p k)
    (hb : b = ((img.table.inode p).ptrs 0).toNat) :
    (img.put ⟨b, ((img.table.dir p).invalidate k).encode⟩).WF :=
  h.of_agree (h.table.unlink c) rfl (agree_putUnlink h c hb) (hb ▸ (h.table.dir_lt c.live c.isDir).2)
    (hb ▸ (h.table.dir_lt c.live c.isDir).1)

theorem agree_putRename (h : img.WF) (c : CanRename img.table p k name)
    (hb : b = ((img.table.inode p).ptrs 0).toNat) :
    (img.table.rename p k name).Agree
      (img.put ⟨b, ((img.table.dir p).rename k name).encode⟩).table :=
  agree_putDir h c.live c.isDir hb fun _ hi hl => absurd ((live_rename c.isDir).1 hi) hl

theorem WF.putRename (h : img.WF) (c : CanRename img.table p k name)
    (hb : b = ((img.table.inode p).ptrs 0).toNat) :
    (img.put ⟨b, ((img.table.dir p).rename k name).encode⟩).WF :=
  h.of_agree (h.table.rename c) rfl (agree_putRename h c hb) (hb ▸ (h.table.dir_lt c.live c.isDir).2)
    (hb ▸ (h.table.dir_lt c.live c.isDir).1)

end Dir

end Image

end Cs5600
