import Cs5600.FileBytes

/-!
# What can be seen of an image

The calls of a user depend on some of the bytes of an image only: the superblock
and the bitmap, the blocks of inodes and of directory entries, and the bytes of
files below their sizes. Such bytes are *visible* (`Table.Visible`). Others are
those of free blocks, and those past the end of a file in its last block; they
may stem from files that were removed.

*Twins* are images of the same size with the same visible bytes (`Image.Twins`).
They have the same objects, so paths lead to the same ones in either
(`Agree.regular` and so on), and the same free blocks. A call ends in both in
the same way, and writes the same blocks to both, except that `fs_write` keeps
the bytes around those it writes. The images stay twins: what becomes visible is
written (`Twins.ends`).
-/

namespace Cs5600

open LabelledGraph Table FsM

/-! ## Visible bytes -/

/-- Whether the byte `j` of a block has a meaning for an inode that uses the block so: it may be
    past the end of a file. -/
def FsInode.Holds (x : FsInode) (j : ℕ) : Role → Prop
  | .inode => True
  | .ptr k => x.isDir = true ∨ k.1 * 4096 + j < x.size.toInt.toNat

namespace Table

variable {t t' : Table} {b j : ℕ}

/-- The byte `j` of the block `b` can be seen. -/
def Visible (t : Table) (b j : ℕ) : Prop :=
  b < 2 ∨ ∃ i r, t.Live i ∧ t.Owns i r b ∧ (t.inode i).Holds j r

theorem Live.visible {i : ℕ} (hi : t.Live i) : t.Visible i j := .inr ⟨i, .inode, hi, rfl, trivial⟩

theorem Live.visible_dir {i : ℕ} (hi : t.Live i) (hd : (t.inode i).isDir = true) :
    t.Visible ((t.inode i).ptrs 0).toNat j :=
  .inr ⟨i, .ptr 0, hi, owns_dir hd, .inl hd⟩

theorem Agree.visible (ha : t.Agree t') : t'.Visible b j ↔ t.Visible b j := by
  refine or_congr_right ⟨?_, ?_⟩
  · rintro ⟨i, r, hi, ho, hx⟩
    have hi := ha.live.1 hi
    exact ⟨i, r, hi, (ha.owns hi).1 ho, ha.inode hi ▸ hx⟩
  · rintro ⟨i, r, hi, ho, hx⟩
    exact ⟨i, r, ha.live.2 hi, (ha.owns hi).2 ho, (ha.inode hi).symm ▸ hx⟩

/-- Linking an object shows its blocks. -/
theorem CanLink.visible_link {p : ℕ} {k : Fin 128} {n : Fin (2 ^ 31)} {name : List UInt8}
    (c : CanLink t p k n name) (hv : (t.link p k n name).Visible b j) :
    t.Visible b j ∨ ∃ r, t.Owns n r b := by
  rcases hv with hb | ⟨i, r, hi, ho, hx⟩
  · exact .inl (.inl hb)
  · rcases c.live_link.1 hi with hi | rfl
    · exact .inl (.inr ⟨i, r, hi, owns_setDir.1 ho, hx⟩)
    · exact .inr ⟨r, owns_setDir.1 ho⟩

theorem CanUnlink.visible_unlink {p : ℕ} {k : Fin 128} (c : CanUnlink t p k) (h : t.WF)
    (hv : (t.unlink p k).Visible b j) : t.Visible b j :=
  hv.imp_right fun ⟨i, r, hi, ho, hx⟩ => ⟨i, r, ((c.live_unlink h).1 hi).1, owns_setDir.1 ho, hx⟩

theorem CanRename.visible_rename {p : ℕ} {k : Fin 128} {name : List UInt8}
    (c : CanRename t p k name) (hv : (t.rename p k name).Visible b j) : t.Visible b j :=
  hv.imp_right fun ⟨i, r, hi, ho, hx⟩ => ⟨i, r, (live_rename c.isDir).1 hi, owns_setDir.1 ho, hx⟩

/-- Changing an inode may show blocks it points to. -/
theorem CanSetInode.visible_setInode {p : ℕ} {x : FsInode} (c : CanSetInode t p x)
    (hv : (t.setInode p x).Visible b j) :
    t.Visible b j ∨ ∃ k, (t.setInode p x).Owns p (.ptr k) b ∧ x.Holds j (.ptr k) := by
  rcases hv with hb | ⟨i, r, hi, ho, hx⟩
  · exact .inl (.inl hb)
  · replace hi := (live_setInode c.kind).1 hi
    by_cases hip : i = p
    · subst hip
      rw [setInode_self] at hx
      cases r with
      | inode => exact .inl (.inr ⟨i, .inode, hi, ho, trivial⟩)
      | ptr k => exact .inr ⟨k, ho, hx⟩
    · rw [setInode_of_ne hip] at hx
      exact .inl (.inr ⟨i, r, hi, (owns_setInode_of_ne hip).1 ho, hx⟩)

/-! ## Paths in tables that agree -/

section Paths

theorem Agree.translate (ha : t.Agree t') (path : FsPath) : t'.translate path = t.translate path :=
  ha.resolve live_root _

theorem Agree.lookupParent (ha : t.Agree t') (path : FsPath) :
    t'.lookupParent path = t.lookupParent path := by
  rw [Table.lookupParent, Table.lookupParent]
  split
  · rfl
  · rw [ha.resolve live_root]

variable (h : t.WF) (ha : t.Agree t') (path : FsPath)
include h ha

theorem Agree.newLeaf : t'.newLeaf path = t.newLeaf path := by
  rw [Table.newLeaf, Table.newLeaf, ha.lookupParent]
  cases hp : t.lookupParent path with
  | error e => rfl
  | ok pl =>
    have hlive := h.live_of_lookupParent hp
    simp only [ha.inode hlive]
    by_cases hd : (t.inode pl.1).isDir = true
    · simp only [if_pos hd, ha.dir hlive hd]
    · rw [if_neg hd, if_neg hd]

theorem Agree.parentDir : t'.ParentDir path ↔ t.ParentDir path := by
  rw [ParentDir, ParentDir, ha.lookupParent]
  exact forall_congr' fun p => forall_congr' fun leaf => forall_congr' fun hp => by
    rw [ha.inode (h.live_of_lookupParent hp)]

theorem Agree.oldLeaf (hdir : t.ParentDir path) : t'.oldLeaf path = t.oldLeaf path := by
  rw [Table.oldLeaf, Table.oldLeaf, ha.lookupParent]
  cases hp : t.lookupParent path with
  | error e => rfl
  | ok pl => simp only [ha.dir (h.live_of_lookupParent hp) (hdir _ _ hp)]

theorem Agree.renamed (dst : FsPath) (hdir : t.ParentDir path) :
    t'.renamed path dst = t.renamed path dst := by
  rw [Table.renamed, Table.renamed, ha.lookupParent, ha.lookupParent]
  cases hp : t.lookupParent path with
  | error e => rfl
  | ok pl => simp only [ha.dir (h.live_of_lookupParent hp) (hdir _ _ hp)]

theorem Agree.regular : t'.regular path = t.regular path := by
  rw [Table.regular, Table.regular, ha.translate]
  cases hi : t.translate path with
  | error e => rfl
  | ok i => simp only [ha.inode (h.live_of_translate hi)]

theorem Agree.truncatable (len : ℤ) : t'.truncatable path len = t.truncatable path len := by
  rw [Table.truncatable, Table.truncatable, ha.regular h]

theorem Agree.writable (o : ℕ) : t'.writable path o = t.writable path o := by
  rw [Table.writable, Table.writable, ha.regular h]
  cases hi : t.regular path with
  | error e => rfl
  | ok i => simp only [ha.inode (h.of_regular hi).1]

end Paths

end Table

/-! ## Twins -/

namespace Image

/-- Images of one size with the same visible bytes. -/
structure Twins (img img' : Image) : Prop where
  nblocks : img'.nblocks = img.nblocks
  byte : ∀ {b j}, img.table.Visible b j → (img'.block b).byte j = (img.block b).byte j

variable {img img' : Image}

section Twins

variable (ht : img.Twins img')
include ht

theorem Twins.block {b : ℕ} (hb : ∀ j, img.table.Visible b j) : img'.block b = img.block b := by
  funext j
  have hj := ht.byte (hb j)
  rwa [Block.byte_of_lt _ j.2, Block.byte_of_lt _ j.2] at hj

theorem Twins.bitmap : img'.block 1 = img.block 1 := ht.block fun _ => .inl Nat.one_lt_two

theorem Twins.free : img'.free = img.free := by
  rw [Image.free, Image.free, ht.nblocks, ht.bitmap]

/-- Twins have the same objects. -/
theorem Twins.agree : img.table.Agree img'.table where
  nblocks := ht.nblocks
  inode hi := congrArg FsInode.decode (ht.block fun _ => hi.visible)
  dir {i} hi hd := by
    rw [table_dir, table_dir, table_inode, ht.block fun _ => hi.visible, ← table_inode,
      ht.block fun _ => hi.visible_dir hd]

theorem Twins.dirPtr {p : ℕ} (hp : img.table.Live p) : img'.dirPtr p = img.dirPtr p := by
  rw [Image.dirPtr, Image.dirPtr, ht.agree.inode hp]

/-- Twins have the same bytes in files. -/
theorem Twins.fileByte (h : img.WF) {i o : ℕ} (hi : img.table.Live i)
    (hd : (img.table.inode i).isDir = false) (ho : o < (img.table.inode i).size.toInt.toNat) :
    img'.fileByte (img.table.inode i) o = img.fileByte (img.table.inode i) o := by
  have hle := (h.table.size_le hi (h.table.isReg hi hd)).2
  refine ht.byte (.inr ⟨i, .ptr _, hi, owns_of_lt hd hle ho, .inr ?_⟩)
  rw [Fin.val_ofNat, Nat.mod_eq_of_lt (by omega)]
  omega

end Twins

/-- A block is the same in two images once it is written in both. -/
theorem puts_block_of_mem {ws : List Write} (hw : ∀ w ∈ ws, w.lba < img.nblocks)
    (hn : img'.nblocks = img.nblocks) {b : ℕ} (hb : ∃ w ∈ ws, w.lba = b) :
    (img'.puts ws).block b = (img.puts ws).block b := by
  induction ws generalizing img img' with
  | nil =>
    obtain ⟨w, hw, _⟩ := hb
    cases hw
  | cons w ws ih =>
    have hlt := hw w List.mem_cons_self
    have hlt' : w.lba < img'.nblocks := hn ▸ hlt
    have hput := put_nblocks hlt
    have hput' := put_nblocks hlt'
    have hws : ∀ v ∈ ws, v.lba < (img.put w).nblocks := fun v hv =>
      hput.symm ▸ hw v (List.mem_cons_of_mem _ hv)
    have hn' : (img'.put w).nblocks = (img.put w).nblocks := by rw [hput', hn, hput]
    rw [puts_cons, puts_cons]
    by_cases hmem : ∃ v ∈ ws, v.lba = b
    · exact ih hws hn' hmem
    · have hne : ∀ v ∈ ws, v.lba ≠ b := fun v hv he => hmem ⟨v, hv, he⟩
      obtain ⟨v, hv, rfl⟩ := hb
      rcases List.mem_cons.1 hv with rfl | hv
      · rw [puts_block_of_notMem hws hne, puts_block_of_notMem (fun v hv => hn' ▸ hws v hv) hne,
          put_block_self hlt, put_block_self hlt']
      · exact absurd rfl (hne v hv)

/-- Twins stay twins if the same blocks are written to them, which are all that becomes visible. -/
theorem Twins.puts (ht : img.Twins img') {ws : List Write} (hw : Writable img.nblocks ws)
    (hv : ∀ {b j}, (img.puts ws).table.Visible b j →
      img.table.Visible b j ∨ ∃ w ∈ ws, w.lba = b) : (img.puts ws).Twins (img'.puts ws) := by
  have hlt : ∀ w ∈ ws, w.lba < img.nblocks := fun w hmem => (hw w hmem).2
  have hlt' : ∀ w ∈ ws, w.lba < img'.nblocks := fun w hmem => ht.nblocks.symm ▸ hlt w hmem
  refine ⟨by rw [puts_nblocks hlt, puts_nblocks hlt', ht.nblocks], fun {b j} hb => ?_⟩
  by_cases hmem : ∃ w ∈ ws, w.lba = b
  · rw [puts_block_of_mem hlt ht.nblocks hmem]
  · have hne : ∀ w ∈ ws, w.lba ≠ b := fun w hw he => hmem ⟨w, hw, he⟩
    rw [puts_block_of_notMem hlt hne, puts_block_of_notMem hlt' hne]
    exact ht.byte ((hv hb).resolve_right hmem)

end Image

end Cs5600
