import Cs5600.Writes

/-!
# The image of an empty file system

An image with a root directory without entries, as `gen-disk.py` makes it: the
root's inode is in block 2, and its entries are in block 3. It is well-formed,
and the root is its only object.
-/

namespace Cs5600

open LabelledGraph Table

/-- The inode of the root directory. -/
def rootInode : FsInode where
  uid := 0
  gid := 0
  mode := 0o40777
  ctime := 0
  mtime := 0
  size := 4096
  ptrs := Function.update (fun _ => 0) 0 3

/-- The superblock of an image of `n` blocks. -/
def formatSuper (n : ℕ) : FsSuper := { magic := 0x30303635, diskSize := UInt32.ofNat n }

/-- The bitmap with the first four blocks marked. -/
def formatBitmap : Block := [0, 1, 2, 3].foldl bitSet Block.zero

/-- An image of `n` blocks with an empty root directory. -/
def Image.format (n : ℕ) : Image where
  nblocks := n
  block
    | 0 => (formatSuper n).encode
    | 1 => formatBitmap
    | 2 => rootInode.encode
    | _ => Block.zero

namespace Image

variable {n : ℕ}

theorem format_inode : (format n).table.inode 2 = rootInode := FsInode.decode_encode _

theorem isDir_rootInode : rootInode.isDir = true := by decide

theorem format_dir (k : Fin 128) : ((format n).table.dir 2 k).valid = false := by
  rw [table_dir, format_inode]
  exact valid_decode_zero k

/-- The root is the only object. -/
theorem live_format {i : ℕ} : (format n).table.Live i ↔ i = 2 := by
  refine ⟨fun h => ?_, fun h => h ▸ live_root⟩
  induction h with
  | root => rfl
  | step _ hxy ih =>
    subst ih
    rw [slots_eq_none (format_dir _)] at hxy
    cases hxy

theorem owns_format {r : Role} {b : ℕ} (h : (format n).table.Owns 2 r b) :
    (r = .inode ∧ b = 2) ∨ (r = .ptr 0 ∧ b = 3) := by
  cases r with
  | inode => exact .inl ⟨rfl, h⟩
  | ptr k =>
    rw [owns_ptr, format_inode, FsInode.nptrs, if_pos isDir_rootInode] at h
    obtain rfl : k = 0 := Fin.ext (Nat.lt_one_iff.1 h.1)
    exact .inr ⟨rfl, h.2⟩

theorem marked_format {b : ℕ} (hb : b < 4) : (format n).table.marked b = true := by
  change bitTest ([0, 1, 2, 3].foldl bitSet Block.zero) b = true
  rw [bitTest_foldl_bitSet (by decide), decide_eq_true, Bool.true_or]
  simp only [List.mem_cons, List.not_mem_nil, or_false]
  omega

/-- The image of an empty file system is well-formed. -/
theorem format_wf (h4 : 4 ≤ n) (hn : n ≤ 32768) : (format n).WF where
  diskSize := by
    change (FsSuper.decode (formatSuper n).encode).diskSize.toNat = n
    rw [FsSuper.decode_encode]
    change (UInt32.ofNat n).toNat = n
    rw [UInt32.toNat_ofNat', Nat.mod_eq_of_lt (by omega)]
  table :=
    { three_le := by
        change 3 ≤ n
        omega
      le_cap := hn
      reserved := ⟨marked_format (by omega), marked_format (by omega)⟩
      root := by rw [format_inode, isDir_rootInode]
      tree :=
        { root_ne := fun hx h => by
            rw [live_format.1 hx, slots_eq_none (format_dir _)] at h
            cases h
          unique := fun hx _ h => by
            rw [live_format.1 hx, slots_eq_none (format_dir _)] at h
            cases h }
      object := fun hi => by
        rw [live_format.1 hi, format_inode]
        exact .inl isDir_rootInode
      owned := fun hi ho => by
        rw [live_format.1 hi] at ho
        have hlt : ∀ b, b < 4 → b < (format n).table.nblocks := fun b hb => lt_of_lt_of_le hb h4
        rcases owns_format ho with ⟨_, rfl⟩ | ⟨_, rfl⟩
        · exact ⟨le_rfl, hlt 2 (by omega), marked_format (by omega)⟩
        · exact ⟨by omega, hlt 3 (by omega), marked_format (by omega)⟩
      disjoint := fun hi hj ho ho' => by
        rw [live_format.1 hi] at ho ⊢
        rw [live_format.1 hj] at ho' ⊢
        refine ⟨rfl, ?_⟩
        -- The root has two blocks, 2 for its inode and 3 for its entries.
        rcases owns_format ho with ⟨rfl, rfl⟩ | ⟨rfl, rfl⟩ <;>
          rcases owns_format ho' with ⟨rfl, he⟩ | ⟨rfl, he⟩
        · rfl
        · cases he
        · cases he
        · rfl
      names := fun hi _ hv => by
        rw [live_format.1 hi, format_dir] at hv
        cases hv
      distinct := fun hi _ hv => by
        rw [live_format.1 hi, format_dir] at hv
        cases hv }

end Image

/-- The state of a file system whose image was just loaded. -/
def FsState.mount (img : Image) : FsState where
  superblock := img.block 0
  bitmap := img.block 1
  img := img
  log := []

theorem FsState.mount_wf {img : Image} (h : img.WF) : (mount img).WF := ⟨rfl, rfl, h⟩

end Cs5600
