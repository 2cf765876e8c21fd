import Cs5600.Tree

/-!
# Allocating and freeing blocks

`allocate_block` and `free_block` write the bitmap, with one bit set or
cleared. Several calls in a row write a sequence of bitmaps (`bitWrites`), after
which the bits of all those blocks are set or cleared. As long as the blocks
are not referenced, the image stays well-formed after each of these writes
(`along_marks`, `along_unmarks`), with the same tree.

The blocks are allocated in the order of their numbers (`freeBlocks`).
-/

namespace Cs5600

open LabelledGraph Table WriteLog FsM

/-- The free blocks of a disk of `n` blocks, from 2 on. -/
def freeBlocks (n : ℕ) (map : Block) : List ℕ :=
  (List.range' 2 (n - 2)).filter fun b => !bitTest map b

/-- The bitmaps written when `f` sets or clears the bits of blocks, one by one. -/
def bitWrites (f : Block → ℕ → Block) (map : Block) : List ℕ → List Write
  | [] => []
  | b :: bs => ⟨1, f map b⟩ :: bitWrites f (f map b) bs

variable {n b : ℕ} {map : Block}

theorem mem_freeBlocks : b ∈ freeBlocks n map ↔ 2 ≤ b ∧ b < n ∧ bitTest map b = false := by
  have hrange : (2 ≤ b ∧ b < 2 + (n - 2)) ↔ (2 ≤ b ∧ b < n) := by omega
  rw [freeBlocks, List.mem_filter, List.mem_range'_1, Bool.not_eq_true', hrange, and_assoc]

theorem freeBlocks_nodup : (freeBlocks n map).Nodup :=
  List.Nodup.filter _ List.nodup_range'

theorem bitTest_foldl_bitSet {bs : List ℕ} (hbs : ∀ b ∈ bs, b < 32768) {j : ℕ} :
    bitTest (bs.foldl bitSet map) j = (decide (j ∈ bs) || bitTest map j) := by
  induction bs generalizing map with
  | nil => rfl
  | cons b bs ih =>
    rw [List.foldl_cons, ih fun c hc => hbs c (List.mem_cons_of_mem _ hc),
      bitTest_bitSet (hbs b List.mem_cons_self), ← Bool.or_assoc]
    congr 1
    rw [← Bool.decide_or, decide_eq_decide, List.mem_cons, or_comm, eq_comm]

theorem bitTest_foldl_bitClear {bs : List ℕ} (hbs : ∀ b ∈ bs, b < 32768) {j : ℕ} :
    bitTest (bs.foldl bitClear map) j = (!decide (j ∈ bs) && bitTest map j) := by
  induction bs generalizing map with
  | nil => rfl
  | cons b bs ih =>
    rw [List.foldl_cons, ih fun c hc => hbs c (List.mem_cons_of_mem _ hc),
      bitTest_bitClear (hbs b List.mem_cons_self), ← Bool.and_assoc, ← Bool.not_or]
    congr 2
    rw [← Bool.decide_or, decide_eq_decide, List.mem_cons, or_comm, eq_comm]

/-- Marking the first free block leaves the other ones free. -/
theorem freeBlocks_bitSet {bs : List ℕ} (hn : n ≤ 32768) (h : freeBlocks n map = b :: bs) :
    freeBlocks n (bitSet map b) = bs := by
  have hb : b ∈ freeBlocks n map := h ▸ List.mem_cons_self
  have hlt := mem_freeBlocks.1 hb
  have hnotMem : b ∉ bs := (List.nodup_cons.1 (h ▸ freeBlocks_nodup)).1
  have hsplit : freeBlocks n (bitSet map b) = (freeBlocks n map).filter fun c => !decide (b = c) := by
    rw [freeBlocks, freeBlocks, List.filter_filter]
    refine List.filter_congr fun c _ => ?_
    rw [bitTest_bitSet (by omega), Bool.not_or]
  rw [hsplit, h, List.filter_cons_of_neg (by simp), List.filter_eq_self]
  intro c hc
  simpa using fun h : b = c => hnotMem (h ▸ hc)

theorem mem_bitWrites {f : Block → ℕ → Block} {bs : List ℕ} {w : Write}
    (hw : w ∈ bitWrites f map bs) : w.lba = 1 := by
  induction bs generalizing map with
  | nil => cases hw
  | cons b bs ih =>
    rcases List.mem_cons.1 hw with rfl | hw
    · rfl
    · exact ih hw

theorem writable_bitWrites {f : Block → ℕ → Block} {bs : List ℕ} (hn : 3 ≤ n) :
    Writable n (bitWrites f map bs) := fun w hw => by
  rw [mem_bitWrites hw]
  omega

/-! ## Images -/

namespace Image

variable {img : Image} {f : Block → ℕ → Block} {bs : List ℕ}

theorem puts_bitWrites (h1 : 1 < img.nblocks) :
    img.puts (bitWrites f (img.block 1) bs) =
      { img with block := Function.update img.block 1 (bs.foldl f (img.block 1)) } := by
  induction bs generalizing img with
  | nil => simp [bitWrites]
  | cons b bs ih =>
    have hself : (img.put ⟨1, f (img.block 1) b⟩).block 1 = f (img.block 1) b :=
      put_block_self (w := ⟨1, f (img.block 1) b⟩) h1
    have hput := @ih (img.put ⟨1, f (img.block 1) b⟩) (by rwa [put_nblocks h1])
    rw [hself] at hput
    rw [bitWrites, puts_cons, hput, List.foldl_cons, put_block h1, Function.update_idem, put,
      if_pos h1]

theorem bitmap_puts_bitWrites (h1 : 1 < img.nblocks) :
    (img.puts (bitWrites f (img.block 1) bs)).block 1 = bs.foldl f (img.block 1) := by
  rw [puts_bitWrites h1]
  exact Function.update_self 1 _ img.block

theorem block_puts_bitWrites (h1 : 1 < img.nblocks) {b : ℕ} (hb : b ≠ 1) :
    (img.puts (bitWrites f (img.block 1) bs)).block b = img.block b := by
  rw [puts_bitWrites h1]
  exact Function.update_of_ne hb _ img.block

theorem nblocks_puts_bitWrites (h1 : 1 < img.nblocks) :
    (img.puts (bitWrites f (img.block 1) bs)).nblocks = img.nblocks := by
  rw [puts_bitWrites h1]

theorem WF.one_lt (h : img.WF) : 1 < img.nblocks := lt_of_lt_of_le (by decide) h.table.three_le

theorem WF.two_le_of_referenced (h : img.WF) {b : ℕ} (hb : img.table.Referenced b) : 2 ≤ b :=
  let ⟨_, _, hi, ho⟩ := hb
  (h.table.owned hi ho).1

theorem WF.block_puts_bitWrites (h : img.WF) {b : ℕ} (hb : img.table.Referenced b) :
    (img.puts (bitWrites f (img.block 1) bs)).block b = img.block b :=
  Image.block_puts_bitWrites h.one_lt (by have := h.two_le_of_referenced hb; omega)

theorem agree_bitWrites (h : img.WF) (f : Block → ℕ → Block) (bs : List ℕ) :
    img.table.Agree (img.puts (bitWrites f (img.block 1) bs)).table :=
  agree_of_blocks (nblocks_puts_bitWrites h.one_lt) fun _ hb => h.block_puts_bitWrites hb

theorem tree_bitWrites (h : img.WF) : (img.puts (bitWrites f (img.block 1) bs)).tree = img.tree :=
  tree_of_blocks h (nblocks_puts_bitWrites h.one_lt) fun _ hb => h.block_puts_bitWrites hb

/-- The image is well-formed along bitmaps whose bits of referenced blocks are set. -/
theorem along_bitWrites (h : img.WF) (hset : ∀ map, ∀ b ∈ bs,
      (bitTest map 0 = true ∧ bitTest map 1 = true) ∧
        (∀ c, img.table.Referenced c → bitTest map c = true) →
      (bitTest (f map b) 0 = true ∧ bitTest (f map b) 1 = true) ∧
        (∀ c, img.table.Referenced c → bitTest (f map b) c = true)) :
    Along put WF img (bitWrites f (img.block 1) bs) := by
  induction bs generalizing img with
  | nil => exact h
  | cons b bs ih =>
    obtain ⟨hres, hmark⟩ := hset (img.block 1) b List.mem_cons_self ⟨h.table.reserved,
      fun c ⟨_, _, hi, ho⟩ => (h.table.owned hi ho).2.2⟩
    have hself : (img.put ⟨1, f (img.block 1) b⟩).block 1 = f (img.block 1) b :=
      put_block_self (w := ⟨1, f (img.block 1) b⟩) h.one_lt
    have ha : img.table.Agree (img.put ⟨1, f (img.block 1) b⟩).table :=
      agree_bitWrites h f [b]
    have hrest := ih (h.putBitmap hres hmark) fun map c hc hmap => ?_
    · rw [hself] at hrest
      exact ⟨h, hrest⟩
    simp only [ha.referenced] at hmap ⊢
    exact hset map c (List.mem_cons_of_mem _ hc) hmap

theorem along_marks (h : img.WF) {bs : List ℕ} (hbs : ∀ b ∈ bs, b < 32768) :
    Along put WF img (bitWrites bitSet (img.block 1) bs) := by
  refine along_bitWrites h fun map b hb ⟨⟨h0, h1⟩, hmark⟩ => ?_
  simp only [bitTest_bitSet (hbs b hb), h0, h1, Bool.or_true, true_and]
  intro c hc
  rw [hmark c hc, Bool.or_true]

theorem along_unmarks (h : img.WF)
    (hbs : ∀ b ∈ bs, 2 ≤ b ∧ b < 32768 ∧ ¬img.table.Referenced b) :
    Along put WF img (bitWrites bitClear (img.block 1) bs) := by
  refine along_bitWrites h fun map b hb ⟨⟨h0, h1⟩, hmark⟩ => ?_
  obtain ⟨h2, hlt, hnr⟩ := hbs b hb
  simp only [bitTest_bitClear hlt, h0, h1, Bool.and_true]
  refine ⟨⟨by simpa using by omega, by simpa using by omega⟩, fun c hc => ?_⟩
  rw [hmark c hc, Bool.and_true, Bool.not_eq_true', decide_eq_false_iff_not]
  rintro rfl
  exact hnr hc

end Image

/-! ## The calls -/

namespace FsState

variable {s : FsState}

theorem nblocks_wrote {ws : List Write} (hw : Writable s.img.nblocks ws) :
    (s.wrote ws).img.nblocks = s.img.nblocks := Image.puts_nblocks fun w hmem => (hw w hmem).2

section Mounted

variable (h : s.Mounted)
include h

theorem Mounted.one_lt : 1 < s.img.nblocks := lt_of_lt_of_le (by decide) h.three_le

theorem Mounted.wrote_one (map : Block) : (s.wrote [⟨1, map⟩]).Mounted :=
  h.wrote (writable_singleton Nat.one_pos h.one_lt)

theorem Mounted.nblocks_wrote_one (map : Block) :
    (s.wrote [⟨1, map⟩]).img.nblocks = s.img.nblocks :=
  nblocks_wrote (writable_singleton Nat.one_pos h.one_lt)

theorem Mounted.bitmap_wrote_one (map : Block) : (s.wrote [⟨1, map⟩]).img.block 1 = map :=
  Image.put_block_self (w := ⟨1, map⟩) h.one_lt

theorem Mounted.allocateBlock_nil (hf : freeBlocks s.img.nblocks (s.img.block 1) = []) :
    allocateBlock.run s = (.err .ENOSPC, s) := by
  have hnone : (List.range' 2 (s.img.nblocks - 2)).find? (fun i => !bitTest (s.img.block 1) i) =
      none := by
    rw [← List.head?_filter]
    exact congrArg List.head? hf
  rw [allocateBlock, bind_get]
  simp only [h.diskSize, h.bitmap, hnone, err_run]

theorem Mounted.allocateBlock_cons {bs : List ℕ}
    (hf : freeBlocks s.img.nblocks (s.img.block 1) = b :: bs) :
    allocateBlock.run s = (.ok b, s.wrote [⟨1, bitSet (s.img.block 1) b⟩]) := by
  have hsome : (List.range' 2 (s.img.nblocks - 2)).find? (fun i => !bitTest (s.img.block 1) i) =
      some b := by
    rw [← List.head?_filter]
    exact congrArg List.head? hf
  have hb : b ∈ freeBlocks s.img.nblocks (s.img.block 1) := hf ▸ List.mem_cons_self
  have hlt := (mem_freeBlocks.1 hb).2.1
  have hcap := h.le_cap
  rw [allocateBlock, bind_get]
  simp only [h.diskSize, h.bitmap, hsome]
  rw [if_neg (by omega), bind_ok (h.storeBitmap _)]
  rfl

/-- The blocks free after the first one is allocated. -/
theorem Mounted.free_wrote_bitSet {bs : List ℕ}
    (hf : freeBlocks s.img.nblocks (s.img.block 1) = b :: bs) :
    freeBlocks (s.wrote [⟨1, bitSet (s.img.block 1) b⟩]).img.nblocks
      ((s.wrote [⟨1, bitSet (s.img.block 1) b⟩]).img.block 1) = bs := by
  rw [h.nblocks_wrote_one, h.bitmap_wrote_one, freeBlocks_bitSet h.le_cap hf]

theorem Mounted.freeBlock (hb : b < 32768) :
    (freeBlock b).run s = (.ok (), s.wrote [⟨1, bitClear (s.img.block 1) b⟩]) := by
  rw [Cs5600.freeBlock, bind_get, if_neg (by omega), h.storeBitmap, h.bitmap, Int.toNat_natCast]

/-- One more bitmap written. -/
theorem Mounted.wrote_bitWrites (f : Block → ℕ → Block) (b : ℕ) (bs : List ℕ) :
    (s.wrote [⟨1, f (s.img.block 1) b⟩]).wrote
        (bitWrites f ((s.wrote [⟨1, f (s.img.block 1) b⟩]).img.block 1) bs) =
      s.wrote (bitWrites f (s.img.block 1) (b :: bs)) := by
  rw [h.bitmap_wrote_one, wrote_wrote]
  rfl

end Mounted

end FsState

/-! ## Blocks of an inode -/

/-- The pointers of an inode in use. -/
def FsInode.used (x : FsInode) : List ℕ :=
  (List.range x.nptrs).map x.ptrAt

/-- The inode with another pointer. -/
def FsInode.withPtr (x : FsInode) (i : ℕ) (v : UInt32) : FsInode :=
  { x with ptrs := Function.update x.ptrs (Fin.ofNat 1019 i) v }

/-- The inode with some pointers cleared. -/
def FsInode.clear (x : FsInode) (is : List ℕ) : FsInode :=
  { x with ptrs := fun k => if k.1 ∈ is then 0 else x.ptrs k }

section Ptrs

variable {x : FsInode} {s : FsState}

/-- The number of blocks of a regular file. -/
theorem nblocksOf_eq (hd : x.isDir = false) (h0 : 0 ≤ x.size.toInt)
    (hle : x.size.toInt ≤ 1019 * 4096) : nblocksOf x.size = pure (x.nptrs : ℤ) := by
  rw [nblocksOf, if_neg (by omega), FsInode.nptrs, if_neg (by simp [hd])]
  congr 1
  rw [Int.tdiv_eq_ediv_of_nonneg (by omega)]
  omega

theorem val_ofNat_1019 {i : ℕ} (hi : i < 1019) : (Fin.ofNat 1019 i).1 = i := Nat.mod_eq_of_lt hi

theorem ptr_eq {i : ℕ} (hi : i < 1019) : x.ptr i = pure (x.ptrs (Fin.ofNat 1019 i)) := by
  have hk : (⟨(i : ℤ).toNat, hi⟩ : Fin 1019) = Fin.ofNat 1019 i := Fin.ext (val_ofNat_1019 hi).symm
  rw [FsInode.ptr, dif_pos ⟨Int.natCast_nonneg i, hi⟩, hk]

theorem setPtr_eq {i : ℕ} (hi : i < 1019) (v : UInt32) : x.setPtr i v = pure (x.withPtr i v) := by
  have hk : (⟨(i : ℤ).toNat, hi⟩ : Fin 1019) = Fin.ofNat 1019 i := Fin.ext (val_ofNat_1019 hi).symm
  rw [FsInode.setPtr, dif_pos ⟨Int.natCast_nonneg i, hi⟩, hk, FsInode.withPtr]

theorem withPtr_self (i : ℕ) (v : UInt32) : (x.withPtr i v).ptrs (Fin.ofNat 1019 i) = v :=
  Function.update_self _ _ x.ptrs

theorem withPtr_of_ne {i : ℕ} {k : Fin 1019} (v : UInt32) (hi : i < 1019) (hk : k.1 ≠ i) :
    (x.withPtr i v).ptrs k = x.ptrs k :=
  Function.update_of_ne (fun h => hk ((congrArg Fin.val h).trans (val_ofNat_1019 hi))) _ x.ptrs

theorem cint_ptrAt {k : ℕ} (hk : x.ptrAt k < 32768) :
    cint (x.ptrs (Fin.ofNat 1019 k)) = x.ptrAt k :=
  cint_of_lt (lt_of_lt_of_le hk (by decide))

theorem freePtrs_run (h : s.Mounted) {is : List ℕ} (his : ∀ i ∈ is, i < 1019)
    (hptr : ∀ i ∈ is, x.ptrAt i < 32768) :
    (freePtrs x is).run s = (.ok (), s.wrote (bitWrites bitClear (s.img.block 1)
      (is.map x.ptrAt))) := by
  induction is generalizing s with
  | nil =>
    change (_, s) = (_, s.wrote [])
    rw [h.wrote_nil]
  | cons i is ih =>
    have hb := hptr i List.mem_cons_self
    have hrest := ih (h.wrote_one (bitClear (s.img.block 1) (x.ptrAt i)))
      (fun j hj => his j (List.mem_cons_of_mem _ hj))
      fun j hj => hptr j (List.mem_cons_of_mem _ hj)
    rw [freePtrs, ptr_eq (his i List.mem_cons_self), bind_ok (pure_run _),
      cint_ptrAt hb, bind_ok (h.freeBlock hb), hrest, h.wrote_bitWrites,
      List.map_cons]

theorem clearPtrs_run (h : s.Mounted) (is : List ℕ) (hn : is.Nodup) (his : ∀ i ∈ is, i < 1019)
    (hptr : ∀ i ∈ is, x.ptrAt i < 32768) :
    (clearPtrs x is).run s = (.ok (x.clear is), s.wrote (bitWrites bitClear (s.img.block 1)
      (is.map x.ptrAt))) := by
  induction is generalizing s x with
  | nil =>
    have hx : x.clear [] = x := by simp [FsInode.clear]
    change (_, s) = (_, s.wrote [])
    rw [hx, h.wrote_nil]
  | cons i is ih =>
    have hb := hptr i List.mem_cons_self
    have hi := his i List.mem_cons_self
    obtain ⟨hnot, hn⟩ := List.nodup_cons.1 hn
    -- The pointers still to be cleared are those of the inode as it was.
    have hother : ∀ j ∈ is, (x.withPtr i 0).ptrAt j = x.ptrAt j := fun j hj => by
      have hj' := his j (List.mem_cons_of_mem _ hj)
      exact congrArg UInt32.toNat
        (withPtr_of_ne 0 hi (by rw [val_ofNat_1019 hj']; exact fun h => hnot (h ▸ hj)))
    have hclear : (x.withPtr i 0).clear is = x.clear (i :: is) := by
      rw [FsInode.clear, FsInode.clear]
      congr 1
      funext k
      by_cases hk : k.1 ∈ is
      · rw [if_pos hk, if_pos (List.mem_cons_of_mem _ hk)]
      · rw [if_neg hk]
        by_cases hki : k.1 = i
        · have hk' : k = Fin.ofNat 1019 i := Fin.ext (hki.trans (val_ofNat_1019 hi).symm)
          rw [if_pos (hki ▸ List.mem_cons_self), hk', withPtr_self]
        · rw [if_neg (by simp [hki, hk]), withPtr_of_ne 0 hi hki]
    have hrest := ih (x := x.withPtr i 0)
      (h.wrote_one (bitClear (s.img.block 1) (x.ptrAt i))) hn
      (fun j hj => his j (List.mem_cons_of_mem _ hj))
      (fun j hj => by rw [hother j hj]; exact hptr j (List.mem_cons_of_mem _ hj))
    rw [List.map_congr_left fun j hj => hother j hj] at hrest
    rw [clearPtrs, ptr_eq hi, bind_ok (pure_run _), cint_ptrAt hb,
      bind_ok (h.freeBlock hb), setPtr_eq hi, bind_ok (pure_run _), hrest, h.wrote_bitWrites, hclear,
      List.map_cons]

end Ptrs

end Cs5600
