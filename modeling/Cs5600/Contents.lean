import Cs5600.Ends

/-!
# Reading and writing files

The loops of `fs_read` and `fs_write` go through the bytes of a file block by
block, from an offset on. Where the pointers are blocks of the disk,

* `fs_read` returns bytes of the contents of the file (`readLoop_run`);
* `fs_write` writes blocks with the bytes of its buffer copied into them
  (`writeLoop_run`, `dataWrites`);
* new blocks are the first free ones (`allocPtrs_run`).

The ways that calls of `fs_truncate` and `fs_write` end are `TruncateEnds` and
`WriteEnds`.
-/

namespace Cs5600

open LabelledGraph Table FsM

/-! ## Bytes of blocks -/

namespace Block

variable {b : Block} {off : ℕ} {bytes : List UInt8}

theorem byte_patch (h : off + bytes.length ≤ 4096) (j : ℕ) : (b.patch off bytes).byte j =
    if off ≤ j ∧ j < off + bytes.length then bytes.getD (j - off) 0 else b.byte j := by
  by_cases hj : j < 4096
  · rw [byte_of_lt _ hj, byte_of_lt _ hj]
    rfl
  · rw [byte, byte, dif_neg hj, dif_neg hj, if_neg (by omega)]

end Block

/-! ## The loops -/

/-- The blocks written when a buffer is copied into a file with given pointers, from the offset
    `o` on. -/
def dataWrites (ptr : ℕ → ℕ) (img : Image) (buf : List UInt8) (o : ℕ) : List Write :=
  if _h : buf = [] then []
  else
    let n := min (4096 - o % 4096) buf.length
    let w : Write := ⟨ptr (o / 4096), (img.block (ptr (o / 4096))).patch (o % 4096) (buf.take n)⟩
    w :: dataWrites ptr (img.put w) (buf.drop n) (o + n)
termination_by buf.length
decreasing_by
  have := List.length_pos_of_ne_nil _h
  rw [List.length_drop]
  omega

/-- The pointers to the blocks of the bytes from `o` up to `e` lead into a disk of `n` blocks. -/
def FsInode.Spans (x : FsInode) (n o e : ℕ) : Prop :=
  ∀ k, o / 4096 ≤ k → k * 4096 < e → k < 1019 ∧ 1 < x.ptrAt k ∧ x.ptrAt k < n

theorem FsInode.Spans.mono {x : FsInode} {n o e o' : ℕ} (h : x.Spans n o e) (ho : o ≤ o') :
    x.Spans n o' e := fun k hk => h k (by omega)

section Loops

variable {x : FsInode} {s : FsState}

/-- The block of the next bytes is read or written first. -/
theorem FsInode.Spans.ptr {n o e : ℕ} (h : x.Spans n o e) (ho : o < e) :
    o / 4096 < 1019 ∧ 1 < x.ptrAt (o / 4096) ∧ x.ptrAt (o / 4096) < n :=
  h (o / 4096) le_rfl (by omega)

theorem readLoop_run (h : s.Mounted) {len o : ℕ} (hx : x.Spans s.img.nblocks o (o + len)) :
    (readLoop x len (o / 4096 : ℕ) (Fin.ofNat _ (o % 4096))).run s =
      (.ok ((List.range' o len).map (s.img.fileByte x)), s) := by
  induction len using Nat.strong_induction_on generalizing o with
  | _ len ih =>
    rw [readLoop]
    by_cases hlen : len = 0
    · rw [dif_pos hlen, hlen]
      rfl
    · have hcap := h.le_cap
      obtain ⟨hk, _, hlt⟩ := hx.ptr (by omega)
      have hval : (Fin.ofNat 4096 (o % 4096)).1 = o % 4096 := Nat.mod_mod _ _
      rw [dif_neg hlen, ptr_eq hk, bind_ok (pure_run _), cint_ptrAt (by omega),
        bind_ok (h.blockRead hlt), hval]
      simp only []
      -- The bytes of this block.
      have hslice : (s.img.block (x.ptrAt (o / 4096))).slice (o % 4096) (min (4096 - o % 4096) len) =
          (List.range' o (min (4096 - o % 4096) len)).map (s.img.fileByte x) := by
        rw [Block.slice, List.range'_eq_map_range, List.map_map]
        refine List.map_congr_left fun j hj => ?_
        have hj := List.mem_range.1 hj
        rw [Function.comp_apply, Image.fileByte, show (o + j) / 4096 = o / 4096 by omega,
          show (o + j) % 4096 = o % 4096 + j by omega]
      by_cases hend : len ≤ 4096 - o % 4096
      · rw [Nat.min_eq_right hend] at hslice ⊢
        rw [Nat.sub_self, readLoop, dif_pos rfl, bind_ok (pure_run _), hslice, List.append_nil,
          pure_run]
      · -- More bytes follow, from the beginning of the next block on.
        rw [Nat.min_eq_left (by omega)] at hslice ⊢
        have hdiv : (o + (4096 - o % 4096)) / 4096 = o / 4096 + 1 := by omega
        have hmod : (o + (4096 - o % 4096)) % 4096 = 0 := by omega
        have hrest := ih (len - (4096 - o % 4096)) (by omega) (o := o + (4096 - o % 4096))
          (by rw [show o + (4096 - o % 4096) + (len - (4096 - o % 4096)) = o + len by omega]
              exact hx.mono (by omega))
        rw [hdiv, hmod] at hrest
        change (readLoop x _ ((o / 4096 : ℕ) + 1 : ℤ) 0).run s = _ at hrest
        rw [hslice, bind_ok hrest, ← List.map_append, List.range'_append_1,
          show 4096 - o % 4096 + (len - (4096 - o % 4096)) = len by omega, pure_run]

theorem writeLoop_run (h : s.Mounted) {buf : List UInt8} {o : ℕ}
    (hx : x.Spans s.img.nblocks o (o + buf.length)) :
    (writeLoop x buf (o / 4096 : ℕ) (Fin.ofNat _ (o % 4096))).run s =
      (.ok buf.length, s.wrote (dataWrites x.ptrAt s.img buf o)) := by
  induction hlen : buf.length using Nat.strong_induction_on generalizing s buf o with
  | _ len ih =>
    subst hlen
    rw [writeLoop, dataWrites]
    by_cases hbuf : buf = []
    · rw [dif_pos hbuf, dif_pos hbuf, h.wrote_nil, hbuf]
      rfl
    · have hpos := List.length_pos_of_ne_nil hbuf
      have hcap := h.le_cap
      obtain ⟨hk, h1, hlt⟩ := hx.ptr (by omega)
      have hval : (Fin.ofNat 4096 (o % 4096)).1 = o % 4096 := Nat.mod_mod _ _
      rw [dif_neg hbuf, dif_neg hbuf, ptr_eq hk, bind_ok (pure_run _), cint_ptrAt (by omega),
        bind_ok (h.blockRead hlt), hval]
      simp only []
      -- The block is read, changed and written back.
      rw [bind_ok (h.blockWrite h1 hlt _)]
      have hw : Writable s.img.nblocks [⟨x.ptrAt (o / 4096), (s.img.block (x.ptrAt (o / 4096))).patch
          (o % 4096) (buf.take (min (4096 - o % 4096) buf.length))⟩] :=
        writable_singleton (by simp; omega) hlt
      have hx' := hx
      rw [← FsState.nblocks_wrote hw] at hx'
      by_cases hend : buf.length ≤ 4096 - o % 4096
      · rw [Nat.min_eq_right hend, List.drop_length, writeLoop, dif_pos rfl, bind_ok (pure_run _),
          dataWrites, dif_pos rfl, pure_run, Nat.add_zero]
      · -- More bytes follow, from the beginning of the next block on.
        rw [Nat.min_eq_left (by omega)] at hw hx' ⊢
        have hdiv : (o + (4096 - o % 4096)) / 4096 = o / 4096 + 1 := by omega
        have hmod : (o + (4096 - o % 4096)) % 4096 = 0 := by omega
        have hdrop : (buf.drop (4096 - o % 4096)).length = buf.length - (4096 - o % 4096) :=
          List.length_drop
        have hrest := @ih (buf.drop (4096 - o % 4096)).length (by omega) _ (h.wrote hw)
          (buf.drop (4096 - o % 4096)) (o + (4096 - o % 4096))
          (by rw [hdrop, show o + (4096 - o % 4096) + (buf.length - (4096 - o % 4096)) =
                o + buf.length by omega]
              exact hx'.mono (by omega)) rfl
        rw [hdiv, hmod, hdrop] at hrest
        change (writeLoop x _ ((o / 4096 : ℕ) + 1 : ℤ) 0).run _ = _ at hrest
        rw [bind_ok hrest, pure_run, FsState.wrote_wrote,
          show 4096 - o % 4096 + (buf.length - (4096 - o % 4096)) = buf.length by omega]
        rfl

/-- The inode with the pointers from `i` on set to blocks. -/
def FsInode.alloc (x : FsInode) (i : ℕ) : List ℕ → FsInode
  | [] => x
  | b :: bs => (x.withPtr i (UInt32.ofNat b)).alloc (i + 1) bs

/-- Allocating blocks when there are enough of them. -/
theorem allocPtrs_run (h : s.Mounted) {i : ℕ} {bs : List ℕ} (hi : i + bs.length ≤ 1019)
    (hbs : bs <+: freeBlocks s.img.nblocks (s.img.block 1)) :
    (allocPtrs x i bs.length).run s =
      (.ok (x.alloc i bs), s.wrote (bitWrites bitSet (s.img.block 1) bs)) := by
  induction bs generalizing s x i with
  | nil =>
    rw [bitWrites, h.wrote_nil]
    rfl
  | cons b bs ih =>
    rw [List.length_cons] at hi ⊢
    obtain ⟨rest, hrest⟩ := hbs
    rw [List.cons_append] at hrest
    have hfree := h.free_wrote_bitSet hrest.symm
    have hrun := ih (x := x.withPtr i (UInt32.ofNat b)) (h.wrote_one (bitSet (s.img.block 1) b))
      (i := i + 1) (by omega) (hfree ▸ List.prefix_append bs rest)
    rw [allocPtrs, bind_ok (h.allocateBlock_cons hrest.symm), setPtr_eq (by omega),
      bind_ok (pure_run _)]
    rw [h.wrote_bitWrites] at hrun
    exact hrun

/-- Allocating blocks when there are too few: all of them are marked. -/
theorem allocPtrs_noSpace (h : s.Mounted) {i n : ℕ}
    (hi : i + (freeBlocks s.img.nblocks (s.img.block 1)).length ≤ 1019)
    (hn : (freeBlocks s.img.nblocks (s.img.block 1)).length < n) :
    (allocPtrs x i n).run s = (.err .ENOSPC, s.wrote (bitWrites bitSet (s.img.block 1)
      (freeBlocks s.img.nblocks (s.img.block 1)))) := by
  induction n generalizing s x i with
  | zero => omega
  | succ n ih =>
    rw [allocPtrs]
    cases hfree : freeBlocks s.img.nblocks (s.img.block 1) with
    | nil => rw [bind_err (h.allocateBlock_nil hfree), bitWrites, h.wrote_nil]
    | cons b bs =>
      have hfree' := h.free_wrote_bitSet hfree
      rw [hfree, List.length_cons] at hi hn
      have hrun := ih (x := x.withPtr i (UInt32.ofNat b)) (h.wrote_one (bitSet (s.img.block 1) b))
        (i := i + 1) (by rw [hfree']; omega) (by rw [hfree']; omega)
      rw [hfree', h.wrote_bitWrites] at hrun
      rw [bind_ok (h.allocateBlock_cons hfree), setPtr_eq (by omega), bind_ok (pure_run _)]
      exact hrun

/-- The blocks written to a file are those of its bytes. -/
theorem mem_dataWrites {ptr : ℕ → ℕ} {img : Image} {buf : List UInt8} {o : ℕ} {w : Write}
    (hw : w ∈ dataWrites ptr img buf o) :
    ∃ k, o / 4096 ≤ k ∧ k * 4096 < o + buf.length ∧ w.lba = ptr k := by
  induction hlen : buf.length using Nat.strong_induction_on generalizing img buf o with
  | _ len ih =>
    subst hlen
    rw [dataWrites] at hw
    split_ifs at hw with hbuf
    · cases hw
    · have hpos := List.length_pos_of_ne_nil hbuf
      rcases List.mem_cons.1 hw with rfl | hw
      · exact ⟨o / 4096, le_rfl, by omega, rfl⟩
      · obtain ⟨k, hk, hlt, hlba⟩ := ih _ (by rw [List.length_drop]; omega) hw rfl
        rw [List.length_drop] at hlt
        exact ⟨k, by omega, by omega, hlba⟩

theorem writable_dataWrites (img : Image) {buf : List UInt8} {n o : ℕ}
    (hx : x.Spans n o (o + buf.length)) : Writable n (dataWrites x.ptrAt img buf o) := by
  intro w hw
  obtain ⟨k, hk, hlt, hlba⟩ := mem_dataWrites hw
  obtain ⟨_, h1, hn⟩ := hx k hk hlt
  rw [hlba]
  exact ⟨by omega, hn⟩

end Loops

/-- The pointers of an inode after blocks are allocated. -/
theorem FsInode.alloc_ptrs (x : FsInode) {i : ℕ} {bs : List ℕ} (hi : i + bs.length ≤ 1019)
    (k : Fin 1019) : (x.alloc i bs).ptrs k =
      if i ≤ k.1 ∧ k.1 < i + bs.length then UInt32.ofNat (bs.getD (k.1 - i) 0) else x.ptrs k := by
  induction bs generalizing x i with
  | nil => rw [alloc, if_neg (by simp)]
  | cons b bs ih =>
    rw [List.length_cons] at hi ⊢
    rw [alloc, ih _ (by omega)]
    by_cases hk : k.1 = i
    · have hk' : k = Fin.ofNat 1019 i := Fin.ext (hk.trans (val_ofNat_1019 (by omega)).symm)
      rw [if_neg (by omega), if_pos (by omega), hk, Nat.sub_self, List.getD_cons_zero, hk',
        withPtr_self]
    · by_cases hlt : i ≤ k.1 ∧ k.1 < i + (bs.length + 1)
      · rw [if_pos (by omega), if_pos hlt, show k.1 - i = k.1 - (i + 1) + 1 by omega,
          List.getD_cons_succ]
      · rw [if_neg (by omega), if_neg hlt, withPtr_of_ne _ (by omega) hk]

theorem FsInode.alloc_mode (x : FsInode) (i : ℕ) (bs : List ℕ) :
    (x.alloc i bs).mode = x.mode ∧ (x.alloc i bs).size = x.size ∧ (x.alloc i bs).uid = x.uid ∧
      (x.alloc i bs).gid = x.gid ∧ (x.alloc i bs).ctime = x.ctime := by
  induction bs generalizing x i with
  | nil => exact ⟨rfl, rfl, rfl, rfl, rfl⟩
  | cons b bs ih => exact ih _ _

/-! ## How calls end -/

/-- The number of blocks of `n` bytes. -/
def blocksFor (n : ℕ) : ℕ := (n + 4095) / 4096

theorem le_blocksFor_mul (n : ℕ) : n ≤ blocksFor n * 4096 := by
  rw [blocksFor]
  omega

/-- The inode of a file that is truncated. -/
def FsInode.truncated (env : Env) (x : FsInode) : FsInode :=
  { x.clear (List.range x.nptrs) with size := 0, mtime := timeOf env.now }

/-- The inode of a file after bytes are written up to `e`, with the new blocks `bs`. -/
def FsInode.written (env : Env) (e : ℕ) (bs : List ℕ) (x : FsInode) : FsInode :=
  { x.alloc x.nptrs bs with
    size := if x.size.toInt < e then Int32.ofInt e else x.size
    mtime := timeOf env.now }

namespace Table

variable (t : Table) (path : FsPath)

/-- The file that is truncated. -/
def truncatable (len : ℤ) : Except Errno ℕ := if len = 0 then t.regular path else .error .EINVAL

/-- The file that is written from the offset `o` on. -/
def writable (o : ℕ) : Except Errno ℕ :=
  match t.regular path with
  | .error e => .error e
  | .ok i => if (t.inode i).size.toInt < o then .error .EINVAL else .ok i

variable {t path}

theorem truncatable_eq_ok {len : ℤ} {i : ℕ} :
    t.truncatable path len = .ok i ↔ len = 0 ∧ t.regular path = .ok i := by
  rw [truncatable]
  split_ifs with hlen
  · rw [and_iff_right hlen]
  · exact iff_of_false nofun fun h => hlen h.1

theorem writable_eq_ok {o i : ℕ} : t.writable path o = .ok i ↔
    t.regular path = .ok i ∧ (o : ℤ) ≤ (t.inode i).size.toInt := by
  rw [writable]
  cases t.regular path with
  | error e => simp
  | ok j =>
    simp only [Except.ok.injEq]
    split_ifs with hlt
    · refine iff_of_false nofun ?_
      rintro ⟨rfl, hle⟩
      omega
    · constructor
      · rintro h
        obtain rfl := Except.ok.inj h
        exact ⟨rfl, by omega⟩
      · rintro ⟨rfl, _⟩
        rfl

end Table

namespace Image

variable (img : Image) (env : Env) (path : FsPath)

/-- How a file is truncated. -/
inductive TruncateEnds (len : ℤ) : Res Unit → List Write → Prop
  | refused {e : Errno} : img.table.truncatable path len = .error e → TruncateEnds len (.err e) []
  | done {i : ℕ} : img.table.truncatable path len = .ok i →
      TruncateEnds len (.ok ()) (bitWrites bitClear (img.block 1) (img.table.inode i).used ++
        [⟨i, ((img.table.inode i).truncated env).encode⟩])

/-- The blocks written to a file before its inode, when its blocks `bs` are new: the bitmap and
    the data. -/
def dataLog (i : ℕ) (buf : List UInt8) (o : ℕ) (bs : List ℕ) : List Write :=
  bitWrites bitSet (img.block 1) bs ++
    dataWrites ((img.table.inode i).written env (o + buf.length) bs).ptrAt
      (img.puts (bitWrites bitSet (img.block 1) bs)) buf o

/-- How a file is written. -/
inductive WriteEnds (buf : List UInt8) (o : ℕ) : Res ℕ → List Write → Prop
  | refused {e : Errno} : img.table.writable path o = .error e → WriteEnds buf o (.err e) []
  | noSpace {i : ℕ} : img.table.writable path o = .ok i →
      img.free.length < blocksFor (o + buf.length) - (img.table.inode i).nptrs →
      WriteEnds buf o (.err .ENOSPC) (bitWrites bitSet (img.block 1) img.free)
  | done {i : ℕ} {bs : List ℕ} : img.table.writable path o = .ok i →
      bs.length = blocksFor (o + buf.length) - (img.table.inode i).nptrs → bs <+: img.free →
      WriteEnds buf o (.ok buf.length) (img.dataLog env i buf o bs ++
        [⟨i, ((img.table.inode i).written env (o + buf.length) bs).encode⟩])

variable {img env path}

theorem exists_truncateEnds (img : Image) (env : Env) (path : FsPath) (len : ℤ) :
    ∃ r ws, img.TruncateEnds env path len r ws := by
  cases hl : img.table.truncatable path len with
  | error e => exact ⟨_, _, .refused hl⟩
  | ok i => exact ⟨_, _, .done hl⟩

theorem exists_writeEnds (img : Image) (env : Env) (path : FsPath) (buf : List UInt8) (o : ℕ) :
    ∃ r ws, img.WriteEnds env path buf o r ws := by
  cases hl : img.table.writable path o with
  | error e => exact ⟨_, _, .refused hl⟩
  | ok i =>
    by_cases hf : img.free.length < blocksFor (o + buf.length) - (img.table.inode i).nptrs
    · exact ⟨_, _, .noSpace hl hf⟩
    · exact ⟨_, _, .done hl (List.length_take_of_le (by omega)) (List.take_prefix _ _)⟩

end Image

/-! ## Their runs -/

theorem toInt32_of_lt {x : ℤ} (h0 : 0 ≤ x) (h : x < 2 ^ 31) : toInt32 x = x := by
  rw [toInt32, Int.bmod_eq_of_le (by omega) (by omega)]

/-- The number of a block, and the offset in it, as the loops of `fs_read` and `fs_write` compute
    them. -/
theorem toInt32_tdiv {o : ℕ} (ho : o ≤ 1019 * 4096) :
    toInt32 ((o : ℤ).tdiv 4096) = (o / 4096 : ℕ) := by
  have hdiv : (o : ℤ).tdiv 4096 = (o / 4096 : ℕ) := rfl
  rw [hdiv, toInt32_of_lt (by omega) (by omega)]

theorem toNat_tmod (o : ℕ) : ((o : ℤ).tmod 4096).toNat = o % 4096 := rfl

/-- What is known of a file whose contents are read or written. -/
theorem Table.WF.of_regular {t : Table} {path : FsPath} (h : t.WF) {i : ℕ}
    (hi : t.regular path = .ok i) : t.Live i ∧ (t.inode i).isDir = false ∧
      0 ≤ (t.inode i).size.toInt ∧ (t.inode i).size.toInt ≤ 1019 * 4096 := by
  obtain ⟨htr, hr⟩ := regular_eq_ok.1 hi
  have hlive := h.live_of_translate htr
  exact ⟨hlive, FsInode.isDir_of_isReg hr, h.size_le hlive hr⟩

/-- The number of pointers a file uses. -/
theorem FsInode.nptrs_of_file {x : FsInode} (hd : x.isDir = false) :
    x.nptrs = blocksFor x.size.toInt.toNat := by
  rw [nptrs, if_neg (by simp [hd]), blocksFor]

section Written

variable {img : Image} (h : img.WF) {path : FsPath} {i o e : ℕ} {bs : List ℕ}
  (hi : img.table.writable path o = .ok i) (he : e ≤ 1019 * 4096)
  (hlen : bs.length = blocksFor e - (img.table.inode i).nptrs) (hbs : bs <+: img.free)
include h hi he hlen hbs

/-- The pointers of a file that is written: the old ones, and those to the new blocks. -/
theorem ptrAt_written (env : Env) {k : ℕ} (hk : k < (img.table.inode i).nptrs + bs.length) :
    k < 1019 ∧ ((k < (img.table.inode i).nptrs ∧
        ((img.table.inode i).written env e bs).ptrAt k = (img.table.inode i).ptrAt k) ∨
      ((img.table.inode i).nptrs ≤ k ∧ ((img.table.inode i).written env e bs).ptrAt k =
        bs.getD (k - (img.table.inode i).nptrs) 0)) := by
  obtain ⟨hlive, hd, h0, hle⟩ := h.table.of_regular (writable_eq_ok.1 hi).1
  have hn := FsInode.nptrs_of_file hd
  generalize hN : (img.table.inode i).nptrs = N at hlen hk hn ⊢
  rw [blocksFor] at hn hlen
  have hk' : k < 1019 := by omega
  refine ⟨hk', ?_⟩
  have hptr := FsInode.alloc_ptrs (img.table.inode i) (show N + bs.length ≤ 1019 by omega)
    (Fin.ofNat 1019 k)
  rw [val_ofNat_1019 hk'] at hptr
  have hval : ((img.table.inode i).written env e bs).ptrAt k =
      (((img.table.inode i).alloc N bs).ptrs (Fin.ofNat 1019 k)).toNat := by
    rw [← hN]
    rfl
  by_cases hkN : k < N
  · -- An old pointer.
    rw [if_neg (by omega)] at hptr
    exact .inl ⟨hkN, by rw [hval, hptr]; rfl⟩
  · -- A new one; block numbers fit into 32 bits.
    rw [if_pos (by omega)] at hptr
    refine .inr ⟨by omega, ?_⟩
    have hmem : bs.getD (k - N) 0 ∈ img.free := by
      rw [List.getD_eq_getElem _ _ (by omega)]
      exact hbs.subset (List.getElem_mem _)
    have hcap : img.nblocks ≤ 32768 := h.table.le_cap
    have hlt := (Image.lt_of_mem_free hmem).2
    rw [hval, hptr, UInt32.toNat_ofNat', Nat.mod_eq_of_lt (by omega)]

/-- Such a pointer leads to a block that the file owns, or to a new one. -/
theorem owns_or_mem_written (env : Env) {k : ℕ} (hk : k < (img.table.inode i).nptrs + bs.length) :
    k < 1019 ∧ (img.table.Owns i (.ptr (Fin.ofNat 1019 k))
        (((img.table.inode i).written env e bs).ptrAt k) ∨
      ((img.table.inode i).written env e bs).ptrAt k ∈ bs) := by
  obtain ⟨hlt, ⟨hold, hp⟩ | ⟨hnew, hp⟩⟩ := ptrAt_written h hi he hlen hbs env hk
  · rw [hp]
    exact ⟨hlt, .inl (owns_ptr.2 ⟨(val_ofNat_1019 hlt).symm ▸ hold, rfl⟩)⟩
  · rw [hp, List.getD_eq_getElem _ _ (by omega)]
    exact ⟨hlt, .inr (List.getElem_mem _)⟩

/-- The blocks of a file that is written are blocks of the disk. -/
theorem spans_written (env : Env) :
    ((img.table.inode i).written env e bs).Spans img.nblocks o e := by
  obtain ⟨hlive, hd, h0, hle⟩ := h.table.of_regular (writable_eq_ok.1 hi).1
  intro k _ hk
  obtain ⟨hlt, ho | hmem⟩ := owns_or_mem_written h hi he hlen hbs env (k := k)
    (by rw [blocksFor] at hlen; omega)
  · exact ⟨hlt, (h.table.owned hlive ho).1, (h.table.owned hlive ho).2.1⟩
  · exact ⟨hlt, Image.lt_of_mem_free (hbs.subset hmem)⟩

end Written

section Runs

variable {s : FsState} (h : s.WF) {env : Env} {path : FsPath}
include h

/-- The bytes below the size of a file are in blocks of the disk. -/
theorem FsState.WF.spans {i : ℕ} (hi : s.img.table.Live i) (hd : (s.img.table.inode i).isDir = false)
    {o e : ℕ} (he : e ≤ (s.img.table.inode i).size.toInt.toNat) :
    (s.img.table.inode i).Spans s.img.nblocks o e := by
  intro k _ hk
  have hn : k < (s.img.table.inode i).nptrs := by
    rw [FsInode.nptrs_of_file hd, blocksFor]
    omega
  have hlt := (h.ptr_lt hi hn).1
  have hown := h.img.table.owned hi (owns_ptr.2 ⟨(val_ofNat_1019 hlt).symm ▸ hn, rfl⟩)
  exact ⟨hlt, hown.1, hown.2.1⟩

/-- `fs_read` returns bytes of the contents of a file. -/
theorem fsRead_run {len o : ℕ} (hlen : o + len < 2 ^ 63) :
    (fsRead path.bytes len o).run s =
      match s.img.table.regular path with
      | .error e => (.err e, s)
      | .ok i => (.ok (((s.img.content (s.img.table.inode i)).drop o).take len), s) := by
  refine (regular_run h path fun _ x => readFile x len o).trans ?_
  cases hi : s.img.table.regular path with
  | error e => rfl
  | ok i =>
    obtain ⟨hlive, hd, h0, hle⟩ := h.img.table.of_regular hi
    simp only [readFile]
    generalize hsize : (s.img.table.inode i).size.toInt = size at h0 hle
    have hcontent := Image.content_length s.img (s.img.table.inode i)
    rw [hsize] at hcontent
    by_cases ho : size ≤ o
    · rw [if_pos ho, List.drop_of_length_le (by omega), List.take_nil]
      rfl
    · -- `size_t` and `off_t` are compared without overflow, as `offset + len` is below 2^63.
      have hn : (if size % 2 ^ 64 < (o + len) % 2 ^ 64 then ((size - o) % 2 ^ 64).toNat else len) =
          min len (size.toNat - o) := by
        rw [Int.emod_eq_of_lt h0 (by omega), Int.emod_eq_of_lt (by omega) (by omega),
          Int.emod_eq_of_lt (by omega) (by omega)]
        split_ifs <;> omega
      have htake : (List.range' o (size.toNat - o)).take len =
          List.range' o (min len (size.toNat - o)) := by
        rcases Nat.le_total len (size.toNat - o) with hl | hl
        · rw [List.take_range'_of_length_ge hl, Nat.min_eq_left hl]
        · rw [List.take_range'_of_length_le hl, Nat.min_eq_right hl]
      have hx : (s.img.table.inode i).Spans s.img.nblocks o (o + min len (size.toNat - o)) :=
        h.spans hlive hd (by omega)
      rw [if_neg ho, hn, if_neg fun hneg => ?_, toInt32_tdiv (by omega), toNat_tmod,
        readLoop_run h.mounted hx, Image.content, hsize, ← List.map_drop, ← List.map_take,
        List.range_eq_range', List.drop_range', Nat.zero_add, Nat.mul_one, htake]
      exact absurd hneg.2 (not_lt.2 (Int.tmod_nonneg _ (by omega)))

/-- `fs_truncate` ends as it should. -/
theorem fsTruncate_run {len : ℤ} {r : Res Unit} {ws : List Write}
    (he : s.img.TruncateEnds env path len r ws) :
    (fsTruncate env path.bytes len).run s = (r, s.wrote ws) := by
  have hrun := regular_run h path fun inum x => do
    let n ← nblocksOf x.size
    let x ← clearPtrs x (List.range n.toNat)
    writeInode inum { x with size := 0, mtime := timeOf env.now }
  rw [fsTruncate]
  cases he with
  | refused hl =>
    -- The length is checked before the path.
    rw [truncatable] at hl
    rw [h.mounted.wrote_nil]
    split_ifs at hl with hlen
    · refine (bind_failIf_false (by simpa using hlen)).trans (hrun.trans ?_)
      rw [hl]
    · rw [← Except.error.inj hl]
      exact bind_failIf_true (by simpa using hlen)
  | @done i hl =>
    obtain ⟨rfl, hi⟩ := truncatable_eq_ok.1 hl
    obtain ⟨hlive, hd, h0, hle⟩ := h.img.table.of_regular hi
    refine (bind_failIf_false rfl).trans (hrun.trans ?_)
    have hlt := h.img.table.lt_of_live hlive
    have hw : Writable s.img.nblocks
        (bitWrites bitClear (s.img.block 1) (s.img.table.inode i).used) :=
      writable_bitWrites h.mounted.three_le
    have hclear := clearPtrs_run (x := s.img.table.inode i) h.mounted
      (List.range (s.img.table.inode i).nptrs) List.nodup_range
      (fun k hk => (h.ptr_lt hlive (List.mem_range.1 hk)).1)
      fun k hk => (h.ptr_lt hlive (List.mem_range.1 hk)).2
    have hwrite := (h.mounted.wrote hw).writeInode (i := i) hlt.1
      (by rw [FsState.nblocks_wrote hw]; exact hlt.2) ((s.img.table.inode i).truncated env)
    rw [hi]
    simp only []
    rw [nblocksOf_eq hd h0 hle, bind_ok (pure_run _), Int.toNat_natCast, bind_ok hclear]
    refine hwrite.trans ?_
    rw [FsState.wrote_wrote]

section Write

variable {buf : List UInt8} {o : ℕ}

/-- A write that is refused. -/
theorem fsWrite_refused {e : Errno} (hl : s.img.table.writable path o = .error e) :
    (fsWrite env path.bytes buf o).run s = (.err e, s) := by
  refine (regular_run h path fun inum x => do
    failIf (x.size.toInt < o) .EINVAL
    writeFile env inum x buf o).trans ?_
  rw [writable] at hl
  cases hi : s.img.table.regular path with
  | error e' =>
    rw [hi] at hl
    rw [← Except.error.inj hl]
  | ok i =>
    simp only [hi] at hl
    split_ifs at hl with hlt
    rw [← Except.error.inj hl]
    exact bind_failIf_true (by simpa using hlt)

variable {i : ℕ} (hl : s.img.table.writable path o = .ok i)
include hl

/-- A write that is not refused begins by allocating the blocks that the file does not have yet. -/
theorem fsWrite_alloc (hend : o + buf.length < 2 ^ 31) :
    (fsWrite env path.bytes buf o).run s = (do
      let x ← allocPtrs (s.img.table.inode i) (s.img.table.inode i).nptrs
        (blocksFor (o + buf.length) - (s.img.table.inode i).nptrs)
      let boff := (o : ℤ).tmod 4096
      if buf ≠ [] ∧ boff < 0 then fault .buffer
      else do
        let written ← writeLoop x buf (toInt32 ((o : ℤ).tdiv 4096)) (Fin.ofNat _ boff.toNat)
        let size := if x.size.toInt % 2 ^ 64 < ((o : ℤ) + buf.length) % 2 ^ 64 then
          Int32.ofInt (((o : ℤ) + buf.length) % 2 ^ 64) else x.size
        writeInode i { x with size, mtime := timeOf env.now }
        pure written).run s := by
  obtain ⟨hi, hle⟩ := writable_eq_ok.1 hl
  obtain ⟨hlive, hd, h0, hsize⟩ := h.img.table.of_regular hi
  have hreq : (toInt32 ((((o : ℤ) + buf.length) % 2 ^ 64 + 4096 - 1) % 2 ^ 64 / 4096) -
      (s.img.table.inode i).nptrs).toNat =
        blocksFor (o + buf.length) - (s.img.table.inode i).nptrs := by
    rw [Int.emod_eq_of_lt (by omega) (by omega), Int.emod_eq_of_lt (by omega) (by omega),
      toInt32_of_lt (by omega) (by omega), blocksFor]
    omega
  refine (regular_run h path fun inum x => do
    failIf (x.size.toInt < o) .EINVAL
    writeFile env inum x buf o).trans ?_
  rw [hi]
  refine (bind_failIf_false (by simpa using hle)).trans ?_
  rw [writeFile]
  simp only [nblocksOf_eq hd h0 hsize]
  rw [bind_ok (pure_run _), hreq]

/-- A write that runs out of blocks, before it runs out of pointers. -/
theorem fsWrite_noSpace (hend : o + buf.length < 2 ^ 31)
    (hf : s.img.free.length < blocksFor (o + buf.length) - (s.img.table.inode i).nptrs)
    (hcap : (s.img.table.inode i).nptrs + s.img.free.length ≤ 1019) :
    (fsWrite env path.bytes buf o).run s =
      (.err .ENOSPC, s.wrote (bitWrites bitSet (s.img.block 1) s.img.free)) :=
  (fsWrite_alloc h hl hend).trans (bind_err (allocPtrs_noSpace h.mounted hcap hf))

end Write

/-- `fs_write` ends as it should. -/
theorem fsWrite_run {buf : List UInt8} {o : ℕ} (hend : o + buf.length ≤ 1019 * 4096) {r : Res ℕ}
    {ws : List Write} (he : s.img.WriteEnds env path buf o r ws) :
    (fsWrite env path.bytes buf o).run s = (r, s.wrote ws) := by
  cases he with
  | refused hl => rw [fsWrite_refused h hl, h.mounted.wrote_nil]
  | noSpace hl hf =>
    refine fsWrite_noSpace h hl (by omega) hf ?_
    rw [blocksFor] at hf
    omega
  | @done i bs hl hlen hbs =>
    obtain ⟨hi, hle⟩ := writable_eq_ok.1 hl
    obtain ⟨hlive, hd, h0, hsize⟩ := h.img.table.of_regular hi
    have hcap := FsInode.nptrs_of_file hd
    rw [blocksFor] at hcap
    have hlt := h.img.table.lt_of_live hlive
    have hw : Writable s.img.nblocks (bitWrites bitSet (s.img.block 1) bs) :=
      writable_bitWrites h.mounted.three_le
    have halloc := allocPtrs_run (x := s.img.table.inode i) h.mounted
      (show (s.img.table.inode i).nptrs + bs.length ≤ 1019 by rw [hlen, blocksFor]; omega) hbs
    have hspans : ((s.img.table.inode i).alloc (s.img.table.inode i).nptrs bs).Spans
        s.img.nblocks o (o + buf.length) := spans_written h.img hl hend hlen hbs env
    -- The data is written after the bits of its blocks are set, and the inode after the data.
    have hspans' := hspans
    rw [← FsState.nblocks_wrote hw] at hspans'
    have hdata := writeLoop_run (h.mounted.wrote hw) hspans'
    have hw' := writable_dataWrites (s.wrote (bitWrites bitSet (s.img.block 1) bs)).img
      hspans'
    have hinode := ((h.mounted.wrote hw).wrote hw').writeInode (i := i) hlt.1
      (by rw [FsState.nblocks_wrote hw', FsState.nblocks_wrote hw]; exact hlt.2)
      ((s.img.table.inode i).written env (o + buf.length) bs)
    have hmod : ((o : ℤ) + buf.length) % 2 ^ 64 = (o + buf.length : ℕ) := by
      rw [Int.emod_eq_of_lt (by omega) (by omega)]
      rfl
    rw [fsWrite_alloc h hl (by omega), ← hlen, bind_ok halloc, if_neg fun hneg => ?_,
      toInt32_tdiv (by omega), toNat_tmod, bind_ok hdata]
    · -- The size in the inode grows up to the end of the data, if that is after the end of the file.
      have hnew : (if ((s.img.table.inode i).alloc (s.img.table.inode i).nptrs bs).size.toInt % 2 ^ 64 <
          ((o : ℤ) + buf.length) % 2 ^ 64 then Int32.ofInt (((o : ℤ) + buf.length) % 2 ^ 64)
          else ((s.img.table.inode i).alloc (s.img.table.inode i).nptrs bs).size) =
          ((s.img.table.inode i).written env (o + buf.length) bs).size := by
        rw [(FsInode.alloc_mode _ _ _).2.1, hmod, Int.emod_eq_of_lt h0 (by omega)]
        rfl
      rw [hnew]
      refine (bind_ok hinode).trans ?_
      rw [pure_run, FsState.wrote_wrote, FsState.wrote_wrote, ← List.append_assoc]
      rfl
    · exact absurd hneg.2 (not_lt.2 (Int.tmod_nonneg _ (by omega)))

end Runs

end Cs5600
