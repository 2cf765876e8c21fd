import Mathlib.Data.Fin.Basic
import Cs5600.Layout
import Cs5600.WriteLog

/-!
# The disk and the state of the file system

The file system keeps a disk image, accessed block by block (`block_read` and
`block_write` of `misc.c`), and copies of its superblock and of its bitmap.
Its operations are state transformers (`FsM`), which end in one of three ways
(`Res`): with a value, with an error number, keeping what was changed before
the error, or in a *fault*, behaviour the C code does not define or an
assertion that fails.

Block accesses within the image succeed; reading past its end is an `EIO`. The
state also records the blocks written so far, in order (`FsState.log`): nothing
reads the record, and it is what a crash cuts short.

As long as the state is *mounted* (`FsState.Mounted`), the copies are those of
the blocks 0 and 1, and an operation amounts to the blocks it writes
(`FsState.wrote`).
-/

namespace Cs5600

/-- The error numbers returned. -/
inductive Errno
  | ENOENT
  | EIO
  | EEXIST
  | ENOTDIR
  | EISDIR
  | EINVAL
  | ENOSPC
  | ENOTEMPTY
  deriving DecidableEq, Repr

/-- What goes wrong outside the defined behaviour of the code. -/
inductive Fault
  /-- An index outside the array `ptrs` of an inode. -/
  | ptrs (i : ℤ)
  /-- An index outside the bitmap. -/
  | bitmap (i : ℤ)
  /-- An access outside another buffer. -/
  | buffer
  /-- An overflow of a signed `int`. -/
  | overflow
  /-- The assertion of `block_write` fails. -/
  | assertion
  /-- The process exits. -/
  | exit
  deriving DecidableEq, Repr

/-- A call of `block_write`: the block, and what is written to it. -/
structure Write where
  lba : ℕ
  data : Block

/-- A disk image. -/
structure Image where
  /-- The size of the image, in blocks. -/
  nblocks : ℕ
  block : ℕ → Block

namespace Image

/-- The image after a block is written. A write past the end makes the image grow, with zeros
    in between. -/
def put (img : Image) (w : Write) : Image :=
  if w.lba < img.nblocks then { img with block := Function.update img.block w.lba w.data }
  else
    { nblocks := w.lba + 1
      block := fun b =>
        if b = w.lba then w.data else if b < img.nblocks then img.block b else Block.zero }

/-- The image after writes, in order. -/
def puts (img : Image) (ws : List Write) : Image := ws.foldl put img

theorem put_nblocks {img : Image} {w : Write} (h : w.lba < img.nblocks) :
    (img.put w).nblocks = img.nblocks := by rw [put, if_pos h]

theorem put_block {img : Image} {w : Write} (h : w.lba < img.nblocks) :
    (img.put w).block = Function.update img.block w.lba w.data := by rw [put, if_pos h]

theorem put_block_self {img : Image} {w : Write} (h : w.lba < img.nblocks) :
    (img.put w).block w.lba = w.data := by rw [put_block h, Function.update_self]

theorem put_block_of_ne {img : Image} {w : Write} {b : ℕ} (h : w.lba < img.nblocks)
    (hb : b ≠ w.lba) : (img.put w).block b = img.block b := by
  rw [put_block h, Function.update_of_ne hb]

@[simp] theorem puts_nil (img : Image) : img.puts [] = img := rfl

@[simp] theorem puts_cons (img : Image) (w : Write) (ws : List Write) :
    img.puts (w :: ws) = (img.put w).puts ws := rfl

theorem puts_append (img : Image) (ws vs : List Write) :
    img.puts (ws ++ vs) = (img.puts ws).puts vs := List.foldl_append

/-- Writes within the image do not change its size. -/
theorem puts_nblocks {img : Image} {ws : List Write} (h : ∀ w ∈ ws, w.lba < img.nblocks) :
    (img.puts ws).nblocks = img.nblocks := by
  induction ws generalizing img with
  | nil => rfl
  | cons w ws ih =>
    have hw := put_nblocks (h w List.mem_cons_self)
    rw [puts_cons, ih fun v hv => ?_, hw]
    rw [hw]
    exact h v (List.mem_cons_of_mem _ hv)

/-- A block that is not written stays as it is. -/
theorem puts_block_of_notMem {img : Image} {ws : List Write} (h : ∀ w ∈ ws, w.lba < img.nblocks)
    {b : ℕ} (hb : ∀ w ∈ ws, w.lba ≠ b) : (img.puts ws).block b = img.block b := by
  induction ws generalizing img with
  | nil => rfl
  | cons w ws ih =>
    have hw := h w List.mem_cons_self
    rw [puts_cons, ih (fun v hv => ?_) fun v hv => hb v (List.mem_cons_of_mem _ hv),
      put_block_of_ne hw (hb w List.mem_cons_self).symm]
    rw [put_nblocks hw]
    exact h v (List.mem_cons_of_mem _ hv)

/-- Writes of different blocks can be swapped. -/
theorem put_comm {img : Image} {v w : Write} (hv : v.lba < img.nblocks) (hw : w.lba < img.nblocks)
    (hne : v.lba ≠ w.lba) : (img.put v).put w = (img.put w).put v := by
  have hv' : v.lba < (img.put w).nblocks := by rwa [put_nblocks hw]
  have hw' : w.lba < (img.put v).nblocks := by rwa [put_nblocks hv]
  rw [put, if_pos hw', put_block hv, put_nblocks hv, put, if_pos hv', put_block hw, put_nblocks hw,
    Function.update_comm hne]

theorem puts_put_comm {img : Image} {ws : List Write} {w : Write}
    (hws : ∀ v ∈ ws, v.lba < img.nblocks ∧ v.lba ≠ w.lba) (hw : w.lba < img.nblocks) :
    (img.puts ws).put w = (img.put w).puts ws := by
  induction ws generalizing img with
  | nil => rfl
  | cons v ws ih =>
    obtain ⟨hv, hne⟩ := hws v List.mem_cons_self
    rw [puts_cons, puts_cons, ih (fun u hu => ?_) (by rwa [put_nblocks hv]), put_comm hv hw hne]
    rw [put_nblocks hv]
    exact hws u (List.mem_cons_of_mem _ hu)

end Image

/-- The state of the file system. -/
structure FsState where
  /-- The copy of the superblock in memory. -/
  superblock : Block
  /-- The copy of the bitmap in memory. -/
  bitmap : Block
  img : Image
  /-- The blocks written so far. -/
  log : List Write

/-- How a call ends. -/
inductive Res (α : Type)
  | ok (a : α)
  | err (e : Errno)
  | fault (f : Fault)

/-- A call on the state of the file system. -/
structure FsM (α : Type) where
  run : FsState → Res α × FsState

namespace FsM

variable {α β : Type}

instance : Monad FsM where
  pure a := ⟨fun s => (.ok a, s)⟩
  bind x f := ⟨fun s =>
    match x.run s with
    | (.ok a, s') => (f a).run s'
    | (.err e, s') => (.err e, s')
    | (.fault t, s') => (.fault t, s')⟩

/-- To return an error. -/
def err (e : Errno) : FsM α := ⟨fun s => (.err e, s)⟩

/-- To run into a fault. -/
def fault (f : Fault) : FsM α := ⟨fun s => (.fault f, s)⟩

/-- To return an error under a condition. -/
def failIf (c : Bool) (e : Errno) : FsM Unit := if c then err e else pure ()

/-- To look at the state. -/
def get : FsM FsState := ⟨fun s => (.ok s, s)⟩

/-- To change the state. -/
def modify (f : FsState → FsState) : FsM Unit := ⟨fun s => (.ok (), f s)⟩

/-- To go on, without a value, if a call returns an error. -/
def attempt (x : FsM α) : FsM (Option α) := ⟨fun s =>
  match x.run s with
  | (.ok a, s') => (.ok (some a), s')
  | (.err _, s') => (.ok none, s')
  | (.fault f, s') => (.fault f, s')⟩

variable {x : FsM α} {f : α → FsM β} {s s' : FsState}

@[simp] theorem pure_run (a : α) : (pure a : FsM α).run s = (.ok a, s) := rfl

@[simp] theorem err_run (e : Errno) : (err e : FsM α).run s = (.err e, s) := rfl

@[simp] theorem fault_run (t : Fault) : (fault t : FsM α).run s = (.fault t, s) := rfl

theorem bind_run : (x >>= f).run s = match x.run s with
    | (.ok a, s') => (f a).run s'
    | (.err e, s') => (.err e, s')
    | (.fault t, s') => (.fault t, s') := rfl

theorem bind_ok {a : α} (h : x.run s = (.ok a, s')) : (x >>= f).run s = (f a).run s' := by
  rw [bind_run, h]

theorem bind_err {e : Errno} (h : x.run s = (.err e, s')) : (x >>= f).run s = (.err e, s') := by
  rw [bind_run, h]

theorem bind_fault {t : Fault} (h : x.run s = (.fault t, s')) :
    (x >>= f).run s = (.fault t, s') := by
  rw [bind_run, h]

@[simp] theorem bind_get {f : FsState → FsM β} : (get >>= f).run s = (f s).run s := rfl

@[simp] theorem bind_modify {g : FsState → FsState} {f : Unit → FsM β} :
    (modify g >>= f).run s = (f ()).run (g s) := rfl

theorem bind_failIf_false {c : Bool} {e : Errno} {f : Unit → FsM β} (h : c = false) :
    (failIf c e >>= f).run s = (f ()).run s := bind_ok (by rw [h]; rfl)

theorem bind_failIf_true {c : Bool} {e : Errno} {f : Unit → FsM β} (h : c = true) :
    (failIf c e >>= f).run s = (.err e, s) := bind_err (by rw [h]; rfl)

theorem attempt_ok {a : α} (h : x.run s = (.ok a, s')) : x.attempt.run s = (.ok (some a), s') := by
  simp only [attempt, h]

end FsM

open FsM

/-! ## Block accesses -/

/-- The conversion of a `uint32_t` to an `int`. -/
def cint (x : UInt32) : ℤ := x.toInt32.toInt

theorem cint_of_lt {x : UInt32} (h : x.toNat < 2 ^ 31) : cint x = x.toNat := by
  rw [cint, Int32.toInt, UInt32.toBitVec_toInt32, BitVec.toInt_eq_toNat_of_lt]
  · rfl
  · change 2 * x.toNat < 2 ^ 32
    omega

/-- `block_read`, of one block. -/
def blockRead (lba : ℤ) : FsM Block := ⟨fun s =>
  if lba * 4096 < -2 ^ 31 ∨ 2 ^ 31 ≤ lba * 4096 then (.fault .overflow, s)
  else if 0 ≤ lba ∧ lba < s.img.nblocks then (.ok (s.img.block lba.toNat), s)
  else (.err Errno.EIO, s)⟩

/-- `block_write`, of one block. -/
def blockWrite (lba : ℤ) (data : Block) : FsM Unit := ⟨fun s =>
  if lba * 4096 < -2 ^ 31 ∨ 2 ^ 31 ≤ (lba + 1) * 4096 then (.fault .overflow, s)
  else if lba ≤ 0 then (.fault .assertion, s)
  else
    (.ok (), { s with img := s.img.put ⟨lba.toNat, data⟩, log := s.log ++ [⟨lba.toNat, data⟩] })⟩

/-- To change the copy of the bitmap in memory, and write it to its block. -/
def storeBitmap (map : Block) : FsM Unit := do
  modify fun s => { s with bitmap := map }
  blockWrite 1 map

/-- `fs_init`, which calls `load_fs_metadata`. -/
def fsInit : FsM Unit := do
  let some sb ← attempt (blockRead 0) | fault .exit
  modify fun s => { s with superblock := sb }
  let some map ← attempt (blockRead 1) | fault .exit
  modify fun s => { s with bitmap := map }

/-! ## Mounted states -/

/-- The state after writes: the image changes, and the copy of the bitmap along with it. -/
def FsState.wrote (s : FsState) (ws : List Write) : FsState :=
  { s with bitmap := (s.img.puts ws).block 1, img := s.img.puts ws, log := s.log ++ ws }

/-- The image has a superblock that gives its size, a bitmap and no more blocks than the bitmap
    has bits, and the copies in memory are those of the image. -/
structure FsState.Mounted (s : FsState) : Prop where
  superblock : s.superblock = s.img.block 0
  bitmap : s.bitmap = s.img.block 1
  diskSize : (FsSuper.decode s.superblock).diskSize.toNat = s.img.nblocks
  three_le : 3 ≤ s.img.nblocks
  le_cap : s.img.nblocks ≤ 32768

/-- Writes within the image, and not of the superblock. -/
def Writable (n : ℕ) (ws : List Write) : Prop := ∀ w ∈ ws, 0 < w.lba ∧ w.lba < n

theorem Writable.append {n : ℕ} {ws vs : List Write} (h : Writable n ws) (h' : Writable n vs) :
    Writable n (ws ++ vs) := fun w hw => (List.mem_append.1 hw).elim (h w) (h' w)

theorem writable_nil {n : ℕ} : Writable n [] := fun _ h => absurd h List.not_mem_nil

theorem writable_singleton {n : ℕ} {w : Write} (h₀ : 0 < w.lba) (h : w.lba < n) :
    Writable n [w] := fun _ hv => List.mem_singleton.1 hv ▸ ⟨h₀, h⟩

namespace FsState

variable {s : FsState}

@[simp] theorem wrote_img (ws : List Write) : (s.wrote ws).img = s.img.puts ws := rfl

@[simp] theorem wrote_bitmap (ws : List Write) : (s.wrote ws).bitmap = (s.img.puts ws).block 1 := rfl

@[simp] theorem wrote_superblock (ws : List Write) : (s.wrote ws).superblock = s.superblock := rfl

@[simp] theorem wrote_log (ws : List Write) : (s.wrote ws).log = s.log ++ ws := rfl

theorem wrote_wrote (ws vs : List Write) : (s.wrote ws).wrote vs = s.wrote (ws ++ vs) := by
  simp only [wrote, Image.puts_append, List.append_assoc]

theorem Mounted.wrote_nil (h : s.Mounted) : s.wrote [] = s := by
  rw [wrote, Image.puts_nil, List.append_nil, ← h.bitmap]

theorem Mounted.wrote (h : s.Mounted) {ws : List Write} (hw : Writable s.img.nblocks ws) :
    (s.wrote ws).Mounted := by
  have hlt : ∀ w ∈ ws, w.lba < s.img.nblocks := fun w hmem => (hw w hmem).2
  refine ⟨?_, rfl, ?_, ?_, ?_⟩
  · rw [wrote_superblock, h.superblock, wrote_img,
      Image.puts_block_of_notMem hlt fun w hmem => (hw w hmem).1.ne']
  · rw [wrote_superblock, h.diskSize, wrote_img, Image.puts_nblocks hlt]
  · rw [wrote_img, Image.puts_nblocks hlt]
    exact h.three_le
  · rw [wrote_img, Image.puts_nblocks hlt]
    exact h.le_cap

theorem Mounted.blockRead (h : s.Mounted) {b : ℕ} (hb : b < s.img.nblocks) :
    (blockRead b).run s = (.ok (s.img.block b), s) := by
  have := h.le_cap
  simp only [Cs5600.blockRead]
  rw [if_neg (by omega), if_pos (by omega), Int.toNat_natCast]

theorem Mounted.blockWrite (h : s.Mounted) {b : ℕ} (h1 : 1 < b) (hb : b < s.img.nblocks)
    (data : Block) : (blockWrite b data).run s = (.ok (), s.wrote [⟨b, data⟩]) := by
  have := h.le_cap
  simp only [Cs5600.blockWrite]
  rw [if_neg (by omega), if_neg (by omega), Int.toNat_natCast, FsState.wrote, Image.puts_cons,
    Image.puts_nil, Image.put_block_of_ne hb h1.ne, ← h.bitmap]

theorem Mounted.storeBitmap (h : s.Mounted) (map : Block) :
    (storeBitmap map).run s = (.ok (), s.wrote [⟨1, map⟩]) := by
  have h1 : (⟨1, map⟩ : Write).lba < s.img.nblocks := lt_of_lt_of_le (show 1 < 3 by decide) h.three_le
  have hself := Image.put_block_self h1
  rw [Cs5600.storeBitmap, bind_modify, FsState.wrote, Image.puts_cons, Image.puts_nil, hself]
  rfl

/-- Mounting an image makes the copies in memory those of the image. -/
theorem fsInit_run (h : 2 ≤ s.img.nblocks) : fsInit.run s =
    (.ok (), { s with superblock := s.img.block 0, bitmap := s.img.block 1 }) := by
  have hread : ∀ (t : FsState) (b : ℤ), t.img = s.img → 0 ≤ b → b < 2 →
      (attempt (Cs5600.blockRead b)).run t = (.ok (some (s.img.block b.toNat)), t) := by
    intro t b ht h0 hb
    refine attempt_ok ?_
    simp only [Cs5600.blockRead, ht]
    rw [if_neg (by omega), if_pos (by omega)]
  rw [fsInit, bind_ok (hread s 0 rfl (by omega) (by omega))]
  exact bind_ok (hread { s with superblock := s.img.block 0 } 1 rfl (by omega) (by omega))

end FsState

end Cs5600
