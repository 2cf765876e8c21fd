import Mathlib.Data.Nat.Bitwise
import Mathlib.Data.Fin.Basic
import Mathlib.Tactic.Common

/-!
# The on-disk layout

The structures of `fs5600.h` and the bitmap functions of `homework.c`. A block
is 4096 bytes (`FS_BLOCK_SIZE`), and whatever the file system keeps in a block
is read from its bytes, little-endian: the superblock (`FsSuper`), an inode
(`FsInode`, which fills the block), the 128 entries of a directory (`DirBlock`)
or the bitmap (`bitTest`, `bitSet`, `bitClear`). So any block can be read as
any of these, as the C code does by casting.

Writing a structure and reading it back gives it again (`FsSuper.decode_encode`,
`FsInode.decode_encode`, `DirBlock.decode_encode`), and a name copied into a
directory entry is compared equal to itself (`cstr_strncpy`).
-/

namespace Cs5600

/-- A disk block: `FS_BLOCK_SIZE` bytes. -/
abbrev Block := Fin 4096 → UInt8

namespace Block

/-- The byte of a block at an offset. -/
def byte (b : Block) (i : ℕ) : UInt8 := if h : i < 4096 then b ⟨i, h⟩ else 0

theorem byte_of_lt (b : Block) {i : ℕ} (h : i < 4096) : b.byte i = b ⟨i, h⟩ := dif_pos h

/-- The little-endian number in the `n` bytes from `off` on. -/
def le (b : Block) (off : ℕ) : ℕ → ℕ
  | 0 => 0
  | n + 1 => (b.byte off).toNat + 256 * b.le (off + 1) n

/-- The block of zeros, as `memset` leaves it. -/
def zero : Block := fun _ => 0

end Block

/-- The byte `k` of a number, in little-endian order. -/
def leByte (v k : ℕ) : UInt8 := UInt8.ofNat (v / 256 ^ k)

/-- Bytes that spell a number in little-endian order are read as that number. -/
theorem Block.le_of_leByte {b : Block} {off n v : ℕ}
    (h : ∀ k < n, b.byte (off + k) = leByte v k) : b.le off n = v % 256 ^ n := by
  induction n generalizing off v with
  | zero => rw [Block.le, pow_zero, Nat.mod_one]
  | succ n ih =>
    have h₀ : (b.byte off).toNat = v % 256 := by
      have := h 0 n.succ_pos
      rw [Nat.add_zero] at this
      rw [this, leByte, pow_zero, Nat.div_one, UInt8.toNat_ofNat']
    have hs : b.le (off + 1) n = v / 256 % 256 ^ n := ih fun k hk => by
      rw [Nat.add_assoc, Nat.add_comm 1 k, h (k + 1) (Nat.succ_lt_succ hk), leByte, leByte,
        Nat.div_div_eq_div_mul, pow_succ']
    rw [Block.le, h₀, hs, pow_succ', Nat.mod_mul]

/-! ## The superblock -/

/-- `struct fs_super`, without its padding. -/
structure FsSuper where
  magic : UInt32
  /-- The size of the disk, in blocks. -/
  diskSize : UInt32

namespace FsSuper

/-- The superblock in a block. -/
def decode (b : Block) : FsSuper where
  magic := UInt32.ofNat (b.le 0 4)
  diskSize := UInt32.ofNat (b.le 4 4)

/-- The block holding a superblock. -/
def encode (x : FsSuper) : Block := fun i =>
  if i.1 < 4 then leByte x.magic.toNat i
  else if i.1 < 8 then leByte x.diskSize.toNat (i - 4)
  else 0

theorem decode_encode (x : FsSuper) : decode x.encode = x := by
  have h₁ : x.encode.le 0 4 = x.magic.toNat % 256 ^ 4 := Block.le_of_leByte fun k hk => by
    rw [Block.byte_of_lt _ (by omega), encode, if_pos (by simp; omega)]
    simp
  have h₂ : x.encode.le 4 4 = x.diskSize.toNat % 256 ^ 4 := Block.le_of_leByte fun k hk => by
    rw [Block.byte_of_lt _ (by omega), encode, if_neg (by simp), if_pos (by simp; omega)]
    simp
  rw [decode, h₁, h₂]
  congr <;> simp

end FsSuper

/-! ## Inodes -/

/-- The file type bits of a mode, `S_IFMT`, and the types of directories and regular files. -/
def sIfmt : UInt32 := 0o170000
def sIfdir : UInt32 := 0o040000
def sIfreg : UInt32 := 0o100000

-- Numerals are pointers of an inode, entries of a directory and inodes by these instances.
instance neZero_ptrs : NeZero 1019 := ⟨nofun⟩
instance neZero_entries : NeZero 128 := ⟨nofun⟩
instance neZero_inodes : NeZero (2 ^ 31) := ⟨by decide⟩

/-- `struct fs_inode`. -/
structure FsInode where
  uid : UInt16
  gid : UInt16
  mode : UInt32
  ctime : UInt32
  mtime : UInt32
  size : Int32
  /-- The blocks of the object, `FS_BLOCK_SIZE/4 - 5` of them. -/
  ptrs : Fin 1019 → UInt32

namespace FsInode

/-- The inode in a block. -/
def decode (b : Block) : FsInode where
  uid := UInt16.ofNat (b.le 0 2)
  gid := UInt16.ofNat (b.le 2 2)
  mode := UInt32.ofNat (b.le 4 4)
  ctime := UInt32.ofNat (b.le 8 4)
  mtime := UInt32.ofNat (b.le 12 4)
  size := (UInt32.ofNat (b.le 16 4)).toInt32
  ptrs k := UInt32.ofNat (b.le (20 + 4 * k) 4)

/-- The block holding an inode. -/
def encode (x : FsInode) : Block := fun i =>
  if i.1 < 2 then leByte x.uid.toNat i
  else if i.1 < 4 then leByte x.gid.toNat (i - 2)
  else if i.1 < 8 then leByte x.mode.toNat (i - 4)
  else if i.1 < 12 then leByte x.ctime.toNat (i - 8)
  else if i.1 < 16 then leByte x.mtime.toNat (i - 12)
  else if h : i.1 < 20 then leByte x.size.toUInt32.toNat (i - 16)
  else leByte (x.ptrs ⟨(i - 20) / 4, by omega⟩).toNat ((i - 20) % 4)

theorem decode_encode (x : FsInode) : decode x.encode = x := by
  have h₁ : x.encode.le 0 2 = x.uid.toNat % 256 ^ 2 := Block.le_of_leByte fun k hk => by
    rw [Block.byte_of_lt _ (by omega), encode, if_pos (by simp; omega)]
    simp
  have h₂ : x.encode.le 2 2 = x.gid.toNat % 256 ^ 2 := Block.le_of_leByte fun k hk => by
    rw [Block.byte_of_lt _ (by omega), encode, if_neg (by dsimp only; omega), if_pos (by simp; omega)]
    simp
  have h₃ : x.encode.le 4 4 = x.mode.toNat % 256 ^ 4 := Block.le_of_leByte fun k hk => by
    rw [Block.byte_of_lt _ (by omega), encode, if_neg (by simp; omega), if_neg (by simp),
      if_pos (by simp; omega)]
    simp
  have h₄ : x.encode.le 8 4 = x.ctime.toNat % 256 ^ 4 := Block.le_of_leByte fun k hk => by
    rw [Block.byte_of_lt _ (by omega), encode, if_neg (by simp; omega), if_neg (by simp; omega),
      if_neg (by simp), if_pos (by simp; omega)]
    simp
  have h₅ : x.encode.le 12 4 = x.mtime.toNat % 256 ^ 4 := Block.le_of_leByte fun k hk => by
    rw [Block.byte_of_lt _ (by omega), encode, if_neg (by simp; omega), if_neg (by simp; omega),
      if_neg (by simp; omega), if_neg (by simp), if_pos (by simp; omega)]
    simp
  have h₆ : x.encode.le 16 4 = x.size.toUInt32.toNat % 256 ^ 4 := Block.le_of_leByte fun k hk => by
    rw [Block.byte_of_lt _ (by omega), encode, if_neg (by simp; omega), if_neg (by simp; omega),
      if_neg (by simp; omega), if_neg (by simp; omega), if_neg (by simp), dif_pos (by simp; omega)]
    simp
  have h₇ : ∀ j : Fin 1019, x.encode.le (20 + 4 * j) 4 = (x.ptrs j).toNat % 256 ^ 4 :=
    fun j => Block.le_of_leByte fun k hk => by
      have hdiv : (20 + 4 * j.1 + k - 20) / 4 = j := by omega
      have hmod : (20 + 4 * j.1 + k - 20) % 4 = k := by omega
      rw [Block.byte_of_lt _ (by omega), encode, if_neg (by simp; omega), if_neg (by simp; omega),
        if_neg (by simp; omega), if_neg (by simp; omega), if_neg (by simp; omega),
        dif_neg (by simp; omega)]
      simp only [hdiv, hmod]
  simp only [decode, h₁, h₂, h₃, h₄, h₅, h₆, h₇]
  congr <;> simp

/-- `S_ISDIR`: the object is a directory. -/
def isDir (x : FsInode) : Bool := x.mode &&& sIfmt == sIfdir

/-- `S_ISREG`: the object is a regular file. -/
def isReg (x : FsInode) : Bool := x.mode &&& sIfmt == sIfreg

/-- The type bits of a mode made of two. -/
theorem or_and_sIfmt (a b : UInt32) : (a ||| b) &&& sIfmt = (a &&& sIfmt) ||| (b &&& sIfmt) :=
  UInt32.toBitVec_inj.1 BitVec.and_or_distrib_right

theorem isDir_iff (x : FsInode) : x.isDir = true ↔ x.mode &&& sIfmt = sIfdir := beq_iff_eq

theorem isReg_iff (x : FsInode) : x.isReg = true ↔ x.mode &&& sIfmt = sIfreg := beq_iff_eq

/-- No object is both a regular file and a directory. -/
theorem isDir_of_isReg {x : FsInode} (h : x.isReg = true) : x.isDir = false := by
  rw [isReg_iff] at h
  rw [isDir, h]
  rfl

end FsInode

/-! ## Directories -/

/-- `struct fs_dirent`: a word holding the bit fields `valid` and `inode`, and a name. -/
structure FsDirent where
  valid : Bool
  inode : Fin (2 ^ 31)
  name : Fin 28 → UInt8

/-- `MAX_NAME_LEN`. -/
def maxNameLen : ℕ := 27

/-- The C string in a name field: the bytes before the first NUL. -/
def cstr (name : Fin 28 → UInt8) : List UInt8 := (List.ofFn name).takeWhile (· ≠ 0)

/-- The name field after `strncpy(name, s, MAX_NAME_LEN)` and `name[MAX_NAME_LEN] = 0`. -/
def strncpy (s : List UInt8) : Fin 28 → UInt8 := fun i => (s.take maxNameLen).getD i 0

theorem cstr_strncpy {s : List UInt8} (hlen : s.length ≤ maxNameLen) (h0 : 0 ∉ s) :
    cstr (strncpy s) = s := by
  have hlen' : s.length ≤ 27 := hlen
  have hsplit : List.ofFn (strncpy s) = s ++ List.replicate (28 - s.length) 0 := by
    refine List.ext_getElem (by simp; omega) fun i h₁ h₂ => ?_
    rw [List.getElem_ofFn, strncpy, List.take_of_length_le hlen]
    by_cases hi : i < s.length
    · rw [List.getElem_append_left hi, List.getD_eq_getElem _ _ hi]
    · rw [List.getElem_append_right (by omega), List.getElem_replicate,
        List.getD_eq_default _ _ (by simpa using hi)]
  rw [cstr, hsplit, List.takeWhile_append_of_pos fun a ha => ?_]
  · have : 28 - s.length = (27 - s.length) + 1 := by omega
    rw [this, List.replicate_succ, List.takeWhile_cons_of_neg (by simp), List.append_nil]
  · simpa using ne_of_mem_of_not_mem ha h0

/-- A directory block: 128 entries of 32 bytes. -/
abbrev DirBlock := Fin 128 → FsDirent

namespace DirBlock

/-- The word of a directory entry holding its bit fields. -/
def word (d : FsDirent) : ℕ := 2 * d.inode + d.valid.toNat

/-- The directory entries in a block. -/
def decode (b : Block) : DirBlock := fun k =>
  { valid := b.le (32 * k) 4 % 2 = 1
    inode := ⟨b.le (32 * k) 4 / 2 % 2 ^ 31, Nat.mod_lt _ (by decide)⟩
    name := fun j => b.byte (32 * k + 4 + j) }

/-- The block holding directory entries. -/
def encode (d : DirBlock) : Block := fun i =>
  if i.1 % 32 < 4 then leByte (word (d ⟨i / 32, by omega⟩)) (i % 32)
  else (d ⟨i / 32, by omega⟩).name ⟨i % 32 - 4, by omega⟩

theorem decode_encode (d : DirBlock) : decode (encode d) = d := by
  funext k
  have hword : (encode d).le (32 * k) 4 = word (d k) % 256 ^ 4 :=
    Block.le_of_leByte fun j hj => by
      have hdiv : (32 * k.1 + j) / 32 = k := by omega
      have hmod : (32 * k.1 + j) % 32 = j := by omega
      rw [Block.byte_of_lt _ (by omega), encode, if_pos (by simp [hmod, hj])]
      simp only [hdiv, hmod]
  have hlt : word (d k) % 256 ^ 4 = word (d k) := Nat.mod_eq_of_lt <| by
    have := (d k).inode.2
    have := (d k).valid.toNat_le
    rw [word]
    omega
  have hname : ∀ j : Fin 28, (encode d).byte (32 * k + 4 + j) = (d k).name j := fun j => by
    have hdiv : (32 * k.1 + 4 + j.1) / 32 = k := by omega
    have hmod : (32 * k.1 + 4 + j.1) % 32 = 4 + j := by omega
    rw [Block.byte_of_lt _ (by omega), encode, if_neg (by simp [hmod])]
    simp only [hdiv, hmod, Nat.add_sub_cancel_left]
  have hinode : word (d k) / 2 % 2 ^ 31 = (d k).inode := by
    have := (d k).inode.2
    have := (d k).valid.toNat_le
    rw [word]
    omega
  have hvalid : decide (word (d k) % 2 = 1) = (d k).valid := by
    rw [word]
    cases (d k).valid <;> simp [Nat.add_mod]
  simp only [decode, hword, hlt, hname, hinode, hvalid]

end DirBlock

/-! ## The bitmap -/

/-- `bit_test`: whether the bit `i` of a bitmap is set. -/
def bitTest (map : Block) (i : ℕ) : Bool := map.byte (i / 8) &&& UInt8.ofNat (2 ^ (i % 8)) != 0

/-- `bit_set`: the bitmap with the bit `i` set. -/
def bitSet (map : Block) (i : ℕ) : Block := fun j =>
  if j.1 = i / 8 then map j ||| UInt8.ofNat (2 ^ (i % 8)) else map j

/-- `bit_clear`: the bitmap with the bit `i` cleared. -/
def bitClear (map : Block) (i : ℕ) : Block := fun j =>
  if j.1 = i / 8 then map j &&& ~~~UInt8.ofNat (2 ^ (i % 8)) else map j

theorem toNat_bit {k : ℕ} (h : k < 8) : (UInt8.ofNat (2 ^ k)).toNat = 2 ^ k := by
  rw [UInt8.toNat_ofNat', Nat.mod_eq_of_lt (Nat.pow_lt_pow_right (by omega) h)]

theorem bitTest_eq_testBit (map : Block) (i : ℕ) :
    bitTest map i = (map.byte (i / 8)).toNat.testBit (i % 8) := by
  have hbit := toNat_bit (Nat.mod_lt i (show 0 < 8 by omega))
  have hand : (map.byte (i / 8) &&& UInt8.ofNat (2 ^ (i % 8))).toNat =
      (map.byte (i / 8)).toNat &&& 2 ^ (i % 8) := by rw [UInt8.toNat_and, hbit]
  cases hb : (map.byte (i / 8)).toNat.testBit (i % 8) with
  | true =>
    rw [bitTest, bne_iff_ne]
    intro h0
    rw [h0] at hand
    have := congrArg (·.testBit (i % 8)) hand
    simp [Nat.testBit_and, hb] at this
  | false =>
    rw [bitTest, bne_eq_false_iff_eq, ← UInt8.toNat_inj, hand]
    refine Nat.eq_of_testBit_eq fun j => ?_
    by_cases hj : i % 8 = j
    · subst hj
      simp [hb]
    · simp [Nat.testBit_two_pow_of_ne hj]

theorem bitTest_bitSet {map : Block} {i j : ℕ} (hi : i < 32768) :
    bitTest (bitSet map i) j = (decide (i = j) || bitTest map j) := by
  rw [bitTest_eq_testBit, bitTest_eq_testBit]
  by_cases hq : j / 8 = i / 8
  · have hbyte : (bitSet map i).byte (j / 8) =
        map.byte (j / 8) ||| UInt8.ofNat (2 ^ (i % 8)) := by
      rw [Block.byte_of_lt _ (by omega), Block.byte_of_lt _ (by omega), bitSet, if_pos hq]
    have hij : decide (i = j) = decide (i % 8 = j % 8) := by
      rw [decide_eq_decide]
      omega
    rw [hbyte, UInt8.toNat_or, toNat_bit (Nat.mod_lt i (by omega)), Nat.testBit_or,
      Nat.testBit_two_pow, hij, Bool.or_comm]
  · have hbyte : (bitSet map i).byte (j / 8) = map.byte (j / 8) := by
      by_cases hj : j / 8 < 4096
      · rw [Block.byte_of_lt _ hj, Block.byte_of_lt _ hj, bitSet, if_neg hq]
      · rw [Block.byte, Block.byte, dif_neg hj, dif_neg hj]
    rw [hbyte, decide_eq_false fun h => hq (by rw [h]), Bool.false_or]

theorem bitTest_bitClear {map : Block} {i j : ℕ} (hi : i < 32768) :
    bitTest (bitClear map i) j = (!decide (i = j) && bitTest map j) := by
  rw [bitTest_eq_testBit, bitTest_eq_testBit]
  by_cases hq : j / 8 = i / 8
  · have hbyte : (bitClear map i).byte (j / 8) =
        map.byte (j / 8) &&& ~~~UInt8.ofNat (2 ^ (i % 8)) := by
      rw [Block.byte_of_lt _ (by omega), Block.byte_of_lt _ (by omega), bitClear, if_pos hq]
    have hij : decide (i = j) = decide (i % 8 = j % 8) := by
      rw [decide_eq_decide]
      omega
    have hnot : (~~~UInt8.ofNat (2 ^ (i % 8))).toNat = 2 ^ 8 - (2 ^ (i % 8) + 1) := by
      rw [UInt8.toNat_not, toNat_bit (Nat.mod_lt i (by omega))]
      simp only [UInt8.size]
      omega
    rw [hbyte, UInt8.toNat_and, hnot, Nat.testBit_and,
      Nat.testBit_two_pow_sub_succ (Nat.pow_lt_pow_right (by omega) (by omega)),
      Nat.testBit_two_pow, hij, decide_eq_true (Nat.mod_lt j (by omega)), Bool.true_and,
      Bool.and_comm]
  · have hbyte : (bitClear map i).byte (j / 8) = map.byte (j / 8) := by
      by_cases hj : j / 8 < 4096
      · rw [Block.byte_of_lt _ hj, Block.byte_of_lt _ hj, bitClear, if_neg hq]
      · rw [Block.byte, Block.byte, dif_neg hj, dif_neg hj]
    rw [hbyte, decide_eq_false fun h => hq (by rw [h]), Bool.not_false, Bool.true_and]

end Cs5600
