import Cs5600.Contents
import Cs5600.Python

/-!
# The layout of the scripts

The structures of `diskfmt.py`, as `ctypes` lays them out: fields one after the other, each
little-endian and as wide as its type says, of which a number keeps what fits (`le_bytes`). Read as
the C code reads them, they are the superblock, the inodes, the directory entries and the bitmap of
`fs5600.h` with the same contents:

* `decode_super` and `decode_inode`;
* `decode_patch`, for the directory entries that are copied into a block, and `exists_setName`,
  for their names;
* `Bitmap.bitTest_bytes`, for the bitmap, which consists of words here.
-/

namespace Cs5600

namespace DiskFmt

/-- Fields of a structure, each with its width in bytes and its number. -/
abbrev Fields := List (ℕ × ℤ)

/-- The bytes of a field. -/
def field (n : ℕ) (v : ℤ) : List UInt8 := (List.range n).map (leByte (v % 256 ^ n).toNat)

/-- The bytes of a structure. -/
def bytes (fs : Fields) : List UInt8 := fs.flatMap fun f => field f.1 f.2

/-- A block of bytes. -/
def ofBytes (bs : List UInt8) : Block := fun i => bs.getD i 0

/-- The width of fields. -/
def width (fs : Fields) : ℕ := (fs.map (·.1)).sum

variable {fs : Fields} {n off : ℕ} {v : ℤ}

theorem length_field : (field n v).length = n := by
  rw [field, List.length_map, List.length_range]

theorem length_bytes (fs : Fields) : (bytes fs).length = width fs := by
  rw [bytes, List.length_flatMap, width]
  exact congrArg List.sum (List.map_congr_left fun f _ => length_field)

theorem getElem?_field {j : ℕ} (hj : j < n) :
    (field n v)[j]? = some (leByte (v % 256 ^ n).toNat j) := by
  rw [field, List.getElem?_map, List.getElem?_range hj]
  rfl

/-- The byte `j` of a field of a structure. -/
theorem byte_bytes {k j : ℕ} (hf : fs[k]? = some (n, v)) (hoff : width (fs.take k) = off)
    (hfit : off + n ≤ 4096) (hj : j < n) :
    (ofBytes (bytes fs)).byte (off + j) = leByte (v % 256 ^ n).toNat j := by
  have hsplit : bytes fs = bytes (fs.take k) ++ (field n v ++ bytes (fs.drop (k + 1))) := by
    obtain ⟨hk, hget⟩ := List.getElem?_eq_some_iff.1 hf
    conv_lhs => rw [← List.take_append_drop k fs, List.drop_eq_getElem_cons hk, hget]
    rw [bytes, List.flatMap_append, List.flatMap_cons, ← bytes, ← bytes]
  have hlen : (bytes (fs.take k)).length = off := (length_bytes _).trans hoff
  rw [Block.byte_of_lt _ (lt_of_lt_of_le (Nat.add_lt_add_left hj off) hfit), ofBytes, hsplit,
    List.getD_eq_getElem?_getD, List.getElem?_append_right (hlen.trans_le (Nat.le_add_right off j)),
    hlen, Nat.add_sub_cancel_left, List.getElem?_append_left (by rwa [length_field]),
    getElem?_field hj]
  rfl

/-- A field is read back, as far as it fits. -/
theorem le_bytes {k : ℕ} (hf : fs[k]? = some (n, v)) (hoff : width (fs.take k) = off)
    (hfit : off + n ≤ 4096) : (ofBytes (bytes fs)).le off n = (v % 256 ^ n).toNat := by
  have hpos : (0 : ℤ) < 256 ^ n := Int.pow_pos (by decide)
  have hlt : (v % 256 ^ n).toNat < 256 ^ n := by
    have hmod := Int.emod_lt_of_pos v hpos
    have hcast : ((256 ^ n : ℕ) : ℤ) = 256 ^ n := Int.natCast_pow 256 n
    have h0 := Int.emod_nonneg v hpos.ne'
    omega
  rw [Block.le_of_leByte fun j hj => byte_bytes hf hoff hfit hj, Nat.mod_eq_of_lt hlt]

/-! ## The superblock and inodes -/

/-- `super`. -/
structure Super where
  magic : ℤ
  diskSz : ℤ

/-- The fields of `super`. -/
def Super.fields (x : Super) : Fields := [(4, x.magic), (4, x.diskSz)] ++ List.replicate 4088 (1, 0)

/-- `inode`. -/
structure Inode where
  uid : ℤ
  gid : ℤ
  mode : ℤ
  ctime : ℤ
  mtime : ℤ
  size : ℤ
  ptrs : Fin 1019 → ℤ

/-- The fields of `inode` before its pointers. -/
def Inode.attrs (x : Inode) : Fields :=
  [(2, x.uid), (2, x.gid), (4, x.mode), (4, x.ctime), (4, x.mtime), (4, x.size)]

/-- The fields of `inode`. -/
def Inode.fields (x : Inode) : Fields := x.attrs ++ List.ofFn fun k => (4, x.ptrs k)

/-- The superblock that `super` is read as. -/
theorem decode_super (x : Super) : FsSuper.decode (ofBytes (bytes x.fields)) =
    { magic := UInt32.ofInt x.magic, diskSize := UInt32.ofInt x.diskSz } := by
  have hmagic : (ofBytes (bytes x.fields)).le 0 4 = (x.magic % 256 ^ 4).toNat :=
    le_bytes (k := 0) rfl rfl (by decide)
  have hsize : (ofBytes (bytes x.fields)).le 4 4 = (x.diskSz % 256 ^ 4).toNat :=
    le_bytes (k := 1) rfl rfl (by decide)
  rw [FsSuper.decode, hmagic, hsize]
  rfl

theorem toInt32_ofInt (v : ℤ) : (UInt32.ofInt v).toInt32 = Int32.ofInt v := by
  refine Int32.toBitVec_inj.1 (BitVec.eq_of_toNat_eq ?_)
  change (v % 2 ^ 32).toNat % 2 ^ 32 = (BitVec.ofInt 32 v).toNat
  rw [BitVec.toNat_ofInt]
  omega

theorem toNat_ofInt {v : ℤ} (h0 : 0 ≤ v) (h : v < 2 ^ 32) : (UInt32.ofInt v).toNat = v.toNat := by
  rw [UInt32.ofInt, UInt32.toNat_ofNat', Int.emod_eq_of_lt h0 h]
  omega

/-- The inode that `inode` is read as. -/
theorem decode_inode (x : Inode) : FsInode.decode (ofBytes (bytes x.fields)) =
    { uid := UInt16.ofInt x.uid, gid := UInt16.ofInt x.gid, mode := UInt32.ofInt x.mode
      ctime := UInt32.ofInt x.ctime, mtime := UInt32.ofInt x.mtime, size := Int32.ofInt x.size
      ptrs := fun k => UInt32.ofInt (x.ptrs k) } := by
  have huid : (ofBytes (bytes x.fields)).le 0 2 = (x.uid % 256 ^ 2).toNat :=
    le_bytes (k := 0) rfl rfl (by decide)
  have hgid : (ofBytes (bytes x.fields)).le 2 2 = (x.gid % 256 ^ 2).toNat :=
    le_bytes (k := 1) rfl rfl (by decide)
  have hmode : (ofBytes (bytes x.fields)).le 4 4 = (x.mode % 256 ^ 4).toNat :=
    le_bytes (k := 2) rfl rfl (by decide)
  have hctime : (ofBytes (bytes x.fields)).le 8 4 = (x.ctime % 256 ^ 4).toNat :=
    le_bytes (k := 3) rfl rfl (by decide)
  have hmtime : (ofBytes (bytes x.fields)).le 12 4 = (x.mtime % 256 ^ 4).toNat :=
    le_bytes (k := 4) rfl rfl (by decide)
  have hsize : (ofBytes (bytes x.fields)).le 16 4 = (x.size % 256 ^ 4).toNat :=
    le_bytes (k := 5) rfl rfl (by decide)
  have hptr : ∀ k : Fin 1019, (ofBytes (bytes x.fields)).le (20 + 4 * k) 4 =
      (x.ptrs k % 256 ^ 4).toNat := by
    intro k
    -- Before the pointer there are the other fields, and `k` pointers.
    have hwidth : width (x.fields.take (6 + k)) = 20 + 4 * k := by
      have htake : x.fields.take (6 + k) = x.attrs ++ (List.ofFn fun k => (4, x.ptrs k)).take k :=
        @List.take_length_add_append _ x.attrs _ k
      rw [htake, width, List.map_append, List.sum_append, List.map_take, List.map_ofFn,
        Function.comp_def, List.ofFn_const, List.take_replicate, List.sum_replicate_nat,
        Nat.min_eq_left k.2.le, Nat.mul_comm]
      rfl
    refine le_bytes (k := 6 + k) ?_ hwidth (by omega)
    have hlen : x.attrs.length = 6 := rfl
    rw [Inode.fields, List.getElem?_append_right (Nat.le_add_right 6 k), hlen,
      Nat.add_sub_cancel_left, List.getElem?_ofFn, dif_pos k.2]
  simp only [FsInode.decode, huid, hgid, hmode, hctime, hmtime, hsize, hptr, ← toInt32_ofInt]
  rfl

/-! ## Directory entries -/

/-- `dirent`. -/
structure Dirent where
  valid : Bool
  inode : ℤ
  name : Fin 28 → UInt8

/-- The bytes of `dirent`: a word of two bit fields, and the name. -/
def Dirent.bytes (d : Dirent) : List UInt8 :=
  field 4 (d.valid.toNat + 2 * (d.inode % 2 ^ 31)) ++ List.ofFn d.name

/-- `dirent()`. -/
def Dirent.new : Dirent := ⟨false, 0, fun _ => 0⟩

/-- A name field after `d.name = name`. It keeps the bytes after the NUL. -/
def setName (old : Fin 28 → UInt8) (name : List UInt8) : Except PyError (Fin 28 → UInt8) :=
  let s := name.takeWhile (· ≠ 0)
  if 28 < s.length then .error .value
  else .ok fun i => if i.1 < s.length then s.getD i 0 else if i.1 = s.length then 0 else old i

/-- The directory entry that a `dirent` is read as. -/
def Dirent.toFs (d : Dirent) : FsDirent where
  valid := d.valid
  inode := ⟨(d.inode % 2 ^ 31).toNat, by omega⟩
  name := d.name

theorem Dirent.length_bytes (d : Dirent) : d.bytes.length = 32 := by
  rw [bytes, List.length_append, length_field, List.length_ofFn]

/-- A field that holds a name and a NUL after it. -/
theorem cstr_eq {field : Fin 28 → UInt8} {name : List UInt8} (hlen : name.length < 28)
    (hname : ∀ i : Fin 28, i.1 < name.length → field i = name.getD i 0)
    (hnul : field ⟨name.length, hlen⟩ = 0) (h0 : 0 ∉ name) : cstr field = name := by
  have htake : (List.ofFn field).take name.length = name := by
    refine List.ext_getElem (by simp; omega) fun i h₁ h₂ => ?_
    rw [List.getElem_take, List.getElem_ofFn, hname _ h₂, List.getD_eq_getElem _ _ h₂]
  have hdrop : (List.ofFn field).drop name.length = 0 :: (List.ofFn field).drop (name.length + 1) := by
    rw [List.drop_eq_getElem_cons (by rwa [List.length_ofFn]), List.getElem_ofFn, hnul]
  rw [cstr, ← List.take_append_drop name.length (List.ofFn field), htake, hdrop,
    List.takeWhile_append_of_pos fun a ha => ?_, List.takeWhile_cons_of_neg (by simp),
    List.append_nil]
  simpa using ne_of_mem_of_not_mem ha h0

/-- A name is read back from its field, whatever was there. -/
theorem exists_setName (old : Fin 28 → UInt8) {name : List UInt8}
    (hlen : name.length ≤ maxNameLen) :
    ∃ field, setName old name = .ok field ∧ (0 ∉ name → cstr field = name) := by
  have hlt : name.length < 28 := Nat.lt_succ_of_le hlen
  have hle := (List.takeWhile_prefix (l := name) (· ≠ 0)).length_le
  refine ⟨_, if_neg (by omega), fun h0 => ?_⟩
  have hs : name.takeWhile (· ≠ 0) = name := List.takeWhile_eq_self_iff.2 fun c hc => by
    simpa using ne_of_mem_of_not_mem hc h0
  rw [hs]
  refine cstr_eq hlt (fun i hi => if_pos hi) ?_ h0
  rw [if_neg (Nat.lt_irrefl _), if_pos rfl]

/-- Blocks with the same bytes give the same numbers. -/
theorem le_congr {b b' : Block} {off n : ℕ} (h : ∀ j < n, b.byte (off + j) = b'.byte (off + j)) :
    b.le off n = b'.le off n := by
  induction n generalizing off with
  | zero => rfl
  | succ n ih =>
    have h0 : b.byte off = b'.byte off := h 0 n.succ_pos
    have hrest : b.le (off + 1) n = b'.le (off + 1) n := ih fun j hj => by
      have hs := h (j + 1) (Nat.succ_lt_succ hj)
      rwa [← Nat.add_assoc, Nat.add_right_comm] at hs
    rw [Block.le, Block.le, h0, hrest]

/-- The directory entries after `data[j:j+32] = bytearray(de)`. -/
theorem decode_patch (b : Block) (k : Fin 128) (d : Dirent) :
    DirBlock.decode (b.patch (32 * k) d.bytes) =
      Function.update (DirBlock.decode b) k d.toFs := by
  have hbyte : ∀ i, (b.patch (32 * k) d.bytes).byte i =
      if 32 * k ≤ i ∧ i < 32 * k + 32 then d.bytes.getD (i - 32 * k) 0 else b.byte i := by
    intro i
    rw [Block.byte_patch (by rw [d.length_bytes]; omega), d.length_bytes]
  funext l
  by_cases hl : l = k
  · subst hl
    -- The bytes of the entry are those that were copied.
    have hcopied : ∀ j < 32, (b.patch (32 * l) d.bytes).byte (32 * l + j) = d.bytes.getD j 0 :=
      fun j hj => by rw [hbyte, if_pos (by omega), Nat.add_sub_cancel_left]
    have hword : (b.patch (32 * l) d.bytes).le (32 * l) 4 =
        (d.valid.toNat + 2 * (d.inode % 2 ^ 31)).toNat := by
      have hle := d.valid.toNat_le
      have hfield : ∀ j < 4, (b.patch (32 * l) d.bytes).byte (32 * l + j) =
          leByte ((d.valid.toNat + 2 * (d.inode % 2 ^ 31)) % 256 ^ 4).toNat j := by
        intro j hj
        rw [hcopied j (by omega), Dirent.bytes, List.getD_eq_getElem?_getD,
          List.getElem?_append_left (by rwa [length_field]), getElem?_field hj]
        rfl
      rw [Block.le_of_leByte hfield]
      omega
    have hname : ∀ j : Fin 28, (b.patch (32 * l) d.bytes).byte (32 * l + 4 + j) = d.name j := by
      intro j
      rw [Nat.add_assoc, hcopied _ (by omega), Dirent.bytes, List.getD_eq_getElem?_getD,
        List.getElem?_append_right (by rw [length_field]; omega), length_field,
        Nat.add_sub_cancel_left, List.getElem?_ofFn, dif_pos j.2]
      rfl
    have hle := d.valid.toNat_le
    have hvalid : decide ((d.valid.toNat + 2 * (d.inode % 2 ^ 31)).toNat % 2 = 1) = d.valid := by
      cases d.valid <;> simp only [Bool.toNat_true, Bool.toNat_false, decide_eq_true_eq,
        decide_eq_false_iff_not] <;> omega
    rw [Function.update_self, DirBlock.decode, Dirent.toFs]
    simp only [hword, hname, hvalid, FsDirent.mk.injEq, true_and, and_true, Fin.mk.injEq]
    omega
  · have hne : l.1 ≠ k.1 := fun h => hl (Fin.ext h)
    have hsame : ∀ j < 32, (b.patch (32 * k) d.bytes).byte (32 * l + j) = b.byte (32 * l + j) :=
      fun j hj => by rw [hbyte, if_neg (by omega)]
    have hword := le_congr fun j hj => hsame j (lt_of_lt_of_le hj (by decide : 4 ≤ 32))
    have hname : ∀ j : Fin 28, (b.patch (32 * k) d.bytes).byte (32 * l + 4 + j) =
        b.byte (32 * l + 4 + j) := fun j => by rw [Nat.add_assoc, hsame _ (by omega)]
    rw [Function.update_of_ne hl, DirBlock.decode, DirBlock.decode]
    simp only [hword, hname]

/-! ## The bitmap -/

/-- `bitmap`: its 32-bit words. -/
abbrev Bitmap := ℕ → ℕ

namespace Bitmap

variable (m : Bitmap)

/-- The fields of `bitmap`. -/
def fields : Fields := (List.range 1024).map fun w => (4, (m w : ℤ))

/-- `bitmap.get`. -/
def get (i : ℤ) : Except PyError Bool := do
  let w ← Py.index 1024 (i / 32)
  pure (m w &&& 1 <<< (i % 32).toNat != 0)

/-- `bitmap.set`. -/
def set (i : ℤ) (val : Bool) : Except PyError Bitmap := do
  let w ← Py.index 1024 (i / 32)
  let mask := 1 <<< (i % 32).toNat
  pure (Function.update m w (if val then m w ||| mask else m w &&& (mask ^^^ 0xffffffff)))

/-- The bit `i`. -/
def bit (i : ℕ) : Bool := (m (i / 32)).testBit (i % 32)

/-- The bitmap with the bit `i` set. -/
def mark (i : ℕ) : Bitmap := Function.update m (i / 32) (m (i / 32) ||| 1 <<< (i % 32))

variable {m} {i j : ℕ}

theorem set_true (hi : i < 32768) : m.set i true = .ok (m.mark i) := by
  have hw : Py.index 1024 ((i : ℤ) / 32) = .ok (i / 32) := Py.index_of_lt (i := i / 32) (by omega)
  rw [set, hw]
  rfl

theorem exists_get (hi : i < 32768) : ∃ r, m.get i = .ok r := by
  have hw : Py.index 1024 ((i : ℤ) / 32) = .ok (i / 32) := Py.index_of_lt (i := i / 32) (by omega)
  rw [get, hw]
  exact ⟨_, rfl⟩

theorem bit_mark : (m.mark i).bit j = (decide (i = j) || m.bit j) := by
  rw [bit, bit, mark]
  by_cases hw : j / 32 = i / 32
  · have hij : decide (i = j) = decide (i % 32 = j % 32) := by
      rw [decide_eq_decide]
      omega
    rw [hw, Function.update_self, Nat.testBit_or, Nat.one_shiftLeft, Nat.testBit_two_pow, hij,
      Bool.or_comm]
  · rw [Function.update_of_ne hw, decide_eq_false fun h => hw (by rw [h]), Bool.false_or]

/-- The words of the bitmap are read as bytes. -/
theorem bitTest_bytes (hi : i < 32768) : bitTest (ofBytes (bytes m.fields)) i = m.bit i := by
  have hword : m.fields[i / 32]? = some (4, (m (i / 32) : ℤ)) := by
    rw [fields, List.getElem?_map, List.getElem?_range (by omega)]
    rfl
  have hoff : width (m.fields.take (i / 32)) = 4 * (i / 32) := by
    rw [width, fields, List.map_take, List.map_map, Function.comp_def, List.map_const',
      List.take_replicate, List.sum_replicate_nat, List.length_range, Nat.min_eq_left (by omega),
      Nat.mul_comm]
  have hbyte := byte_bytes hword hoff (by omega) (j := i / 8 % 4) (Nat.mod_lt _ (by decide))
  have hplace : 4 * (i / 32) + i / 8 % 4 = i / 8 := by omega
  have hval : ((m (i / 32) : ℤ) % 256 ^ 4).toNat = m (i / 32) % 2 ^ 32 := by omega
  rw [hplace, hval] at hbyte
  -- The bit of the byte is that of the word.
  have hshift : 8 * (i / 8 % 4) + i % 8 = i % 32 := by omega
  rw [bitTest_eq_testBit, bit, hbyte, leByte, UInt8.toNat_ofNat', show 256 = 2 ^ 8 from rfl,
    ← Nat.pow_mul, Nat.testBit_mod_two_pow, Nat.testBit_div_two_pow, Nat.testBit_mod_two_pow,
    Nat.add_comm (i % 8), hshift, decide_eq_true (Nat.mod_lt i (by decide : 0 < 8)),
    decide_eq_true (Nat.mod_lt i (by decide : 0 < 32)), Bool.true_and, Bool.true_and]

end Bitmap

end DiskFmt

end Cs5600
