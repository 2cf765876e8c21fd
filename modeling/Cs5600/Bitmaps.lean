import Cs5600.DiskFmt
import Cs5600.FreeSpace

/-!
# Two ways to read the bitmap

`homework.c` reads the bitmap as bytes, and `bitmap` of `diskfmt.py` as 32-bit words, which
are little-endian. A bit of a word is a bit of one of its bytes (`testBit_le`), so both read
the same set of numbers from a block, and change the block in the same way
(`bitmaps_agree`).
-/

namespace Cs5600

/-- A bit of a little-endian number is a bit of one of its bytes. -/
theorem testBit_le (b : Block) {off n k : ℕ} (hk : k < 8 * n) :
    (b.le off n).testBit k = (b.byte (off + k / 8)).toNat.testBit (k % 8) := by
  induction n generalizing off k with
  | zero => omega
  | succ n ih =>
    have hle : b.le off (n + 1) = 2 ^ 8 * b.le (off + 1) n + (b.byte off).toNat := Nat.add_comm _ _
    rw [hle, Nat.testBit_two_pow_mul_add _ (b.byte off).toNat_lt]
    split_ifs with hfirst
    · rw [Nat.div_eq_of_lt hfirst, Nat.mod_eq_of_lt hfirst, Nat.add_zero]
    · rw [ih (by omega), show off + 1 + (k - 8) / 8 = off + k / 8 by omega,
        show (k - 8) % 8 = k % 8 by omega]

namespace DiskFmt.Bitmap

/-- The words of a block. -/
def ofBlock (b : Block) : Bitmap := fun w => b.le (4 * w) 4

/-- The block of a bitmap. -/
def toBlock (m : Bitmap) : Block := ofBytes (bytes m.fields)

/-- The bitmap with the bit `i` cleared. -/
def unmark (m : Bitmap) (i : ℕ) : Bitmap :=
  Function.update m (i / 32) (m (i / 32) &&& (1 <<< (i % 32) ^^^ 0xffffffff))

variable {m : Bitmap} {b : Block} {i j : ℕ}

theorem get_eq (hi : i < 32768) : m.get i = .ok (m.bit i) := by
  have hw : Py.index 1024 ((i : ℤ) / 32) = .ok (i / 32) := Py.index_of_lt (i := i / 32) (by omega)
  have hget : m.get i = .ok (m (i / 32) &&& 1 <<< (i % 32) != 0) := by
    rw [get, hw]
    rfl
  rw [hget, bit, Nat.one_shiftLeft, Nat.and_two_pow]
  cases (m (i / 32)).testBit (i % 32) with
  | true => rw [Bool.toNat_true, Nat.one_mul, bne_iff_ne.2 (Nat.two_pow_pos _).ne']
  | false => rw [Bool.toNat_false, Nat.zero_mul, bne_self_eq_false]

theorem set_false (hi : i < 32768) : m.set i false = .ok (m.unmark i) := by
  have hw : Py.index 1024 ((i : ℤ) / 32) = .ok (i / 32) := Py.index_of_lt (i := i / 32) (by omega)
  rw [set, hw]
  rfl

theorem bit_unmark : (m.unmark i).bit j = (!decide (i = j) && m.bit j) := by
  rw [bit, bit, unmark]
  by_cases hw : j / 32 = i / 32
  · have hij : decide (i = j) = decide (i % 32 = j % 32) := by
      rw [decide_eq_decide]
      omega
    rw [hw, Function.update_self, Nat.testBit_and, Nat.testBit_xor, Nat.one_shiftLeft,
      Nat.testBit_two_pow, hij, show 0xffffffff = 2 ^ 32 - 1 from rfl, Nat.testBit_two_pow_sub_one,
      decide_eq_true (Nat.mod_lt j (by decide : 0 < 32)), Bool.xor_true, Bool.and_comm]
  · rw [Function.update_of_ne hw, decide_eq_false fun h => hw (by rw [h]), Bool.not_false,
      Bool.true_and]

/-- The bits of the words are those of the bytes. -/
theorem bit_ofBlock : (ofBlock b).bit i = bitTest b i := by
  rw [bit, ofBlock, testBit_le b (Nat.mod_lt i (by decide)), bitTest_eq_testBit,
    show 4 * (i / 32) + i % 32 / 8 = i / 8 by omega, show i % 32 % 8 = i % 8 by omega]

/-- A bitmap has the bits of a block if it is written as that block. -/
theorem toBlock_eq (h : ∀ i < 32768, m.bit i = bitTest b i) : m.toBlock = b := by
  refine Block.ext_bitTest fun i => ?_
  by_cases hi : i < 32768
  · rw [toBlock, bitTest_bytes hi, h i hi]
  · -- There are no such bytes.
    have hbyte : ∀ b : Block, b.byte (i / 8) = 0 := fun b => dif_neg (by omega)
    rw [bitTest_eq_testBit, bitTest_eq_testBit, hbyte, hbyte]

/-- A block that is read is written back as it was. -/
theorem toBlock_ofBlock (b : Block) : (ofBlock b).toBlock = b := toBlock_eq fun _ _ => bit_ofBlock

theorem toBlock_mark (hi : i < 32768) : ((ofBlock b).mark i).toBlock = bitSet b i :=
  toBlock_eq fun j _ => by rw [bit_mark, bit_ofBlock, bitTest_bitSet hi]

theorem toBlock_unmark (hi : i < 32768) : ((ofBlock b).unmark i).toBlock = bitClear b i :=
  toBlock_eq fun j _ => by rw [bit_unmark, bit_ofBlock, bitTest_bitClear hi]

/-- Both read the same bits, and set and clear a bit of the block in the same way, which changes no
    other bit. -/
theorem bitmaps_agree (b : Block) {i : ℕ} (hi : i < 32768) (j : ℕ) :
    (ofBlock b).toBlock = b ∧ (ofBlock b).get i = .ok (bitTest b i) ∧
      (∃ m, (ofBlock b).set i true = .ok m ∧ m.toBlock = bitSet b i) ∧
      (∃ m, (ofBlock b).set i false = .ok m ∧ m.toBlock = bitClear b i) ∧
      (bitTest (bitSet b i) j ≠ bitTest b j → j = i) ∧ bitTest (bitSet b i) i = true ∧
      (bitTest (bitClear b i) j ≠ bitTest b j → j = i) ∧ bitTest (bitClear b i) i = false := by
  refine ⟨toBlock_ofBlock b, ?_, ⟨_, set_true hi, toBlock_mark hi⟩,
    ⟨_, set_false hi, toBlock_unmark hi⟩, fun hne => ?_, ?_, fun hne => ?_, ?_⟩
  · rw [get_eq hi, bit_ofBlock]
  · by_contra hji
    rw [bitTest_bitSet hi, decide_eq_false (Ne.symm hji), Bool.false_or] at hne
    exact hne rfl
  · rw [bitTest_bitSet hi, decide_eq_true rfl, Bool.true_or]
  · by_contra hji
    rw [bitTest_bitClear hi, decide_eq_false (Ne.symm hji), Bool.not_false, Bool.true_and] at hne
    exact hne rfl
  · rw [bitTest_bitClear hi, decide_eq_true rfl, Bool.not_true, Bool.false_and]

/-- A block in which the bits 3 and 40 are set. -/
def twoBits : Block := bitSet (bitSet Block.zero 3) 40

/-- Bit 40 is read, set and cleared, and bit 3 stays as it is. -/
theorem bitmaps_agree_twoBits : (ofBlock twoBits).toBlock = twoBits ∧
    (ofBlock twoBits).get (40 : ℕ) = .ok true ∧
    (∃ m, (ofBlock twoBits).set (40 : ℕ) true = .ok m ∧ m.toBlock = bitSet twoBits 40) ∧
    (∃ m, (ofBlock twoBits).set (40 : ℕ) false = .ok m ∧ m.toBlock = bitClear twoBits 40) ∧
    bitTest (bitSet twoBits 40) 3 = true ∧ bitTest (bitSet twoBits 40) 40 = true ∧
    bitTest (bitClear twoBits 40) 3 = true ∧ bitTest (bitClear twoBits 40) 40 = false := by
  obtain ⟨hblock, hget, hset, hclear, hset', hself, hclear', hself'⟩ :=
    bitmaps_agree twoBits (i := 40) (by decide) 3
  have hbits : bitTest twoBits 40 = true ∧ bitTest twoBits 3 = true := by decide +kernel
  rw [hbits.1] at hget
  rw [hbits.2] at hset' hclear'
  refine ⟨hblock, hget, hset, hclear, ?_, hself, ?_, hself'⟩
  · by_contra hne
    exact absurd (hset' hne) (by decide)
  · by_contra hne
    exact absurd (hclear' hne) (by decide)

end DiskFmt.Bitmap

end Cs5600
