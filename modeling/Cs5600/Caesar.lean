import Mathlib.Data.List.Forall2
import Mathlib.Data.UInt
import Mathlib.Tactic.Common

/-!
# The Caesar cipher

`encode` and `decode` of `caesar.c`, which shift the letters of a string where it is in
memory. The remainder of C has the sign of its operand, so the shift wraps around
in one direction only. Keys are numbers with which no `int` overflows.

A letter is encoded as a letter, and decoded again, if the key moves it neither too
far below `A` nor more than once around the alphabet (`shifts_iff`). So a string comes
back, in capitals, if and only if this holds of its letters (`decode_encode_iff`).
-/

namespace Cs5600.Caesar

/-- `toupper`. -/
def toupper (c : UInt8) : UInt8 := if 97 ≤ c ∧ c ≤ 122 then c - 32 else c

/-- The letters from `A` to `Z`. -/
def Capital (c : UInt8) : Prop := 65 ≤ c ∧ c ≤ 90

instance instDecidableCapital (c : UInt8) : Decidable (Capital c) :=
  inferInstanceAs (Decidable (_ ∧ _))

/-- A letter. -/
def Letter (c : UInt8) : Prop := Capital (toupper c)

instance instDecidableLetter (c : UInt8) : Decidable (Letter c) :=
  inferInstanceAs (Decidable (Capital _))

/-- The loop body of `encode`. -/
def encodeChar (key : ℤ) (c : UInt8) : UInt8 :=
  let ch := toupper c
  if Capital ch then UInt8.ofInt ((ch.toNat - 65 + key).tmod 26 + 65) else c

/-- The loop body of `decode`. -/
def decodeChar (key : ℤ) (c : UInt8) : UInt8 :=
  let ch := toupper c
  if Capital ch then UInt8.ofInt ((ch.toNat - 65 - key + 26).tmod 26 + 65) else c

/-- A loop over a string in memory, up to the NUL. -/
def mapString (f : UInt8 → UInt8) : List UInt8 → List UInt8
  | [] => []
  | c :: cs => if c = 0 then c :: cs else f c :: mapString f cs

/-- `encode`. -/
def encode (text : List UInt8) (key : ℤ) : List UInt8 := mapString (encodeChar key) text

/-- `decode`. -/
def decode (text : List UInt8) (key : ℤ) : List UInt8 := mapString (decodeChar key) text

/-! ## Letters -/

/-- The place of a letter in the alphabet, from 0 on. -/
def place (c : UInt8) : ℤ := (toupper c).toNat - 65

/-- The letter `c` is moved by `key` neither to what is not a letter, nor more than once around the
    alphabet. -/
def Shifts (key : ℤ) (c : UInt8) : Prop :=
  (0 ≤ place c + key ∨ 26 ∣ place c + key) ∧ (place c + key < 52 ∨ place c = 0)

instance instDecidableShifts (key : ℤ) (c : UInt8) : Decidable (Shifts key c) :=
  inferInstanceAs (Decidable (_ ∧ _))

variable {key : ℤ} {c : UInt8}

theorem toNat_ofInt {v : ℤ} (h0 : 0 ≤ v) (h : v < 256) : ((UInt8.ofInt v).toNat : ℤ) = v := by
  rw [UInt8.ofInt, UInt8.toNat_ofNat']
  omega

theorem capital_iff : Capital c ↔ 65 ≤ c.toNat ∧ c.toNat ≤ 90 := by
  rw [Capital, UInt8.le_iff_toNat_le, UInt8.le_iff_toNat_le]
  rfl

theorem toNat_toupper (c : UInt8) : (toupper c).toNat =
    if 97 ≤ c.toNat ∧ c.toNat ≤ 122 then c.toNat - 32 else c.toNat := by
  rw [toupper]
  have hiff : 97 ≤ c ∧ c ≤ 122 ↔ 97 ≤ c.toNat ∧ c.toNat ≤ 122 := by
    rw [UInt8.le_iff_toNat_le, UInt8.le_iff_toNat_le]
    rfl
  split_ifs with h h' h'
  · have hle : 32 ≤ c := UInt8.le_iff_toNat_le.2 (le_trans (by decide) h'.1)
    rw [UInt8.toNat_sub_of_le _ _ hle]
    rfl
  · exact absurd (hiff.1 h) h'
  · exact absurd (hiff.2 h') h
  · rfl

theorem toupper_of_capital (h : Capital c) : toupper c = c := by
  rw [capital_iff] at h
  rw [← UInt8.toNat_inj, toNat_toupper, if_neg (by omega)]

theorem toupper_of_not_letter (h : ¬ Letter c) : toupper c = c := by
  rw [Letter, capital_iff, toNat_toupper] at h
  rw [← UInt8.toNat_inj, toNat_toupper]
  split_ifs at h ⊢ with hc
  · omega
  · rfl

theorem encodeChar_of_not_letter (h : ¬ Letter c) : encodeChar key c = c := if_neg h

theorem decodeChar_of_not_letter (h : ¬ Letter c) : decodeChar key c = c := if_neg h

/-- The remainder of C by 26. -/
theorem tmod_eq (v : ℤ) : v.tmod 26 = v % 26 - if 0 ≤ v ∨ 26 ∣ v then 0 else 26 := by
  rw [Int.tmod_eq_emod]
  split_ifs <;> rfl

/-- The place of a letter is less than 26. -/
theorem place_bounds (h : Letter c) : 0 ≤ place c ∧ place c < 26 := by
  rw [Letter, capital_iff] at h
  rw [place]
  omega

theorem toNat_ofInt_tmod (v : ℤ) :
    ((UInt8.ofInt (v.tmod 26 + 65)).toNat : ℤ) = v.tmod 26 + 65 := by
  have hmod := tmod_eq v
  split_ifs at hmod
  · exact toNat_ofInt (by omega) (by omega)
  · exact toNat_ofInt (by omega) (by omega)

/-- The number of an encoded letter. -/
theorem toNat_encodeChar (key : ℤ) (h : Letter c) :
    ((encodeChar key c).toNat : ℤ) = (place c + key).tmod 26 + 65 := by
  have hencode : encodeChar key c = UInt8.ofInt ((place c + key).tmod 26 + 65) := if_pos h
  rw [hencode, toNat_ofInt_tmod]

theorem toNat_decodeChar (key : ℤ) (h : Letter c) :
    ((decodeChar key c).toNat : ℤ) = (place c - key + 26).tmod 26 + 65 := by
  have hdecode : decodeChar key c = UInt8.ofInt ((place c - key + 26).tmod 26 + 65) := if_pos h
  rw [hdecode, toNat_ofInt_tmod]

/-- A letter is encoded as a letter if and only if it does not get below `A`. -/
theorem capital_encodeChar (h : Letter c) :
    Capital (encodeChar key c) ↔ 0 ≤ place c + key ∨ 26 ∣ place c + key := by
  have hbounds := place_bounds h
  have hencode := toNat_encodeChar key h
  have hmod := tmod_eq (place c + key)
  rw [capital_iff]
  split_ifs at hmod with hkey
  · exact iff_of_true (by omega) hkey
  · exact iff_of_false (by omega) hkey

/-- A letter is encoded as a letter, which is decoded, if and only if the key does not move it too
    far. -/
theorem shifts_iff (h : Letter c) :
    Capital (encodeChar key c) ∧ decodeChar key (encodeChar key c) = toupper c ↔ Shifts key c := by
  rw [Shifts, capital_encodeChar h]
  refine and_congr_right fun hkey => ?_
  have hcapital := (capital_encodeChar h).2 hkey
  have hbounds := place_bounds h
  have hencode := toNat_encodeChar key h
  have hplace : place (encodeChar key c) = (place c + key) % 26 := by
    rw [place, toupper_of_capital hcapital, hencode, tmod_eq, if_pos hkey]
    omega
  have hletter : Letter (encodeChar key c) := by
    rw [Letter, toupper_of_capital hcapital]
    exact hcapital
  have hdecode := toNat_decodeChar key hletter
  have hmod := tmod_eq (place (encodeChar key c) - key + 26)
  have hupper : ((toupper c).toNat : ℤ) = place c + 65 := by
    rw [place]
    omega
  rw [← UInt8.toNat_inj, ← Int.ofNat_inj, hdecode, hupper]
  rw [hplace] at hmod ⊢
  -- The letter is decoded if the difference of its place and the key does not get below `A`.
  split_ifs at hmod with hback
  · exact iff_of_true (by omega) (by omega)
  · exact iff_of_false (by omega) (by omega)

/-! ## Strings -/

theorem mapString_append {f : UInt8 → UInt8} {s : List UInt8} (h0 : 0 ∉ s) (tail : List UInt8) :
    mapString f (s ++ 0 :: tail) = s.map f ++ 0 :: tail := by
  induction s with
  | nil => rfl
  | cons c s ih =>
    obtain ⟨hc, h0⟩ := not_or.1 (List.mem_cons.not.1 h0)
    rw [List.cons_append, mapString, if_neg (Ne.symm hc), ih h0]
    rfl

/-- The string `s` in memory, with `tail` after its NUL, is encoded as a string with letters from
    `A` to `Z` for its letters and no others, which is decoded as `s` in capitals. -/
def RoundTrips (key : ℤ) (s tail : List UInt8) : Prop :=
  ∃ e, encode (s ++ 0 :: tail) key = e ++ 0 :: tail ∧
    List.Forall₂ (fun c d => (Letter c → Capital d) ∧ (¬ Letter c → ¬ Letter d)) s e ∧
    decode (e ++ 0 :: tail) key = s.map toupper ++ 0 :: tail

/-- No NUL is encoded. -/
theorem encodeChar_ne_zero (hc : c ≠ 0) : encodeChar key c ≠ 0 := by
  by_cases hletter : Letter c
  · have hbounds := place_bounds hletter
    have hencode := toNat_encodeChar key hletter
    have hmod := tmod_eq (place c + key)
    intro hzero
    rw [hzero, show (0 : UInt8).toNat = 0 from rfl] at hencode
    split_ifs at hmod <;> omega
  · rwa [encodeChar_of_not_letter hletter]

theorem zero_notMem_encode {s : List UInt8} (h0 : 0 ∉ s) : 0 ∉ s.map (encodeChar key) := by
  rw [List.mem_map]
  rintro ⟨c, hc, hzero⟩
  exact encodeChar_ne_zero (ne_of_mem_of_not_mem hc h0) hzero

/-- What becomes of one character of a string that comes back. -/
theorem char_iff : ((Letter c → Capital (encodeChar key c)) ∧
    (¬ Letter c → ¬ Letter (encodeChar key c))) ∧ decodeChar key (encodeChar key c) = toupper c ↔
    (Letter c → Shifts key c) := by
  by_cases h : Letter c
  · rw [← shifts_iff h]
    constructor
    · rintro ⟨⟨hcapital, -⟩, hdecode⟩ -
      exact ⟨hcapital h, hdecode⟩
    · intro hshifts
      obtain ⟨hcapital, hdecode⟩ := hshifts h
      exact ⟨⟨fun _ => hcapital, fun hnot => absurd h hnot⟩, hdecode⟩
  · refine iff_of_true ⟨⟨fun hletter => absurd hletter h, fun _ => ?_⟩, ?_⟩
      (fun hletter => absurd hletter h)
    · rwa [encodeChar_of_not_letter h]
    · rw [encodeChar_of_not_letter h, decodeChar_of_not_letter h, toupper_of_not_letter h]

/-- A string comes back if and only if the key moves none of its letters too far. -/
theorem decode_encode_iff {s : List UInt8} (h0 : 0 ∉ s) (tail : List UInt8) :
    RoundTrips key s tail ↔ ∀ c ∈ s, Letter c → Shifts key c := by
  have hencode : encode (s ++ 0 :: tail) key = s.map (encodeChar key) ++ 0 :: tail :=
    mapString_append h0 tail
  have hdecode : decode (s.map (encodeChar key) ++ 0 :: tail) key =
      (s.map (encodeChar key)).map (decodeChar key) ++ 0 :: tail :=
    mapString_append (zero_notMem_encode h0) tail
  have hchars : RoundTrips key s tail ↔
      List.Forall₂ (fun c d => (Letter c → Capital d) ∧ (¬ Letter c → ¬ Letter d)) s
        (s.map (encodeChar key)) ∧
      (s.map (encodeChar key)).map (decodeChar key) = s.map toupper := by
    constructor
    · rintro ⟨e, he, hletters, hback⟩
      obtain rfl := List.append_cancel_right (hencode.symm.trans he)
      exact ⟨hletters, List.append_cancel_right (hdecode.symm.trans hback)⟩
    · rintro ⟨hletters, hback⟩
      exact ⟨_, hencode, hletters, by rw [hdecode, hback]⟩
  rw [hchars, List.forall₂_map_right_iff, List.forall₂_same, List.map_map, List.map_inj_left,
    ← forall₂_and]
  exact forall₂_congr fun c _ => char_iff

/-- `Hi` comes back with the key 3. -/
theorem decode_encode_iff_hi : RoundTrips 3 [72, 105] [] :=
  (decode_encode_iff (by decide) []).2
    (List.forall_mem_cons.2 ⟨by decide, List.forall_mem_singleton.2 (by decide)⟩)

/-- With the key -1, the letter `A` becomes `@`. -/
theorem exists_not_roundTrips : ∃ (s : List UInt8) (key : ℤ), 0 ∉ s ∧ (∀ c ∈ s, c < 128) ∧
    ¬ RoundTrips key s [] := by
  refine ⟨[65], -1, by decide, List.forall_mem_singleton.2 (by decide), ?_⟩
  rintro ⟨e, he, hletters, -⟩
  have hencode : encode [65, 0] (-1) = [64, 0] := by decide
  obtain rfl : [64] = e := List.append_cancel_right (hencode.symm.trans he)
  rw [List.forall₂_cons] at hletters
  exact absurd (hletters.1.1 (by decide)) (by decide)

end Cs5600.Caesar
