import Mathlib.Data.List.GetD
import Mathlib.Data.List.OfFn
import Mathlib.Data.List.TakeWhile
import Mathlib.Data.UInt
import Mathlib.Tactic.Ring

/-!
# Text in C

A string in memory ends at the first NUL (`cString`), whatever follows it there. In
a field of fixed size, it is padded with NULs, or cut off (`strncpy`).

The text of a number is what `printf` writes for `%d`, and `atoi` reads it. It reads
the decimal text of a number as the number (`atoi_decimal`), if no digit follows it.
-/

namespace CText

/-! ## Strings -/

/-- The C string at the beginning of bytes: those before the first NUL. -/
def cString (bytes : List UInt8) : List UInt8 := bytes.takeWhile (· ≠ 0)

/-- What `strncpy` makes of a field: the C string, cut off at the end of the field or padded. -/
def strncpy {size : ℕ} (src : List UInt8) : Fin size → UInt8 := fun i => (cString src).getD i 0

theorem cString_eq_self {bytes : List UInt8} (h : 0 ∉ bytes) : cString bytes = bytes := by
  refine List.takeWhile_eq_self_iff.2 fun b hb => ?_
  simpa using ne_of_mem_of_not_mem hb h

theorem cString_append_of_notMem {bytes : List UInt8} (h : 0 ∉ bytes) (rest : List UInt8) :
    cString (bytes ++ rest) = bytes ++ cString rest :=
  List.takeWhile_append_of_pos fun b hb => by simpa using ne_of_mem_of_not_mem hb h

theorem cString_append_nul {bytes rest : List UInt8} (h : 0 ∉ bytes) :
    cString (bytes ++ 0 :: rest) = bytes := by
  rw [cString_append_of_notMem h, cString, List.takeWhile_cons_of_neg (by simp), List.append_nil]

theorem nul_notMem_cString (bytes : List UInt8) : 0 ∉ cString bytes := fun h => by
  simpa using List.mem_takeWhile_imp h

/-- Bytes that are more than their C string have a NUL after it. -/
theorem exists_eq_cString_append {bytes : List UInt8} (h : (cString bytes).length < bytes.length) :
    ∃ rest, bytes = cString bytes ++ 0 :: rest := by
  have hsplit := List.takeWhile_append_dropWhile (p := (· ≠ 0)) (l := bytes)
  cases hd : bytes.dropWhile (· ≠ 0) with
  | nil =>
    rw [hd, List.append_nil] at hsplit
    exact absurd (congrArg List.length hsplit) h.ne
  | cons b rest =>
    have hb := List.head?_dropWhile_not (· ≠ 0) bytes
    rw [hd] at hb
    obtain rfl : b = 0 := by simpa using hb
    rw [hd] at hsplit
    exact ⟨rest, hsplit.symm⟩

theorem length_cString_lt {bytes : List UInt8} (h : 0 ∈ bytes) :
    (cString bytes).length < bytes.length := by
  have hpre : cString bytes <+: bytes := List.takeWhile_prefix _
  refine lt_of_le_of_ne hpre.length_le fun heq => nul_notMem_cString bytes ?_
  rwa [hpre.eq_of_length heq]

/-- What follows the NUL does not matter. -/
theorem cString_append {bytes : List UInt8} (h : (cString bytes).length < bytes.length)
    (rest : List UInt8) : cString (bytes ++ rest) = cString bytes := by
  obtain ⟨pad, hpad⟩ := exists_eq_cString_append h
  have hnul := nul_notMem_cString bytes
  generalize cString bytes = c at hpad hnul ⊢
  rw [hpad, List.append_assoc, List.cons_append, cString_append_nul hnul]

/-- What is before a NUL has the same string. -/
theorem cString_append_cons (bytes rest : List UInt8) :
    cString (bytes ++ 0 :: rest) = cString bytes := by
  by_cases h : 0 ∈ bytes
  · exact cString_append (length_cString_lt h) (0 :: rest)
  · rw [cString_append_nul h, cString_eq_self h]

/-- A field has as much of a string as there is room for, and NULs after it. -/
theorem ofFn_strncpy_take (src : List UInt8) (size : ℕ) :
    List.ofFn (strncpy src : Fin size → UInt8) =
      (cString src).take size ++ List.replicate (size - (cString src).length) 0 := by
  refine List.ext_getElem (by simp; omega) fun i h₁ h₂ => ?_
  rw [List.length_ofFn] at h₁
  rw [List.getElem_ofFn, strncpy]
  by_cases hi : i < (cString src).length
  · rw [List.getElem_append_left (by rw [List.length_take]; omega), List.getElem_take,
      List.getD_eq_getElem _ _ hi]
  · rw [List.getElem_append_right (by rw [List.length_take]; omega), List.getElem_replicate,
      List.getD_eq_default _ _ (not_lt.1 hi)]

/-- A field that is longer than a string has the string, and NULs after it. -/
theorem ofFn_strncpy {src : List UInt8} {size : ℕ} (h : (cString src).length ≤ size) :
    List.ofFn (strncpy src : Fin (size + 1) → UInt8) =
      cString src ++ 0 :: List.replicate (size - (cString src).length) 0 := by
  rw [ofFn_strncpy_take, List.take_of_length_le (by omega), Nat.succ_sub h, List.replicate_succ]

/-- The string in a field is cut off at its end. -/
theorem cString_strncpy (src : List UInt8) (size : ℕ) :
    cString (List.ofFn (strncpy src : Fin size → UInt8)) = (cString src).take size := by
  have hnul : 0 ∉ (cString src).take size := fun h =>
    nul_notMem_cString src (List.mem_of_mem_take h)
  rw [ofFn_strncpy_take]
  cases size - (cString src).length with
  | zero => rw [List.replicate_zero, List.append_nil, cString_eq_self hnul]
  | succ n => rw [List.replicate_succ, cString_append_nul hnul]

/-! ## Numbers -/

/-- `isspace`. -/
def isSpace (b : UInt8) : Bool := b == 32 || (9 ≤ b && b ≤ 13)

/-- `isdigit`. -/
def isDigit (b : UInt8) : Bool := 48 ≤ b && b ≤ 57

/-- The decimal text of a natural number. -/
def decimal (n : ℕ) : List UInt8 := (Nat.toDigits 10 n).map Char.toUInt8

/-- What `printf` writes for `%d`. -/
def formatInt : ℤ → List UInt8
  | .ofNat n => decimal n
  | .negSucc n => 45 :: decimal (n + 1)

/-- The number of the digits at the beginning of bytes. -/
def digitsValue (bytes : List UInt8) : ℕ :=
  (bytes.takeWhile isDigit).foldl (fun v b => 10 * v + (b.toNat - 48)) 0

/-- `strtol`, to the base 10, for a `long` of 64 bits. -/
def strtol (bytes : List UInt8) : ℤ :=
  match bytes.dropWhile isSpace with
  | 45 :: digits => max (-2 ^ 63) (-digitsValue digits)
  | 43 :: digits => min (2 ^ 63 - 1) (digitsValue digits)
  | digits => min (2 ^ 63 - 1) (digitsValue digits)

/-- `atoi`: the `long` that `strtol` returns, as an `int` of 32 bits. -/
def atoi (bytes : List UInt8) : ℤ := (strtol bytes).bmod (2 ^ 32)

theorem not_isSpace_of_isDigit {b : UInt8} (hb : isDigit b) : ¬isSpace b := by
  rw [isDigit, Bool.and_eq_true, decide_eq_true_eq, decide_eq_true_eq] at hb
  rw [isSpace, Bool.or_eq_true, Bool.and_eq_true, decide_eq_true_eq, decide_eq_true_eq, beq_iff_eq]
  rintro (rfl | ⟨_, hle⟩)
  · exact absurd hb.1 (by decide)
  · exact absurd (UInt8.le_trans hb.1 hle) (by decide)

/-- Digits are read as their number, unless it is too large. -/
theorem strtol_digits {digits : List UInt8} (h : ∀ b ∈ digits, isDigit b) :
    strtol digits = min (2 ^ 63 - 1) (digitsValue digits : ℤ) := by
  cases digits with
  | nil => rfl
  | cons b bs =>
    have hb := h b List.mem_cons_self
    rw [strtol, List.dropWhile_cons_of_neg (not_isSpace_of_isDigit hb)]
    split
    · next heq =>
      obtain ⟨rfl, _⟩ := List.cons.inj heq
      cases hb
    · next heq =>
      obtain ⟨rfl, _⟩ := List.cons.inj heq
      cases hb
    · rfl

/-- Nines at the end of a number. -/
theorem le_foldl_nines (v n : ℕ) :
    (v + 1) * 10 ^ n ≤ (List.replicate n (57 : UInt8)).foldl
      (fun v b => 10 * v + (b.toNat - 48)) v + 1 := by
  induction n generalizing v with
  | zero => exact (Nat.mul_one (v + 1)).le
  | succ n ih =>
    refine le_trans (le_of_eq ?_) (ih (10 * v + 9))
    rw [Nat.pow_succ]
    ring

/-- `atoi` returns -1 for a number that is too large for a `long`. -/
theorem atoi_nines {bs : List UInt8} (h : ∀ b ∈ bs, isDigit b) :
    atoi (bs ++ List.replicate 20 57) = -1 := by
  have hdigits : ∀ b ∈ bs ++ List.replicate 20 57, isDigit b := by
    intro b hb
    rcases List.mem_append.1 hb with hb | hb
    · exact h b hb
    · rw [List.eq_of_mem_replicate hb]
      decide
  have hvalue : 10 ^ 20 ≤ digitsValue (bs ++ List.replicate 20 57) + 1 := by
    rw [digitsValue, List.takeWhile_eq_self_iff.2 hdigits, List.foldl_append]
    refine le_trans ?_ (le_foldl_nines _ 20)
    exact Nat.le_mul_of_pos_left _ (Nat.succ_pos _)
  rw [atoi, strtol_digits hdigits, min_eq_left (by omega)]
  decide

/-! ## Decimal text -/

theorem toNat_toUInt8 {c : Char} (hc : c.isDigit) : c.toUInt8.toNat = c.toNat := by
  have hc' : c.toNat ≤ 57 := by
    rw [Char.isDigit, Bool.and_eq_true, decide_eq_true_eq, decide_eq_true_eq] at hc
    exact hc.2
  change c.toNat % 2 ^ 8 = c.toNat
  exact Nat.mod_eq_of_lt (by omega)

theorem isDigit_toUInt8 {c : Char} (hc : c.isDigit) : isDigit c.toUInt8 := by
  have hn := toNat_toUInt8 hc
  rw [Char.isDigit, Bool.and_eq_true, decide_eq_true_eq, decide_eq_true_eq] at hc
  rw [isDigit, Bool.and_eq_true, decide_eq_true_eq, decide_eq_true_eq, UInt8.le_iff_toNat_le,
    UInt8.le_iff_toNat_le, hn]
  exact hc

variable {n : ℕ} {rest : List UInt8}

theorem isDigit_of_mem_decimal {b : UInt8} (hb : b ∈ decimal n) : isDigit b := by
  obtain ⟨c, hc, rfl⟩ := List.mem_map.1 hb
  exact isDigit_toUInt8 (Nat.isDigit_of_mem_toDigits (by decide) (by decide) hc)

theorem nul_notMem_decimal : 0 ∉ decimal n := fun h => by
  cases isDigit_of_mem_decimal h

theorem decimal_ne_nil : decimal n ≠ [] := by
  rw [decimal, ne_eq, List.map_eq_nil_iff]
  exact Nat.toDigits_ne_nil

theorem length_decimal_le {k : ℕ} (hk : 0 < k) (hn : n < 10 ^ k) : (decimal n).length ≤ k := by
  rw [decimal, List.length_map]
  exact (Nat.length_toDigits_le_iff (by decide) hk).2 hn

theorem foldl_decimal : (decimal n).foldl (fun v b => 10 * v + (b.toNat - 48)) 0 = n := by
  have hdigits : ∀ cs : List Char, (∀ c ∈ cs, c.isDigit) → ∀ v,
      (cs.map Char.toUInt8).foldl (fun v b => 10 * v + (b.toNat - 48)) v =
        Nat.ofDigitChars 10 cs v := by
    intro cs
    induction cs with
    | nil => exact fun _ v => (Nat.ofDigitChars_nil).symm
    | cons c cs ih =>
      intro hcs v
      rw [List.map_cons, List.foldl_cons, ih fun c' hc' => hcs c' (List.mem_cons_of_mem c hc'),
        Nat.ofDigitChars_cons, toNat_toUInt8 (hcs c List.mem_cons_self)]
      rfl
  rw [decimal, hdigits _ fun c hc => Nat.isDigit_of_mem_toDigits (by decide) (by decide) hc]
  exact Nat.ofDigitChars_ten_toDigits

theorem takeWhile_decimal (hrest : ∀ b ∈ rest.head?, ¬isDigit b) :
    (decimal n ++ rest).takeWhile isDigit = decimal n := by
  rw [List.takeWhile_append_of_pos fun b hb => isDigit_of_mem_decimal hb]
  cases rest with
  | nil => exact List.append_nil _
  | cons b rest => rw [List.takeWhile_cons_of_neg (hrest b rfl), List.append_nil]

/-- The text of a number is neither a space nor a sign at its beginning. -/
theorem strtol_decimal (hrest : ∀ b ∈ rest.head?, ¬isDigit b) :
    strtol (decimal n ++ rest) = min (2 ^ 63 - 1) (n : ℤ) := by
  have hvalue : digitsValue (decimal n ++ rest) = n := by
    rw [digitsValue, takeWhile_decimal hrest, foldl_decimal]
  obtain ⟨b, bs, hb⟩ := List.exists_cons_of_ne_nil (decimal_ne_nil (n := n))
  have hdigit : isDigit b := isDigit_of_mem_decimal (by rw [hb]; exact List.mem_cons_self)
  rw [hb, List.cons_append] at hvalue ⊢
  rw [strtol, List.dropWhile_cons_of_neg (not_isSpace_of_isDigit hdigit)]
  split
  · next h =>
    obtain ⟨rfl, _⟩ := List.cons.inj h
    cases hdigit
  · next h =>
    obtain ⟨rfl, _⟩ := List.cons.inj h
    cases hdigit
  · rw [hvalue]

theorem atoi_decimal (hn : n < 2 ^ 31) (hrest : ∀ b ∈ rest.head?, ¬isDigit b) :
    atoi (decimal n ++ rest) = n := by
  rw [atoi, strtol_decimal hrest, min_eq_right (by omega)]
  exact Int.bmod_eq_of_le (by omega) (by omega)

end CText
