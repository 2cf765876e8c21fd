import Cs5600.AddressSpace
import Mathlib.Logic.Function.Basic

/-!
# Memory in pages

The contents of an address space: the bytes at addresses, which are in pages of some size.
Pages that are mapped for a request have zeros, and bytes are stored one after the other
as far as pages are mapped.

To map pages does not change those that are mapped (`map_keeps`), and to store bytes changes
nothing but where they are stored (`store_outside`), which is in pages that can be reached
from the first one (`store_notMem_reach`). In mapped pages, all of them are stored
(`store_inside`).
-/

namespace AddressSpace

/-- The mapped pages, and the bytes at addresses. Only those in mapped pages mean something. -/
structure Memory where
  mapped : Finset ℕ
  byte : ℕ → UInt8

namespace Memory

variable (size : ℕ) (k : Kernel) (m : Memory)

/-- Pages of zeros are mapped for a request. -/
def map (r : Request) : Memory where
  mapped := k.map m.mapped r
  byte a := if a / size ∈ run (k.place m.mapped r) r.n then 0 else m.byte a

/-- The pages of a request are unmapped. -/
def unmap (r : Request) : Memory := { m with mapped := m.mapped \ r.pages }

/-- Bytes are stored from an address on, up to the first page that is not mapped. -/
def store (m : Memory) (addr : ℕ) : List UInt8 → Memory
  | [] => m
  | b :: bs =>
    if addr / size ∈ m.mapped then
      store { m with byte := Function.update m.byte addr b } (addr + 1) bs
    else m

/-- The bytes in some pages are the same. -/
def Keeps (m m' : Memory) (pages : Finset ℕ) : Prop :=
  pages ⊆ m'.mapped ∧ ∀ a, a / size ∈ pages → m'.byte a = m.byte a

variable {size k m} {m' m'' : Memory} {r : Request} {bs : List UInt8} {addr a i n : ℕ}
  {pages pages' : Finset ℕ}

theorem Keeps.trans (h : Keeps size m m' pages) (h' : Keeps size m' m'' pages') (hsub : pages ⊆ pages') :
    Keeps size m m'' pages :=
  ⟨hsub.trans h'.1, fun a ha => (h'.2 a (hsub ha)).trans (h.2 a ha)⟩

theorem Keeps.mono (h : Keeps size m m' pages') (hsub : pages ⊆ pages') : Keeps size m m' pages :=
  ⟨hsub.trans h.1, fun a ha => h.2 a (hsub ha)⟩

theorem map_keeps : Keeps size m (m.map size k r) m.mapped := by
  refine ⟨Finset.subset_union_left, fun a ha => ?_⟩
  rw [map]
  exact if_neg fun hrun => Finset.disjoint_left.1 Kernel.disjoint_place hrun ha

/-- Pages that are mapped where they were requested have zeros. -/
theorem map_byte (hfree : Disjoint r.pages m.mapped) (ha : a / size ∈ r.pages) :
    (m.map size k r).byte a = 0 := by
  rw [map, Kernel.place, if_pos hfree]
  exact if_pos ha

/-! ## Storing bytes -/

theorem store_mapped : (m.store size addr bs).mapped = m.mapped := by
  induction bs generalizing m addr with
  | nil => rfl
  | cons b bs ih =>
    rw [store]
    split_ifs
    · rw [ih]
    · rfl

theorem store_outside (h : a < addr ∨ addr + bs.length ≤ a) :
    (m.store size addr bs).byte a = m.byte a := by
  induction bs generalizing m addr with
  | nil => rfl
  | cons b bs ih =>
    rw [List.length_cons] at h
    rw [store]
    split_ifs
    · rw [ih (by omega)]
      exact Function.update_of_ne (by omega) ..
    · rfl

theorem store_inside (hmapped : ∀ j < bs.length, (addr + j) / size ∈ m.mapped) (hi : i < bs.length) :
    (m.store size addr bs).byte (addr + i) = bs[i] := by
  induction bs generalizing m addr i with
  | nil => exact absurd hi (Nat.not_lt_zero i)
  | cons b bs ih =>
    have hfirst : addr / size ∈ m.mapped := hmapped 0 (Nat.succ_pos _)
    rw [store, if_pos hfirst]
    cases i with
    | zero =>
      exact (store_outside (.inl (Nat.lt_succ_self addr))).trans (Function.update_self ..)
    | succ i =>
      rw [List.getElem_cons_succ, show addr + (i + 1) = addr + 1 + i by omega]
      refine ih (fun j hj => ?_) (Nat.lt_of_succ_lt_succ hi)
      rw [show addr + 1 + j = addr + (j + 1) by omega]
      exact hmapped (j + 1) (Nat.succ_lt_succ hj)

/-- A byte that changes is stored, and all bytes up to it are in mapped pages. -/
theorem exists_of_store_ne (h : (m.store size addr bs).byte a ≠ m.byte a) :
    addr ≤ a ∧ a < addr + bs.length ∧ ∀ b, addr ≤ b → b ≤ a → b / size ∈ m.mapped := by
  induction bs generalizing m addr with
  | nil => exact absurd rfl h
  | cons c bs ih =>
    rw [store] at h
    split_ifs at h with hmapped
    · by_cases ha : a = addr
      · subst ha
        refine ⟨Nat.le_refl a, Nat.lt_add_of_pos_right (Nat.succ_pos _), fun b hb hba => ?_⟩
        rwa [Nat.le_antisymm hba hb]
      · -- It is not the first one, so it is one of the others.
        obtain ⟨hle, hlt, hall⟩ := ih fun he => h (he.trans (Function.update_of_ne ha ..))
        refine ⟨Nat.le_of_succ_le hle, ?_, fun b hb hba => ?_⟩
        · rw [List.length_cons]
          omega
        · rcases Nat.eq_or_lt_of_le hb with rfl | hb
          · exact hmapped
          · exact hall b hb hba
    · exact absurd rfl h

/-- Bytes change only in pages that can be reached from the first one. -/
theorem store_notMem_reach (hsize : 0 < size)
    (hn : 0 < bs.length → addr + bs.length ≤ (addr / size + n) * size)
    (h : a / size ∉ reach m.mapped (addr / size) n) : (m.store size addr bs).byte a = m.byte a := by
  by_contra hne
  obtain ⟨hle, hlt, hall⟩ := exists_of_store_ne hne
  refine h (Finset.mem_filter.2 ⟨Finset.mem_Ico.2 ⟨Nat.div_le_div_right hle, ?_⟩, fun p hp => ?_⟩)
  · rw [Nat.div_lt_iff_lt_mul hsize]
    exact Nat.lt_of_lt_of_le hlt (hn (by omega))
  · obtain ⟨hp, hpa⟩ := Finset.mem_Icc.1 hp
    -- The first byte in the page that is not before those that are stored.
    have hmax : max addr (p * size) / size = p := by
      rcases Nat.le_total addr (p * size) with h | h
      · rw [Nat.max_eq_right h, Nat.mul_div_cancel _ hsize]
      · rw [Nat.max_eq_left h]
        exact Nat.le_antisymm hp ((Nat.le_div_iff_mul_le hsize).2 h)
    rw [← hmax]
    exact hall _ (Nat.le_max_left ..) (Nat.max_le.2 ⟨hle, (Nat.le_div_iff_mul_le hsize).1 hpa⟩)

end Memory

end AddressSpace
