import Mathlib.Algebra.Group.Nat.Defs
import Mathlib.Data.Nat.Notation
import Mathlib.Data.Set.Defs
import Mathlib.Logic.Function.Basic

/-!
# Stacks of words

A stack grows downwards in a memory of 64-bit words, from an address that is a
multiple of 8 on: its words are at addresses that differ by 8. As long as there is
room for it below the stack pointer (`Room`), what is pushed stays in a region
of the memory, and lies on top of what was there (`Holds.push`, `Holds.pushAll`).
What a stack holds only depends on its region (`Words.congr`). A function that uses words below the
stack pointer (`below`) stays in the region as well (`Room.mem_of_below`).
-/

namespace WordStack

abbrev Word := BitVec 64

variable {S : Set Word} {mem mem' : Word → Word} {a b v : Word} {ws vs : List Word} {n : ℕ}

/-- The words from an address upwards, in a region. -/
def Words (S : Set Word) (mem : Word → Word) : Word → List Word → Prop
  | _, [] => True
  | a, w :: ws => a ∈ S ∧ mem a = w ∧ Words S mem (a + 8) ws

/-- The addresses of so many words below an address are in a region. -/
def Room (S : Set Word) : Word → ℕ → Prop
  | _, 0 => True
  | a, n + 1 => a - 8 ∈ S ∧ Room S (a - 8) n

/-- These addresses. -/
def below (a : Word) (n : ℕ) : Set Word := {b | ∃ i < n, b = a - BitVec.ofNat 64 (8 * (i + 1))}

theorem Room.mono {k : ℕ} (h : Room S a n) (hk : k ≤ n) : Room S a k := by
  induction k generalizing a n with
  | zero => trivial
  | succ k ih =>
    cases n with
    | zero => exact absurd hk (Nat.not_succ_le_zero k)
    | succ n => exact ⟨h.1, ih h.2 (Nat.le_of_succ_le_succ hk)⟩

theorem Room.mem_of_below (h : Room S a n) (hb : b ∈ below a n) : b ∈ S := by
  obtain ⟨i, hi, rfl⟩ := hb
  induction i generalizing a n with
  | zero => exact (h.mono hi).1
  | succ i ih =>
    cases n with
    | zero => exact absurd hi (Nat.not_lt_zero _)
    | succ n =>
      have hnext : a - BitVec.ofNat 64 (8 * (i + 1 + 1)) = a - 8 - BitVec.ofNat 64 (8 * (i + 1)) := by
        bv_omega
      rw [hnext]
      exact ih h.2 (Nat.lt_of_succ_lt_succ hi)

theorem toNat_lt_of_below (hn : 8 * n ≤ a.toNat) (hb : b ∈ below a n) : b.toNat < a.toNat := by
  obtain ⟨i, hi, rfl⟩ := hb
  bv_omega

theorem Words.congr (h : Words S mem a ws) (hmem : ∀ b ∈ S, mem' b = mem b) : Words S mem' a ws := by
  induction ws generalizing a with
  | nil => trivial
  | cons w ws ih => exact ⟨h.1, (hmem a h.1).trans h.2.1, ih h.2.2⟩

theorem Words.left (h : Words S mem a (ws ++ vs)) : Words S mem a ws := by
  induction ws generalizing a with
  | nil => trivial
  | cons w ws ih => exact ⟨h.1, h.2.1, ih h.2.2⟩

/-- To write a word below does not change them. -/
theorem Words.update_below (h : Words S mem a ws) (hn : 0 < n) (hlen : n + ws.length ≤ 2 ^ 60) :
    Words S (Function.update mem (a - BitVec.ofNat 64 (8 * n)) v) a ws := by
  induction ws generalizing a n with
  | nil => trivial
  | cons w ws ih =>
    rw [List.length_cons] at hlen
    have hne : a ≠ a - BitVec.ofNat 64 (8 * n) := by bv_omega
    have hnext : a - BitVec.ofNat 64 (8 * n) = a + 8 - BitVec.ofNat 64 (8 * (n + 1)) := by bv_omega
    refine ⟨h.1, ?_, ?_⟩
    · rw [Function.update_of_ne hne]
      exact h.2.1
    · rw [hnext]
      exact ih h.2.2 n.succ_pos (by omega)

/-- A stack pointer, and the memory. -/
structure Stack where
  sp : Word
  mem : Word → Word

namespace Stack

/-- To push a word. -/
def push (s : Stack) (v : Word) : Stack := ⟨s.sp - 8, Function.update s.mem (s.sp - 8) v⟩

/-- To push words in order. -/
def pushAll (s : Stack) (vs : List Word) : Stack := vs.foldl push s

/-- To drop the word on top. -/
def pop (s : Stack) : Stack := ⟨s.sp + 8, s.mem⟩

/-- The words on top of the stack, from the last one that was pushed on. -/
def Holds (S : Set Word) (s : Stack) (ws : List Word) : Prop := Words S s.mem s.sp ws

variable {s : Stack}

theorem Holds.push (h : s.Holds S ws) (hroom : s.sp - 8 ∈ S) (hlen : ws.length < 2 ^ 60) :
    (s.push v).Holds S (v :: ws) := by
  refine ⟨hroom, Function.update_self .., ?_⟩
  change Words S (Function.update s.mem (s.sp - 8) v) (s.sp - 8 + 8) ws
  rw [BitVec.sub_add_cancel]
  have h8 : (8 : Word) = BitVec.ofNat 64 (8 * 1) := rfl
  rw [h8]
  exact Words.update_below h Nat.one_pos (by omega)

theorem Holds.pushAll (h : s.Holds S ws) (hroom : Room S s.sp vs.length)
    (hlen : vs.length + ws.length ≤ 2 ^ 60) : (s.pushAll vs).Holds S (vs.reverse ++ ws) := by
  induction vs generalizing s ws with
  | nil => exact h
  | cons v vs ih =>
    rw [List.length_cons] at hlen
    rw [List.reverse_cons, List.append_assoc]
    exact ih (h.push hroom.1 (by omega)) hroom.2 (by rw [List.singleton_append, List.length_cons]; omega)

theorem pushAll_mem (hroom : Room S s.sp vs.length) (hb : b ∉ S) : (s.pushAll vs).mem b = s.mem b := by
  induction vs generalizing s with
  | nil => rfl
  | cons v vs ih =>
    have hne : b ≠ s.sp - 8 := fun h => hb (h ▸ hroom.1)
    exact (ih hroom.2).trans (Function.update_of_ne hne _ _)

theorem pushAll_sp : (s.pushAll vs).sp = s.sp - BitVec.ofNat 64 (8 * vs.length) := by
  induction vs generalizing s with
  | nil => exact (BitVec.sub_zero _).symm
  | cons v vs ih =>
    refine (ih (s := s.push v)).trans ?_
    change s.sp - 8 - _ = _
    rw [List.length_cons]
    bv_omega

end Stack

end WordStack
