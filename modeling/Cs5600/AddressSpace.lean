import Mathlib.Algebra.BigOperators.Group.List.Basic
import Mathlib.Algebra.Ring.Nat
import Mathlib.Data.Finset.Card
import Mathlib.Order.Interval.Finset.Nat
import Mathlib.Order.Lattice.Nat

/-!
# Address spaces

An address space as the set of its mapped pages. Pages are mapped by requests for a
run of them, which the kernel grants if none is mapped, and otherwise places
elsewhere (`Kernel.place`); then they are unmapped, and pages that are mapped may be
written.

Requests that are unmapped where they were made leave the mapped pages as they were
if and only if they are apart from each other and from what was mapped
(`mapAll_sdiff_cover`): only then is no page placed elsewhere. The pages that are
mapped are as many as those requested, so none is left over only if the requests
do not overlap (`pairwise_of_card`).
-/

namespace AddressSpace

/-- Some pages, one after the other. -/
def run (start n : ℕ) : Finset ℕ := Finset.Ico start (start + n)

theorem card_run (start n : ℕ) : (run start n).card = n := by
  rw [run, Nat.card_Ico, Nat.add_sub_cancel_left]

/-- A kernel, which finds pages that are not mapped. It may find others in every call. -/
structure Kernel where
  fresh : ℕ → Finset ℕ → ℕ → ℕ
  disjoint_fresh : ∀ call mapped n, Disjoint (run (fresh call mapped n) n) mapped

/-- The kernel that uses the pages above all that are mapped. -/
def Kernel.above : Kernel where
  fresh _ mapped _ := mapped.sup id + 1
  disjoint_fresh _ mapped n := Finset.disjoint_left.2 fun p hp hmapped => by
    have hle : p ≤ mapped.sup id := Finset.le_sup (f := id) hmapped
    exact absurd (Finset.mem_Ico.1 hp).1 (Nat.not_le.2 (Nat.lt_succ_of_le hle))

/-- A request for pages: the number of the call, the first page, and how many they are. -/
structure Request where
  call : ℕ
  start : ℕ
  n : ℕ

/-- The pages that are requested. -/
def Request.pages (r : Request) : Finset ℕ := run r.start r.n

namespace Kernel

variable (k : Kernel) (mapped : Finset ℕ) (r : Request)

/-- The first of the pages that are mapped for a request. -/
def place : ℕ := if Disjoint r.pages mapped then r.start else k.fresh r.call mapped r.n

/-- The mapped pages after a request. -/
def map : Finset ℕ := mapped ∪ run (k.place mapped r) r.n

/-- The mapped pages after requests. -/
def mapAll (rs : List Request) : Finset ℕ := rs.foldl k.map mapped

variable {k mapped r}

theorem disjoint_place : Disjoint (run (k.place mapped r) r.n) mapped := by
  rw [place]
  split_ifs with h
  · exact h
  · exact k.disjoint_fresh r.call mapped r.n

theorem map_of_disjoint (h : Disjoint r.pages mapped) : k.map mapped r = mapped ∪ r.pages := by
  rw [map, place, if_pos h, Request.pages]

theorem card_map : (k.map mapped r).card = mapped.card + r.n := by
  rw [map, Finset.card_union_of_disjoint disjoint_place.symm, card_run]

variable {rs : List Request}

/-- As many pages are mapped as were requested. -/
theorem card_mapAll : (k.mapAll mapped rs).card = mapped.card + (rs.map Request.n).sum := by
  induction rs generalizing mapped with
  | nil => rfl
  | cons r rs ih =>
    rw [mapAll, List.foldl_cons, ← mapAll, ih, card_map, List.map_cons, List.sum_cons,
      Nat.add_assoc]

end Kernel

/-! ## Requests that are apart -/

/-- The pages that are requested. -/
def cover : List Request → Finset ℕ
  | [] => ∅
  | r :: rs => r.pages ∪ cover rs

/-- Requests for pages that are not mapped, and that do not overlap. -/
structure Apart (mapped : Finset ℕ) (rs : List Request) : Prop where
  free : ∀ r ∈ rs, Disjoint r.pages mapped
  pairwise : rs.Pairwise fun r r' => Disjoint r.pages r'.pages

variable {k : Kernel} {mapped : Finset ℕ} {r : Request} {rs rs' : List Request}

theorem disjoint_cover {s : Finset ℕ} : Disjoint s (cover rs) ↔ ∀ r ∈ rs, Disjoint r.pages s := by
  induction rs with
  | nil => exact iff_of_true (Finset.disjoint_empty_right s) (by simp)
  | cons r rs ih =>
    rw [cover, Finset.disjoint_union_right, ih, List.forall_mem_cons, disjoint_comm]

theorem card_cover_le : (cover rs).card ≤ (rs.map Request.n).sum := by
  induction rs with
  | nil => exact le_rfl
  | cons r rs ih =>
    have hle := Finset.card_union_le r.pages (cover rs)
    rw [Request.pages, card_run] at hle
    rw [cover, List.map_cons, List.sum_cons]
    exact hle.trans (Nat.add_le_add_left ih r.n)

/-- Requests for as many pages as there are in all of them do not overlap. -/
theorem pairwise_of_card (h : (rs.map Request.n).sum ≤ (cover rs).card) :
    rs.Pairwise fun r r' => Disjoint r.pages r'.pages := by
  induction rs with
  | nil => exact .nil
  | cons r rs ih =>
    have hcard := Finset.card_union_add_card_inter r.pages (cover rs)
    rw [Request.pages, card_run, ← Request.pages] at hcard
    have hle : (cover rs).card ≤ (rs.map Request.n).sum := card_cover_le
    rw [cover, List.map_cons, List.sum_cons] at h
    have hinter : Disjoint r.pages (cover rs) := by
      rw [Finset.disjoint_iff_inter_eq_empty, ← Finset.card_eq_zero]
      omega
    refine .cons (fun r' hr' => (disjoint_cover.1 hinter r' hr').symm) (ih ?_)
    omega

theorem Apart.left (h : Apart mapped (rs ++ rs')) : Apart mapped rs :=
  ⟨fun r hr => h.free r (List.mem_append_left _ hr), (List.pairwise_append.1 h.pairwise).1⟩

theorem Apart.tail (h : Apart mapped (r :: rs)) : Apart (mapped ∪ r.pages) rs := by
  obtain ⟨hr, hpairwise⟩ := List.pairwise_cons.1 h.pairwise
  exact ⟨fun r' hr' => Finset.disjoint_union_right.2
    ⟨h.free r' (List.mem_cons_of_mem _ hr'), (hr r' hr').symm⟩, hpairwise⟩

/-- Requests that are apart are granted. -/
theorem Apart.mapAll (h : Apart mapped rs) : k.mapAll mapped rs = mapped ∪ cover rs := by
  obtain ⟨hfree, hpairwise⟩ := h
  induction rs generalizing mapped with
  | nil => exact (Finset.union_empty mapped).symm
  | cons r rs ih =>
    obtain ⟨hr, hpairwise⟩ := List.pairwise_cons.1 hpairwise
    rw [Kernel.mapAll, List.foldl_cons, Kernel.map_of_disjoint (hfree r List.mem_cons_self),
      ← Kernel.mapAll, ih (fun r' hr' => ?_) hpairwise, cover, Finset.union_assoc]
    exact Finset.disjoint_union_right.2
      ⟨hfree r' (List.mem_cons_of_mem _ hr'), (hr r' hr').symm⟩

/-- Without the pages that were requested, those are mapped that were before if and only if the
    requests are apart. -/
theorem mapAll_sdiff_cover : k.mapAll mapped rs \ cover rs = mapped ↔ Apart mapped rs := by
  constructor
  · intro h
    have hdisj : Disjoint mapped (cover rs) := h ▸ Finset.sdiff_disjoint
    refine ⟨disjoint_cover.1 hdisj, pairwise_of_card ?_⟩
    -- All pages that have been mapped are among those that were requested.
    have hsubset : k.mapAll mapped rs ⊆ mapped ∪ cover rs := by
      intro p hp
      by_cases hpc : p ∈ cover rs
      · exact Finset.mem_union_right _ hpc
      · exact Finset.mem_union_left _ (h ▸ Finset.mem_sdiff.2 ⟨hp, hpc⟩)
    have hcard := Finset.card_le_card hsubset
    rw [Kernel.card_mapAll, Finset.card_union_of_disjoint hdisj] at hcard
    omega
  · intro h
    rw [h.mapAll, Finset.union_sdiff_right]
    exact Finset.sdiff_eq_self_of_disjoint (disjoint_cover.2 h.free)

/-! ## What happens to pages -/

/-- An address space, with the pages that have been written and those that have been unmapped. -/
structure Space where
  mapped : Finset ℕ
  written : Finset ℕ
  unmapped : Finset ℕ

/-- The pages that are written from one page on, if they are to be that many: as far as they are
    mapped. -/
def reach (mapped : Finset ℕ) (start n : ℕ) : Finset ℕ :=
  (run start n).filter fun p => Finset.Icc start p ⊆ mapped

namespace Space

variable (k : Kernel) (s : Space)

/-- No page has been written or unmapped yet. -/
def start (mapped : Finset ℕ) : Space := ⟨mapped, ∅, ∅⟩

/-- Pages are mapped for a request. -/
def mmap (r : Request) : Space := { s with mapped := k.map s.mapped r }

/-- The pages of a request are unmapped. -/
def munmap (r : Request) : Space :=
  { s with mapped := s.mapped \ r.pages, unmapped := s.unmapped ∪ (s.mapped ∩ r.pages) }

/-- Pages are written. -/
def store (start n : ℕ) : Space := { s with written := s.written ∪ reach s.mapped start n }

/-- The pages of requests are unmapped one after the other. -/
def munmapAll (rs : List Request) : Space := rs.foldl munmap s

variable {s}

theorem mapped_munmapAll : (s.munmapAll rs).mapped = s.mapped \ cover rs := by
  induction rs generalizing s with
  | nil => exact Finset.sdiff_empty.symm
  | cons r rs ih =>
    rw [munmapAll, List.foldl_cons, ← munmapAll, ih, munmap, cover, Finset.sdiff_union_distrib,
      Finset.sdiff_sdiff_left']

theorem written_munmapAll : (s.munmapAll rs).written = s.written := by
  induction rs generalizing s with
  | nil => rfl
  | cons r rs ih => exact ih

/-- Pages that are unmapped have been requested. -/
theorem unmapped_munmapAll : (s.munmapAll rs).unmapped ⊆ s.unmapped ∪ cover rs := by
  induction rs generalizing s with
  | nil => exact Finset.subset_union_left
  | cons r rs ih =>
    refine ih.trans ?_
    rw [cover, ← Finset.union_assoc]
    exact Finset.union_subset_union_left
      (Finset.union_subset_union_right Finset.inter_subset_right)

end Space

end AddressSpace
