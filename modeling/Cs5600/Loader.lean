import Cs5600.AddressSpace
import Mathlib.Data.UInt

/-!
# The program loader

`exec_file` of `part-2.c` and `part-3.c`, which maps the segments of a program into
memory and reads them from its file. A segment is requested at the address where it
belongs, rounded down to a page, with its size rounded up to pages.

As both are rounded on their own, the region may end before the segment does
(`covers_iff`). And as the address that `mmap` returns is not used, pages are read
into and unmapped where they were requested, wherever they are: the address space
is left as it was only if the segments are apart from each other and from what
was mapped (`execFile_restores_iff`).
-/

namespace Cs5600.Loader

open AddressSpace

/-- `ROUND_UP`. -/
def roundUp (a b : UInt64) : UInt64 := (a + b - 1) / b * b

/-- `ROUND_DOWN`. -/
def roundDown (a b : UInt64) : UInt64 := a / b * b

/-- `PT_LOAD`. -/
def ptLoad : UInt32 := 1

/-- The fields of a program header that the loader uses, except the offset in the file. -/
structure Phdr where
  pType : UInt32
  pVaddr : UInt64
  pFilesz : UInt64
  pMemsz : UInt64

namespace Phdr

variable (offset : UInt64) (p : Phdr)

/-- The 32 bits of `len`, which is an `int`. -/
def len : UInt32 := (roundUp p.pMemsz 4096).toUInt32

/-- `request_addr`, where the segment is read. -/
def requestAddr : UInt64 := offset + p.pVaddr

/-- `desired_addr`, where the segment is requested. -/
def desiredAddr : UInt64 := roundDown (p.requestAddr offset) 4096

/-- The first bytes of a segment, as many as given, are in the region that `mmap` is asked for. -/
def Covers (size : UInt64) : Prop :=
  ∀ a, (p.requestAddr offset).toNat ≤ a → a < (p.requestAddr offset).toNat + size.toNat →
    (p.desiredAddr offset).toNat ≤ a ∧ a < (p.desiredAddr offset).toNat + p.len.toNat

end Phdr

/-! ## The region of a segment -/

theorem toNat_roundDown (a : UInt64) : (roundDown a 4096).toNat = a.toNat / 4096 * 4096 := by
  have hlt := a.toNat_lt
  rw [roundDown, UInt64.toNat_mul, UInt64.toNat_div]
  change a.toNat / 4096 * 4096 % 2 ^ 64 = _
  omega

theorem toNat_roundUp {a : UInt64} (h : a.toNat < 2 ^ 47) :
    (roundUp a 4096).toNat = (a.toNat + 4095) / 4096 * 4096 := by
  rw [roundUp, UInt64.toNat_mul, UInt64.toNat_div, UInt64.toNat_sub, UInt64.toNat_add]
  change (2 ^ 64 - 1 + (a.toNat + 4096) % 2 ^ 64) % 2 ^ 64 / 4096 * 4096 % 2 ^ 64 = _
  omega

/-- A segment is in its region if and only if its size, rounded up, leaves room for what is before it
    in its first page. -/
theorem covers_iff (offset : UInt64) (p : Phdr) (hpos : 0 < p.pMemsz) (hfilesz : p.pFilesz ≤ p.pMemsz)
    (haddr : offset.toNat + p.pVaddr.toNat + p.pMemsz.toNat < 2 ^ 47)
    (hlen : (roundUp p.pMemsz 4096).toNat < 2 ^ 31) :
    p.Covers offset p.pMemsz ∧ p.Covers offset p.pFilesz ↔
      (offset.toNat + p.pVaddr.toNat) % 4096 + p.pMemsz.toNat ≤
        (p.pMemsz.toNat + 4095) / 4096 * 4096 := by
  have hpos : 0 < p.pMemsz.toNat := UInt64.lt_iff_toNat_lt.1 hpos
  have hfilesz : p.pFilesz.toNat ≤ p.pMemsz.toNat := UInt64.le_iff_toNat_le.1 hfilesz
  have hrequest : (p.requestAddr offset).toNat = offset.toNat + p.pVaddr.toNat := by
    rw [Phdr.requestAddr, UInt64.toNat_add]
    omega
  have hround := toNat_roundUp (a := p.pMemsz) (by omega)
  have hlen : p.len.toNat = (p.pMemsz.toNat + 4095) / 4096 * 4096 := by
    rw [Phdr.len, UInt64.toNat_toUInt32, hround]
    omega
  simp only [Phdr.Covers, Phdr.desiredAddr, toNat_roundDown, hrequest, hlen]
  constructor
  · rintro ⟨hcovers, _⟩
    -- The last byte is in the region.
    have hlast := hcovers (offset.toNat + p.pVaddr.toNat + p.pMemsz.toNat - 1)
      (by omega) (by omega)
    omega
  · intro h
    constructor
    · intro a hle hlt
      omega
    · intro a hle hlt
      omega

/-- A segment that begins at a page. -/
theorem covers_iff_page :
    Phdr.Covers 0x80000000 ⟨ptLoad, 0, 100, 5000⟩ 5000 ∧
      Phdr.Covers 0x80000000 ⟨ptLoad, 0, 100, 5000⟩ 100 :=
  (covers_iff 0x80000000 ⟨ptLoad, 0, 100, 5000⟩ (by decide) (by decide) (by decide) (by decide)).2
    (by decide)

/-- A segment of a page that begins in the middle of one. -/
def middle : Phdr := ⟨ptLoad, 0x800, 0x1000, 0x1000⟩

/-- The second half of the segment is not in its region. -/
theorem exists_not_covers :
    ¬ ∀ (offset : UInt64) (p : Phdr), p.pType = ptLoad → 0 < p.pMemsz → p.pFilesz ≤ p.pMemsz →
      offset.toNat + p.pVaddr.toNat + p.pMemsz.toNat < 2 ^ 47 →
      (roundUp p.pMemsz 4096).toNat < 2 ^ 31 → p.Covers offset p.pMemsz := by
  intro h
  have hcovers := h 0x80000000 middle rfl (by decide) (by decide) (by decide) (by decide)
    0x80001000 (by decide) (by decide)
  exact absurd hcovers.2 (by decide)

/-! ## Loading and running a program -/

/-- The pages of a region that a system call gets, which rounds up its size. -/
def region (call : ℕ) (addr : UInt64) (len : UInt32) : Request :=
  ⟨call, addr.toNat / 4096, (len.toNat + 4095) / 4096⟩

/-- `mmap`: the address of the region, unless it is empty, which is an error. -/
def mmap (k : Kernel) (call : ℕ) (addr : UInt64) (len : UInt32) (s : Space) : Option (ℕ × Space) :=
  if len = 0 then none
  else
    let r := region call addr len
    some (k.place s.mapped r * 4096, s.mmap k r)

/-- `munmap`. -/
def munmap (s : Space) (a : UInt64 × UInt32) : Space := s.munmap (region 0 a.1 a.2)

/-- How many pages have some of these bytes. -/
def pageCount (addr count : ℕ) : ℕ :=
  if count = 0 then 0 else (addr + count - 1) / 4096 - addr / 4096 + 1

/-- A program: its headers, and how many bytes there are in the file where the segment of each of
    them is read. -/
structure Program where
  phdrs : List Phdr
  found : ℕ → ℕ

/-- The variables of `exec_file` while it loads a program. -/
structure Loading where
  space : Space
  /-- `allocated_mem_addr` and `allocated_mem_size`. -/
  allocated : List (UInt64 × UInt32)

namespace Program

variable (f : Program) (offset : UInt64)

/-- A header with its index is one of a segment to be loaded. -/
def loads (h : Phdr × ℕ) : Bool := h.1.pType == ptLoad

/-- The pages that are written when a segment is read. -/
def reads (mapped : Finset ℕ) (h : Phdr × ℕ) : Finset ℕ :=
  let addr := (h.1.requestAddr offset).toNat
  reach mapped (addr / 4096) (pageCount addr (min h.1.pFilesz.toUInt32.toNat (f.found h.2)))

/-- The loop body of `exec_file`, for a header with its index. `mmap` may fail, and then the loader
    exits. -/
def loadSegment (k : Kernel) (st : Loading) (h : Phdr × ℕ) : Option Loading :=
  if loads h then do
    let (_, space) ← mmap k h.2 (h.1.desiredAddr offset) h.1.len st.space
    some
      { space := { space with written := space.written ∪ f.reads offset space.mapped h }
        allocated := st.allocated ++ [(h.1.desiredAddr offset, h.1.len)] }
  else some st

/-- The loop of `exec_file`. -/
def load (k : Kernel) (s : Space) : Option Loading :=
  f.phdrs.zipIdx.foldlM (f.loadSegment offset k) ⟨s, []⟩

end Program

/-- `exec_file` of `part-2.c`, if it returns. It does not if there is no such file. The program that
    it calls maps and unmaps nothing. -/
def execFile (k : Kernel) (s : Space) (file : Option Program) : Option Space := do
  let f ← file
  let st ← f.load 0x80000000 k s
  some (st.allocated.foldl munmap st.space)

/-- `exec_file` of `part-3.c`, which leaves the program mapped. -/
def execFileAt (k : Kernel) (s : Space) (file : Option Program) (offset : UInt64) : Option Space := do
  let f ← file
  let st ← f.load offset k s
  some st.space

/-! ## What is left -/

/-- The address space is as it was, and no page that was mapped has been unmapped or written. -/
def Restores (mapped : Finset ℕ) (s : Space) : Prop :=
  s.mapped = mapped ∧ Disjoint s.unmapped mapped ∧ Disjoint s.written mapped

namespace Program

variable {f : Program} {offset : UInt64} {k : Kernel} {st st' : Loading}

/-- The pages that are requested for a segment. -/
def request (offset : UInt64) (h : Phdr × ℕ) : Request :=
  region h.2 (h.1.desiredAddr offset) h.1.len

/-- The segments that are loaded. -/
def segments (f : Program) : List (Phdr × ℕ) := f.phdrs.zipIdx.filter loads

/-- What a step of the loop does. -/
theorem loadSegment_spec {h : Phdr × ℕ} (hload : loads h = true)
    (hst : f.loadSegment offset k st h = some st') :
    st'.allocated = st.allocated ++ [(h.1.desiredAddr offset, h.1.len)] ∧
      st'.space.mapped = k.map st.space.mapped (request offset h) ∧
      st'.space.unmapped = st.space.unmapped ∧
      st'.space.written =
        st.space.written ∪ f.reads offset (k.map st.space.mapped (request offset h)) h := by
  rw [loadSegment, if_pos hload, mmap] at hst
  split_ifs at hst
  · cases hst
  · obtain rfl := Option.some.inj hst
    exact ⟨rfl, rfl, rfl, rfl⟩

/-- An element of a list, with those before it, is the first one or one after it. -/
theorem exists_cons_eq_append {α : Type*} {x : α} {l : List α} {P : List α → α → Prop} :
    (∃ pre h suf, x :: l = pre ++ h :: suf ∧ P pre h) ↔
      P [] x ∨ ∃ pre h suf, l = pre ++ h :: suf ∧ P (x :: pre) h := by
  constructor
  · rintro ⟨pre, h, suf, hl, hP⟩
    cases pre with
    | nil =>
      obtain ⟨rfl, rfl⟩ := List.cons.inj hl
      exact .inl hP
    | cons y pre =>
      obtain ⟨rfl, htail⟩ := List.cons.inj hl
      exact .inr ⟨pre, h, suf, htail, hP⟩
  · rintro (hP | ⟨pre, h, suf, rfl, hP⟩)
    · exact ⟨[], x, l, rfl, hP⟩
    · exact ⟨x :: pre, h, suf, rfl, hP⟩

/-- What the loop does. -/
theorem foldlM_loadSegment_spec {l : List (Phdr × ℕ)}
    (hst : l.foldlM (f.loadSegment offset k) st = some st') :
    st'.allocated =
        st.allocated ++ (l.filter loads).map (fun h => (h.1.desiredAddr offset, h.1.len)) ∧
      st'.space.mapped = k.mapAll st.space.mapped ((l.filter loads).map (request offset)) ∧
      st'.space.unmapped = st.space.unmapped ∧
      ∀ page, page ∈ st'.space.written ↔ page ∈ st.space.written ∨
        ∃ pre h suf, l.filter loads = pre ++ h :: suf ∧
          page ∈ f.reads offset (k.mapAll st.space.mapped ((pre ++ [h]).map (request offset))) h := by
  induction l generalizing st with
  | nil =>
    cases hst
    refine ⟨(List.append_nil _).symm, rfl, rfl, fun page => ?_⟩
    simp
  | cons h l ih =>
    rw [List.foldlM_cons] at hst
    obtain ⟨st₁, h₁, hst⟩ := Option.bind_eq_some_iff.1 hst
    obtain ⟨hallocated, hmapped, hunmapped, hwritten⟩ := ih hst
    cases hload : loads h with
    | false =>
      -- The loop goes over other headers.
      rw [loadSegment, hload] at h₁
      cases h₁
      rw [List.filter_cons_of_neg (by simp [hload])]
      exact ⟨hallocated, hmapped, hunmapped, hwritten⟩
    | true =>
      obtain ⟨hallocated₁, hmapped₁, hunmapped₁, hwritten₁⟩ := loadSegment_spec hload h₁
      rw [List.filter_cons_of_pos hload]
      rw [hallocated₁] at hallocated
      rw [hmapped₁] at hmapped hwritten
      refine ⟨?_, hmapped, hunmapped.trans hunmapped₁, fun page => ?_⟩
      · rw [hallocated, List.append_assoc]
        rfl
      · -- A page is written for this segment, or for one of those after it.
        rw [hwritten, hwritten₁, Finset.mem_union, or_assoc, exists_cons_eq_append]
        rfl

/-- The segments of a program are requested where nothing is mapped, apart from each other, and none
    is read into pages that were mapped before. -/
structure Apart (f : Program) (offset : UInt64) (mapped : Finset ℕ) : Prop where
  requests : AddressSpace.Apart mapped (f.segments.map (request offset))
  reads : ∀ pre h suf, f.segments = pre ++ h :: suf →
    Disjoint (f.reads offset (mapped ∪ cover ((pre ++ [h]).map (request offset))) h) mapped

theorem foldl_munmap (s : Space) (l : List (Phdr × ℕ)) :
    (l.map fun h => (h.1.desiredAddr offset, h.1.len)).foldl munmap s =
      s.munmapAll (l.map (request offset)) := by
  induction l generalizing s with
  | nil => rfl
  | cons h l ih => exact ih _

end Program

open Program in
/-- `exec_file` leaves the address space as it was if and only if the segments of the program are
    apart. -/
theorem execFile_restores_iff (k : Kernel) (mapped : Finset ℕ) (f : Program) {s : Space}
    (h : execFile k (.start mapped) (some f) = some s) :
    Restores mapped s ↔ f.Apart 0x80000000 mapped := by
  obtain ⟨st, hst, hs⟩ := Option.bind_eq_some_iff.1 h
  obtain ⟨hallocated, hmapped, hunmapped, hwritten⟩ := foldlM_loadSegment_spec hst
  rw [List.nil_append] at hallocated
  rw [hallocated, foldl_munmap] at hs
  obtain rfl := Option.some.inj hs
  -- What is mapped when a segment is read.
  have hpre : AddressSpace.Apart mapped (f.segments.map (request 0x80000000)) →
      ∀ {pre h suf}, f.segments = pre ++ h :: suf →
        k.mapAll mapped ((pre ++ [h]).map (request 0x80000000)) =
          mapped ∪ cover ((pre ++ [h]).map (request 0x80000000)) := by
    intro hapart pre h suf hsplit
    rw [hsplit, List.append_cons, List.map_append] at hapart
    exact hapart.left.mapAll
  rw [Restores, Space.mapped_munmapAll, Space.written_munmapAll, hmapped]
  constructor
  · rintro ⟨hrestored, _, hdisj⟩
    -- Nothing is left over only if no request was placed elsewhere.
    have hapart := mapAll_sdiff_cover.1 hrestored
    refine ⟨hapart, fun pre h suf hsplit => ?_⟩
    rw [← hpre hapart hsplit]
    exact Finset.disjoint_left.2 fun page hpage =>
      Finset.disjoint_left.1 hdisj ((hwritten page).2 (.inr ⟨pre, h, suf, hsplit, hpage⟩))
  · rintro ⟨hapart, hreads⟩
    refine ⟨mapAll_sdiff_cover.2 hapart, ?_, Finset.disjoint_left.2 fun page hpage => ?_⟩
    · refine Finset.disjoint_of_subset_left Space.unmapped_munmapAll ?_
      rw [hunmapped]
      exact Finset.disjoint_union_left.2
        ⟨Finset.disjoint_empty_left _, (disjoint_cover.2 hapart.free).symm⟩
    · rcases (hwritten page).1 hpage with hnone | ⟨pre, h, suf, hsplit, hread⟩
      · cases hnone
      · rw [show (Space.start mapped).mapped = mapped from rfl, hpre hapart hsplit] at hread
        exact Finset.disjoint_left.1 (hreads pre h suf hsplit) hread

/-- A program of one segment. -/
def single : Program := ⟨[⟨ptLoad, 0, 100, 5000⟩], fun _ => 100⟩

theorem execFile_restores_iff_single : ∃ s,
    execFile .above (.start {0x400}) (some single) = some s ∧ Restores {0x400} s := by
  refine ⟨_, rfl, (execFile_restores_iff .above {0x400} single rfl).2 ⟨⟨?_, ?_⟩, ?_⟩⟩
  · decide
  · exact List.pairwise_singleton _ _
  · intro pre h suf hsplit
    have hsingle : ([(⟨ptLoad, 0, 100, 5000⟩, 0)] : List (Phdr × ℕ)) = pre ++ h :: suf := hsplit
    cases pre with
    | nil =>
      obtain ⟨rfl, rfl⟩ := List.cons.inj hsingle
      decide
    | cons h' pre => simp at hsingle

/-- A program of two segments on one page. -/
def sharing : Program := ⟨[⟨ptLoad, 0, 100, 100⟩, ⟨ptLoad, 0x800, 100, 100⟩], fun _ => 100⟩

/-- The second segment is mapped elsewhere, and stays there. -/
theorem exists_not_restores :
    ¬ ∀ (k : Kernel) (mapped : Finset ℕ) (f : Program) (s : Space),
      execFile k (.start mapped) (some f) = some s → Restores mapped s := by
  intro h
  have hrestores := h .above ∅ sharing _ rfl
  exact absurd hrestores.1 (by decide)

end Cs5600.Loader
