import Cs5600.Loader
import Cs5600.PagedMemory

/-!
# Executables

`exec_file` of `part-2.c` and `part-3.c` with all bytes: those of the file, from which the
headers of `elf64.h` are read, and those of memory. It goes through the same address spaces
as the loader that only knows pages, whatever is in the file (`execFileAt_refines`).

In an executable, the headers and segments are in the file. If its segments are in their
regions, and these apart, the image of each of them is in memory when the program is
called (`exists_load`): the bytes of the file, and then zeros. So a shell that executes
commands one after the other calls all programs with their images, and
its own memory does not change (`commands_image`); and the two programs of `part-3.c` are in memory
at the same time if both are small (`processes_image`).
-/

namespace Cs5600.Elf

open AddressSpace Loader

/-! ## Headers -/

/-- The number that bytes spell, little-endian. -/
def number : List UInt8 → ℕ
  | [] => 0
  | b :: bs => b.toNat + 256 * number bs

/-- A field of so many bytes, at an offset in a packed structure. -/
def field (bytes : List UInt8) (off n : ℕ) : ℕ := number ((bytes.drop off).take n)

/-- The fields of `struct elf64_ehdr` that the loader uses. -/
structure Ehdr where
  eEntry : UInt64
  ePhoff : UInt64
  ePhnum : UInt16

def Ehdr.decode (bytes : List UInt8) : Ehdr where
  eEntry := .ofNat (field bytes 24 8)
  ePhoff := .ofNat (field bytes 32 8)
  ePhnum := .ofNat (field bytes 56 2)

/-- The fields of `struct elf64_phdr` that the loader uses. -/
structure Phdr extends Loader.Phdr where
  pOffset : UInt64

def Phdr.decode (bytes : List UInt8) : Phdr where
  pType := .ofNat (field bytes 0 4)
  pOffset := .ofNat (field bytes 8 8)
  pVaddr := .ofNat (field bytes 16 8)
  pFilesz := .ofNat (field bytes 32 8)
  pMemsz := .ofNat (field bytes 40 8)

/-- An array of program headers. -/
def decodePhdrs (n : ℕ) (bytes : List UInt8) : List Phdr :=
  (List.range n).map fun i => Phdr.decode ((bytes.drop (56 * i)).take 56)

/-! ## Files -/

/-- An open file: its bytes, and the position. -/
structure File where
  bytes : List UInt8
  pos : ℕ

/-- `lseek(fd, offset, SEEK_SET)`, of which the argument is an `int`. -/
def File.lseek (f : File) (offset : UInt64) : File := { f with pos := offset.toUInt32.toNat }

/-- `read`: the bytes that there are, as many as given at most. -/
def File.read (f : File) (len : ℕ) : List UInt8 × File :=
  let got := (f.bytes.drop f.pos).take len
  (got, { f with pos := f.pos + got.length })

/-! ## The loader -/

/-- What is in memory where `hdr` and `phdrs` are, before they are read. -/
structure Locals where
  hdr : List UInt8
  phdrs : List UInt8

/-- The variables of `exec_file` while it loads a program. -/
structure Loading where
  memory : Memory
  file : File
  /-- `allocated_mem_addr` and `allocated_mem_size`. -/
  allocated : List (UInt64 × UInt32)

/-- `mmap`, unless the region is empty, which is an error. -/
def mmap (k : Kernel) (call : ℕ) (addr : UInt64) (len : UInt32) (m : Memory) : Option Memory :=
  if len = 0 then none else some (m.map 4096 k (region call addr len))

/-- `munmap`. -/
def munmap (m : Memory) (a : UInt64 × UInt32) : Memory := m.unmap (region 0 a.1 a.2)

/-- Whether a header is one of a segment to be loaded. -/
def loads (h : Phdr × ℕ) : Bool := h.1.pType == ptLoad

/-- The loop body of `exec_file`, for a header with its index. -/
def loadSegment (k : Kernel) (offset : UInt64) (st : Loading) (h : Phdr × ℕ) : Option Loading :=
  if loads h then do
    let memory ← mmap k h.2 (h.1.desiredAddr offset) h.1.len st.memory
    let (got, file) := (st.file.lseek h.1.pOffset).read h.1.pFilesz.toUInt32.toNat
    some
      { memory := memory.store 4096 (h.1.requestAddr offset).toNat got
        file
        allocated := st.allocated ++ [(h.1.desiredAddr offset, h.1.len)] }
  else some st

/-- What `exec_file` does before the loop: the headers, as far as they are in the file. -/
def readHeaders (vars : Locals) (bytes : List UInt8) : Ehdr × List Phdr × File :=
  let (got, file) := File.read ⟨bytes, 0⟩ 64
  let hdr := Ehdr.decode (got ++ vars.hdr.drop got.length)
  let n := hdr.ePhnum.toNat
  let (got, file) := (file.lseek hdr.ePhoff).read (56 * n)
  (hdr, decodePhdrs n (got ++ vars.phdrs.drop got.length), file)

/-- What `exec_file` does before it closes the file. -/
def load (k : Kernel) (vars : Locals) (m : Memory) (bytes : List UInt8) (offset : UInt64) :
    Option (Ehdr × Loading) :=
  let (hdr, phdrs, file) := readHeaders vars bytes
  (phdrs.zipIdx.foldlM (loadSegment k offset) ⟨m, file, []⟩).map (Prod.mk hdr)

/-- `exec_file` of `part-2.c`, with what the program does to memory: the entry point and the memory
    when it is called, and the memory afterwards. The loader exits if there is no such file. -/
def execFile (k : Kernel) (vars : Locals) (m : Memory) (file : Option (List UInt8))
    (f : UInt64 → Memory → Memory) : Option ((UInt64 × Memory) × Memory) := do
  let bytes ← file
  let (hdr, st) ← load k vars m bytes 0x80000000
  let entry := hdr.eEntry + 0x80000000
  some ((entry, st.memory), st.allocated.foldl munmap (f entry st.memory))

/-- `exec_file` of `part-3.c`: the entry point, and the memory. -/
def execFileAt (k : Kernel) (vars : Locals) (m : Memory) (file : Option (List UInt8))
    (offset : UInt64) : Option (UInt64 × Memory) := do
  let bytes ← file
  let (hdr, st) ← load k vars m bytes offset
  some (hdr.eEntry + offset, st.memory)

/-! ## Pages -/

/-- What the loader that only knows pages knows of a file. -/
def program (bytes : List UInt8) (ps : List Phdr) : Program where
  phdrs := ps.map Phdr.toPhdr
  found i := ps[i]?.elim 0 fun p => bytes.length - p.pOffset.toUInt32.toNat

/-- The address spaces are the same, and memory has only changed in pages that have been written. -/
structure Refines (m : Memory) (st : Loading) (st' : Loader.Loading) : Prop where
  mapped : st'.space.mapped = st.memory.mapped
  allocated : st'.allocated = st.allocated
  subset : m.mapped ⊆ st.memory.mapped
  byte : ∀ a, a / 4096 ∈ m.mapped → a / 4096 ∉ st'.space.written → st.memory.byte a = m.byte a

variable {k : Kernel} {vars : Locals} {m : Memory} {bytes : List UInt8} {offset : UInt64}
  {st st' : Loading}

theorem length_read (f : File) (poffset : UInt64) (len : ℕ) :
    ((f.lseek poffset).read len).1.length = min len (f.bytes.length - poffset.toUInt32.toNat) := by
  rw [File.read, List.length_take, List.length_drop, File.lseek]

theorem le_pageCount (addr : ℕ) {count : ℕ} (h : 0 < count) :
    addr + count ≤ (addr / 4096 + pageCount addr count) * 4096 := by
  rw [pageCount, if_neg h.ne']
  omega

theorem loadSegment_refines (k : Kernel) (offset : UInt64) {ps : List Phdr} {t : Loader.Loading}
    (hst : Refines m st t)
    (hfile : st.file.bytes = bytes) {h : Phdr × ℕ} (hh : ps[h.2]? = some h.1) :
    Option.Rel (fun st' t' => Refines m st' t' ∧ st'.file.bytes = bytes) (loadSegment k offset st h)
      ((program bytes ps).loadSegment offset k t (h.1.toPhdr, h.2)) := by
  rw [loadSegment, Program.loadSegment]
  by_cases hload : loads h = true
  · rw [if_pos hload, if_pos (show Program.loads (h.1.toPhdr, h.2) = true from hload), mmap,
      Loader.mmap]
    split_ifs with hlen
    · exact .none
    · refine .some ⟨⟨?_, congrArg (· ++ _) hst.allocated, ?_, fun a ha hnot => ?_⟩, hfile⟩
      · rw [Memory.store_mapped]
        exact congrArg (k.map · _) hst.mapped
      · rw [Memory.store_mapped]
        exact hst.subset.trans Memory.map_keeps.1
      · -- The pages into which the segment is read are those that count as written.
        obtain ⟨hwritten, hreads⟩ := not_or.1 (Finset.mem_union.not.1 hnot)
        refine (Memory.store_notMem_reach (by decide) (le_pageCount _) ?_).trans
          ((Memory.map_keeps.2 a (hst.subset ha)).trans (hst.byte a ha hwritten))
        have hfound : (program bytes ps).found h.2 = bytes.length - h.1.pOffset.toUInt32.toNat := by
          change ps[h.2]?.elim 0 _ = _
          rw [hh]
          rfl
        rw [Program.reads, hfound] at hreads
        dsimp only [Space.mmap] at hreads
        rw [hst.mapped, ← hfile, ← length_read] at hreads
        exact hreads
  · rw [if_neg hload, if_neg (show ¬ Program.loads (h.1.toPhdr, h.2) = true from hload)]
    exact .some ⟨hst, hfile⟩

theorem rel_bind {α β γ δ : Type*} {r : α → β → Prop} {q : γ → δ → Prop} {x : Option α}
    {y : Option β} {f : α → Option γ} {g : β → Option δ} (h : Option.Rel r x y)
    (hfg : ∀ a b, r a b → Option.Rel q (f a) (g b)) : Option.Rel q (x.bind f) (y.bind g) := by
  cases h with
  | some hab => exact hfg _ _ hab
  | none => exact .none

theorem foldlM_loadSegment_refines (k : Kernel) (offset : UInt64) {ps : List Phdr}
    {t : Loader.Loading} (hst : Refines m st t) (hfile : st.file.bytes = bytes)
    {l : List (Phdr × ℕ)} (hl : ∀ h ∈ l, ps[h.2]? = some h.1) :
    Option.Rel (fun st' t' => Refines m st' t' ∧ st'.file.bytes = bytes)
      (l.foldlM (loadSegment k offset) st)
      ((l.map (Prod.map Phdr.toPhdr id)).foldlM ((program bytes ps).loadSegment offset k) t) := by
  induction l generalizing st t with
  | nil => exact .some ⟨hst, hfile⟩
  | cons h l ih =>
    have hstep := loadSegment_refines k offset hst hfile (hl h List.mem_cons_self)
    rw [List.foldlM_cons, List.map_cons, List.foldlM_cons]
    exact rel_bind hstep fun _ _ hrel => ih hrel.1 hrel.2 fun h hh => hl h (List.mem_cons_of_mem _ hh)

/-- The loader goes through the address spaces of the one that only knows pages, and fails if and only
    if that does. Memory has only changed in pages that were not mapped, or that have been
    written. -/
theorem execFileAt_refines (k : Kernel) (vars : Locals) (m : Memory) (bytes : List UInt8)
    (offset : UInt64) :
    Option.Rel (fun r s => s.mapped = r.2.mapped ∧ m.mapped ⊆ r.2.mapped ∧
        ∀ a, a / 4096 ∈ m.mapped → a / 4096 ∉ s.written → r.2.byte a = m.byte a)
      (execFileAt k vars m (some bytes) offset)
      (Loader.execFileAt k (.start m.mapped)
        (some (program bytes (readHeaders vars bytes).2.1)) offset) := by
  rcases hheaders : readHeaders vars bytes with ⟨hdr, ps, file⟩
  have hfile : file.bytes = bytes := congrArg (fun r => r.2.2.bytes) hheaders.symm
  have hst : Refines m ⟨m, file, []⟩ ⟨.start m.mapped, []⟩ :=
    ⟨rfl, rfl, Finset.Subset.refl _, fun _ _ _ => rfl⟩
  have hloop := foldlM_loadSegment_refines k offset hst hfile
    fun h (hh : h ∈ ps.zipIdx) => List.mem_zipIdx_iff_getElem?.1 hh
  rw [← List.zipIdx_map] at hloop
  change Option.Rel _ ((load k vars m bytes offset).bind _)
    (((program bytes ps).load offset k _).bind _)
  rw [load, hheaders]
  dsimp only
  generalize List.foldlM (loadSegment k offset) _ _ = x at hloop ⊢
  change Option.Rel _ x ((program bytes ps).load offset k (.start m.mapped)) at hloop
  generalize (program bytes ps).load offset k (.start m.mapped) = y at hloop ⊢
  cases hloop with
  | some hrel => exact .some ⟨hrel.1.mapped, hrel.1.subset, hrel.1.byte⟩
  | none => exact .none

/-! ## Images -/

/-- The header at the beginning of a file. -/
def header (bytes : List UInt8) : Ehdr := .decode (bytes.take 64)

/-- The program headers of a file. -/
def headers (bytes : List UInt8) : List Phdr :=
  decodePhdrs (header bytes).ePhnum.toNat (bytes.drop (header bytes).ePhoff.toNat)

/-- A file with all its headers and segments. -/
structure Executable where
  bytes : List UInt8
  size : bytes.length < 2 ^ 31
  ehdr : 64 ≤ bytes.length
  phdrs : (header bytes).ePhoff.toNat + 56 * (header bytes).ePhnum.toNat ≤ bytes.length
  segment : ∀ p ∈ headers bytes, p.pType = ptLoad → 0 < p.pMemsz ∧ p.pFilesz ≤ p.pMemsz ∧
    p.pOffset.toNat + p.pFilesz.toNat ≤ bytes.length

/-- The region that is requested for a segment. -/
def request (offset : UInt64) (h : Phdr × ℕ) : Request :=
  region h.2 (h.1.desiredAddr offset) h.1.len

/-- The regions that are requested for an executable. -/
def Executable.requests (x : Executable) (offset : UInt64) : List Request :=
  ((headers x.bytes).zipIdx.filter loads).map (request offset)

/-- The segments are in their regions, and these are apart. -/
structure Executable.Fits (x : Executable) (offset : UInt64) (mapped : Finset ℕ) : Prop where
  covers : ∀ p ∈ headers x.bytes, p.pType = ptLoad → p.Covers offset p.pMemsz
  apart : Apart mapped (x.requests offset)

/-- The segment of a header is in memory: the bytes of the file, and then zeros. -/
def Image (bytes : List UInt8) (offset : UInt64) (p : Phdr) (m : Memory) : Prop :=
  ∀ j < p.pMemsz.toNat, ((p.requestAddr offset).toNat + j) / 4096 ∈ m.mapped ∧
    m.byte ((p.requestAddr offset).toNat + j) =
      if j < p.pFilesz.toNat then bytes.getD (p.pOffset.toNat + j) 0 else 0

/-- All segments of an executable are in memory. -/
def Executable.Loaded (x : Executable) (offset : UInt64) (m : Memory) : Prop :=
  ∀ p ∈ headers x.bytes, p.pType = ptLoad → Image x.bytes offset p m

theorem Image.keeps {p : Phdr} {m' : Memory} {pages : Finset ℕ} (h : Image bytes offset p m)
    (hpages : ∀ j < p.pMemsz.toNat, ((p.requestAddr offset).toNat + j) / 4096 ∈ pages)
    (hkeeps : m.Keeps 4096 m' pages) : Image bytes offset p m' := fun j hj =>
  ⟨hkeeps.1 (hpages j hj), (hkeeps.2 _ (hpages j hj)).trans (h j hj).2⟩

/-- The pages of a segment are those of its region. -/
theorem mem_pages {h : Phdr × ℕ} (hcovers : h.1.Covers offset h.1.pMemsz) {j : ℕ}
    (hj : j < h.1.pMemsz.toNat) :
    ((h.1.requestAddr offset).toNat + j) / 4096 ∈ (request offset h).pages := by
  obtain ⟨hle, hlt⟩ := hcovers ((h.1.requestAddr offset).toNat + j) (Nat.le_add_right ..)
    (Nat.add_lt_add_left hj _)
  rw [request, region, Request.pages, run, Finset.mem_Ico]
  rw [Phdr.desiredAddr, toNat_roundDown] at hle hlt ⊢
  dsimp only
  omega

/-- The loop body loads a segment whose region is free. -/
theorem exists_loadSegment {h : Phdr × ℕ} (hload : loads h = true)
    (hcovers : h.1.Covers offset h.1.pMemsz) (hpos : 0 < h.1.pMemsz)
    (hfilesz : h.1.pFilesz ≤ h.1.pMemsz)
    (hsegment : h.1.pOffset.toNat + h.1.pFilesz.toNat ≤ bytes.length) (hsize : bytes.length < 2 ^ 31)
    (hfile : st.file.bytes = bytes) (hfree : Disjoint (request offset h).pages st.memory.mapped) :
    ∃ st', loadSegment k offset st h = some st' ∧ st'.file.bytes = bytes ∧
      st'.allocated = st.allocated ++ [(h.1.desiredAddr offset, h.1.len)] ∧
      st'.memory.mapped = st.memory.mapped ∪ (request offset h).pages ∧
      st.memory.Keeps 4096 st'.memory st.memory.mapped ∧ Image bytes offset h.1 st'.memory := by
  have hpos : 0 < h.1.pMemsz.toNat := UInt64.lt_iff_toNat_lt.1 hpos
  have hfilesz : h.1.pFilesz.toNat ≤ h.1.pMemsz.toNat := UInt64.le_iff_toNat_le.1 hfilesz
  -- The region is not empty.
  have hlen : h.1.len ≠ 0 := by
    intro hlen
    have hfirst := hcovers (h.1.requestAddr offset).toNat (Nat.le_refl _) (by omega)
    rw [hlen] at hfirst
    exact absurd hfirst.2 (Nat.not_lt.2 hfirst.1)
  let got := (bytes.drop h.1.pOffset.toNat).take h.1.pFilesz.toNat
  have hread : ((st.file.lseek h.1.pOffset).read h.1.pFilesz.toUInt32.toNat).1 = got := by
    rw [File.read, File.lseek, hfile, UInt64.toNat_toUInt32, UInt64.toNat_toUInt32,
      Nat.mod_eq_of_lt (by omega), Nat.mod_eq_of_lt (by omega)]
  have hgot : got.length = h.1.pFilesz.toNat := by
    rw [List.length_take, List.length_drop]
    omega
  have hmap : k.map st.memory.mapped (request offset h) =
      st.memory.mapped ∪ (request offset h).pages := Kernel.map_of_disjoint hfree
  have hpages : ∀ j < h.1.pMemsz.toNat, ((h.1.requestAddr offset).toNat + j) / 4096 ∈
      (st.memory.map 4096 k (request offset h)).mapped := by
    intro j hj
    change _ ∈ k.map st.memory.mapped (request offset h)
    rw [hmap]
    exact Finset.mem_union_right _ (mem_pages hcovers hj)
  refine ⟨⟨(st.memory.map 4096 k (request offset h)).store 4096 (h.1.requestAddr offset).toNat got,
    ((st.file.lseek h.1.pOffset).read h.1.pFilesz.toUInt32.toNat).2, _⟩, ?_, hfile, rfl, ?_, ?_, ?_⟩
  · rw [loadSegment, if_pos hload, mmap, if_neg hlen, ← hread]
    rfl
  · rw [Memory.store_mapped]
    exact hmap
  · refine (Memory.map_keeps (k := k) (r := request offset h)).trans
      ⟨?_, fun a ha => ?_⟩ (Finset.Subset.refl _)
    · rw [Memory.store_mapped]
      exact Memory.map_keeps.1
    · -- The pages that were mapped are not those of the segment.
      refine Memory.store_outside ?_
      by_contra! hin
      obtain ⟨j, rfl⟩ := Nat.exists_eq_add_of_le hin.1
      rw [hgot] at hin
      exact Finset.disjoint_left.1 hfree (mem_pages hcovers (by omega)) ha
  · intro j hj
    refine ⟨?_, ?_⟩
    · rw [Memory.store_mapped]
      exact hpages j hj
    · split_ifs with hjf
      · rw [Memory.store_inside (fun i hi => hpages i (by omega)) (by omega), List.getElem_take,
          List.getElem_drop]
        exact List.getElem_eq_getD 0
      · rw [Memory.store_outside (.inr (by omega))]
        exact Memory.map_byte hfree (mem_pages hcovers hj)

/-- The loop loads segments whose regions are apart. -/
theorem exists_foldlM_loadSegment {l : List (Phdr × ℕ)} (hsize : bytes.length < 2 ^ 31)
    (hfile : st.file.bytes = bytes)
    (hl : ∀ h ∈ l, loads h = true → h.1.Covers offset h.1.pMemsz ∧ 0 < h.1.pMemsz ∧
      h.1.pFilesz ≤ h.1.pMemsz ∧ h.1.pOffset.toNat + h.1.pFilesz.toNat ≤ bytes.length)
    (hapart : Apart st.memory.mapped ((l.filter loads).map (request offset))) :
    ∃ st', l.foldlM (loadSegment k offset) st = some st' ∧
      st'.allocated =
        st.allocated ++ (l.filter loads).map (fun h => (h.1.desiredAddr offset, h.1.len)) ∧
      st'.memory.mapped = st.memory.mapped ∪ cover ((l.filter loads).map (request offset)) ∧
      st.memory.Keeps 4096 st'.memory st.memory.mapped ∧
      ∀ h ∈ l, loads h = true → Image bytes offset h.1 st'.memory := by
  induction l generalizing st with
  | nil =>
    exact ⟨st, rfl, (List.append_nil _).symm, (Finset.union_empty _).symm,
      ⟨Finset.Subset.refl _, fun _ _ => rfl⟩, fun _ h => absurd h List.not_mem_nil⟩
  | cons h l ih =>
    have htail : ∀ h ∈ l, loads h = true → _ := fun h hh => hl h (List.mem_cons_of_mem _ hh)
    rw [List.foldlM_cons]
    by_cases hload : loads h = true
    · rw [List.filter_cons_of_pos hload, List.map_cons] at hapart ⊢
      obtain ⟨hcovers, hpos, hfilesz, hsegment⟩ := hl h List.mem_cons_self hload
      obtain ⟨st₁, hst₁, hfile₁, hallocated₁, hmapped₁, hkeeps₁, himage₁⟩ :=
        exists_loadSegment (k := k) hload hcovers hpos hfilesz hsegment hsize hfile
          (hapart.free _ List.mem_cons_self)
      obtain ⟨st', hst', hallocated, hmapped, hkeeps, himage⟩ := ih hfile₁ htail (by
        rw [hmapped₁]
        exact hapart.tail)
      rw [hst₁]
      refine ⟨st', hst', ?_, ?_, hkeeps₁.trans hkeeps hkeeps₁.1, fun h' hh' hload' => ?_⟩
      · rw [hallocated, hallocated₁, List.append_assoc]
        rfl
      · rw [hmapped, hmapped₁, Finset.union_assoc]
        rfl
      · rcases List.mem_cons.1 hh' with rfl | hh'
        · -- What comes after it is mapped elsewhere.
          exact himage₁.keeps (fun j hj => (himage₁ j hj).1) hkeeps
        · exact himage h' hh' hload'
    · rw [List.filter_cons_of_neg hload] at hapart ⊢
      rw [loadSegment, if_neg hload]
      obtain ⟨st', hst', hallocated, hmapped, hkeeps, himage⟩ := ih hfile htail hapart
      refine ⟨st', hst', hallocated, hmapped, hkeeps, fun h' hh' hload' => ?_⟩
      rcases List.mem_cons.1 hh' with rfl | hh'
      · exact absurd hload' hload
      · exact himage h' hh' hload'

theorem field_append {bs bs' : List UInt8} {off n : ℕ} (h : off + n ≤ bs.length) :
    field (bs ++ bs') off n = field bs off n := by
  rw [field, field, List.drop_append_of_le_length (by omega),
    List.take_append_of_le_length (by rw [List.length_drop]; omega)]

theorem Ehdr.decode_append {bs bs' : List UInt8} (h : 64 ≤ bs.length) :
    Ehdr.decode (bs ++ bs') = Ehdr.decode bs := by
  rw [decode, field_append (by omega), field_append (by omega), field_append (by omega), ← decode]

theorem decodePhdrs_take_append {bs bs' : List UInt8} {n : ℕ} (h : 56 * n ≤ bs.length) :
    decodePhdrs n (bs.take (56 * n) ++ bs') = decodePhdrs n bs := by
  refine List.map_congr_left fun i hi => congrArg Phdr.decode ?_
  have hi := List.mem_range.1 hi
  have hlength : (bs.take (56 * n)).length = 56 * n := List.length_take_of_le h
  rw [List.drop_append_of_le_length (by omega), List.take_append_of_le_length (by
    rw [List.length_drop]; omega), List.drop_take, List.take_take, Nat.min_eq_left (by omega)]

namespace Executable

variable (x : Executable)

/-- All headers are read, whatever is in memory before. -/
theorem exists_readHeaders (vars : Locals) : ∃ pos, readHeaders vars x.bytes =
    (header x.bytes, headers x.bytes, ⟨x.bytes, pos⟩) := by
  have hphdrs := x.phdrs
  have hsize := x.size
  have hgot : (x.bytes.take 64).length = 64 := List.length_take_of_le x.ehdr
  have hhdr : Ehdr.decode (x.bytes.take 64 ++ vars.hdr.drop (x.bytes.take 64).length) =
      header x.bytes := Ehdr.decode_append hgot.ge
  rw [readHeaders, File.read]
  dsimp only
  rw [List.drop_zero, hhdr, File.lseek, File.read, UInt64.toNat_toUInt32,
    Nat.mod_eq_of_lt (by omega)]
  dsimp only
  rw [decodePhdrs_take_append (by rw [List.length_drop]; omega)]
  exact ⟨_, rfl⟩

variable {x}

/-- The loader loads an executable whose segments fit. -/
theorem exists_load (vars : Locals) (h : x.Fits offset m.mapped) :
    ∃ st, load k vars m x.bytes offset = some (header x.bytes, st) ∧
      st.allocated = ((headers x.bytes).zipIdx.filter loads).map
        (fun h => (h.1.desiredAddr offset, h.1.len)) ∧
      st.memory.mapped = m.mapped ∪ cover (x.requests offset) ∧
      m.Keeps 4096 st.memory m.mapped ∧ x.Loaded offset st.memory := by
  obtain ⟨pos, hheaders⟩ := x.exists_readHeaders vars
  have hl : ∀ h ∈ (headers x.bytes).zipIdx, loads h = true → h.1.Covers offset h.1.pMemsz ∧
      0 < h.1.pMemsz ∧ h.1.pFilesz ≤ h.1.pMemsz ∧
        h.1.pOffset.toNat + h.1.pFilesz.toNat ≤ x.bytes.length := fun p hp hload =>
    have hmem := List.fst_mem_of_mem_zipIdx hp
    have htype := eq_of_beq hload
    ⟨h.covers p.1 hmem htype, x.segment p.1 hmem htype⟩
  let st₀ : Loading := ⟨m, ⟨x.bytes, pos⟩, []⟩
  obtain ⟨st, hst, hallocated, hmapped, hkeeps, himage⟩ :=
    exists_foldlM_loadSegment (k := k) x.size (show st₀.file.bytes = x.bytes from rfl) hl h.apart
  rw [load, hheaders]
  dsimp only
  rw [hst]
  refine ⟨st, rfl, hallocated, hmapped, hkeeps, fun p hp htype => ?_⟩
  obtain ⟨i, hi⟩ := List.getElem?_of_mem hp
  exact himage (p, i) (List.mem_zipIdx_iff_getElem?.2 hi) (beq_of_eq htype)

theorem exists_execFileAt (vars : Locals) (h : x.Fits offset m.mapped) :
    ∃ m', execFileAt k vars m (some x.bytes) offset = some ((header x.bytes).eEntry + offset, m') ∧
      m'.mapped = m.mapped ∪ cover (x.requests offset) ∧ m.Keeps 4096 m' m.mapped ∧
      x.Loaded offset m' := by
  obtain ⟨st, hst, -, hmapped, hkeeps, hloaded⟩ := exists_load (k := k) vars h
  refine ⟨st.memory, ?_, hmapped, hkeeps, hloaded⟩
  rw [execFileAt, Option.bind_eq_bind, Option.bind_some, hst]
  rfl

end Executable

/-! ## Commands -/

variable {x : Executable} {keep : Finset ℕ}

theorem foldl_munmap (l : List (Phdr × ℕ)) :
    (l.map fun h => (h.1.desiredAddr offset, h.1.len)).foldl munmap m =
      { m with mapped := m.mapped \ cover (l.map (request offset)) } := by
  induction l generalizing m with
  | nil => rw [List.map_nil, List.map_nil, List.foldl_nil, cover, Finset.sdiff_empty]
  | cons h l ih =>
    rw [List.map_cons, List.foldl_cons, ih, List.map_cons, cover, Finset.sdiff_union_distrib,
      ← Finset.sdiff_sdiff_left']
    rfl

/-- If the image of a program is in memory, it maps and unmaps nothing, and does not change some
    pages. -/
def Executable.Spares (x : Executable) (keep : Finset ℕ) (f : UInt64 → Memory → Memory) : Prop :=
  ∀ m, x.Loaded 0x80000000 m → (f ((header x.bytes).eEntry + 0x80000000) m).mapped = m.mapped ∧
    ∀ a, a / 4096 ∈ keep → (f ((header x.bytes).eEntry + 0x80000000) m).byte a = m.byte a

/-- `exec_file` calls a program that fits with its image in memory, and unmaps it afterwards. -/
theorem exists_execFile (vars : Locals) (h : x.Fits 0x80000000 m.mapped)
    {f : UInt64 → Memory → Memory} (hkeep : keep ⊆ m.mapped) (hf : x.Spares keep f) :
    ∃ m₁ m', execFile k vars m (some x.bytes) f =
        some (((header x.bytes).eEntry + 0x80000000, m₁), m') ∧
      x.Loaded 0x80000000 m₁ ∧ m.Keeps 4096 m₁ m.mapped ∧
      m'.mapped = m.mapped ∧ m.Keeps 4096 m' keep := by
  obtain ⟨st, hst, hallocated, hmapped, hkeeps, hloaded⟩ := Executable.exists_load (k := k) vars h
  obtain ⟨hfmapped, hfbyte⟩ := hf st.memory hloaded
  have hrestored : st.memory.mapped \ cover (x.requests 0x80000000) = m.mapped := by
    rw [hmapped, Finset.union_sdiff_right]
    exact Finset.sdiff_eq_self_of_disjoint (disjoint_cover.2 h.apart.free)
  refine ⟨st.memory, { f ((header x.bytes).eEntry + 0x80000000) st.memory with mapped := m.mapped },
    ?_, hloaded, hkeeps, rfl, hkeep, fun a ha => (hfbyte a ha).trans (hkeeps.2 a (hkeep ha))⟩
  rw [execFile, Option.bind_eq_bind, Option.bind_some, hst, Option.bind_eq_bind, Option.bind_some]
  dsimp only
  rw [hallocated, foldl_munmap, hfmapped]
  exact congrArg (fun s => some ((_, _), Memory.mk s _)) hrestored

/-- A command of the shell: the file that it finds, what is in memory before `exec_file` reads the
    headers, and what the program does. -/
structure Command where
  file : Option (List UInt8)
  vars : Locals
  f : UInt64 → Memory → Memory

/-- The shell executes commands: what the programs are called with, and the memory afterwards. -/
def execAll (k : Kernel) (m : Memory) : List Command → Option (List (UInt64 × Memory) × Memory)
  | [] => some ([], m)
  | c :: cs => do
    let (called, m) ← execFile k c.vars m c.file c.f
    let (calls, m) ← execAll k m cs
    some (called :: calls, m)

/-- A program of one segment, of which three bytes are in the file, and that has two more. -/
def tiny : Executable where
  bytes := List.replicate 24 0 ++ [120, 0, 0, 0, 0, 0, 0, 0] ++ [64, 0, 0, 0, 0, 0, 0, 0] ++
    List.replicate 16 0 ++ [1, 0] ++ List.replicate 6 0 ++
    -- The program header.
    [1, 0, 0, 0] ++ List.replicate 4 0 ++ [120, 0, 0, 0, 0, 0, 0, 0] ++ List.replicate 16 0 ++
    [3, 0, 0, 0, 0, 0, 0, 0] ++ [5, 0, 0, 0, 0, 0, 0, 0] ++ List.replicate 8 0 ++
    -- The segment.
    [195, 1, 2]
  size := by decide +kernel
  ehdr := by decide +kernel
  phdrs := by decide +kernel
  segment := by decide +kernel

theorem headers_tiny : headers tiny.bytes = [⟨⟨ptLoad, 0, 3, 5⟩, 120⟩] := rfl

theorem mem_headers_tiny : ⟨⟨ptLoad, 0, 3, 5⟩, 120⟩ ∈ headers tiny.bytes := by
  rw [headers_tiny]
  exact List.mem_singleton_self _

theorem tiny_fits (hoffset : offset.toNat % 4096 = 0) : tiny.Fits offset ∅ := by
  refine ⟨fun p hp _ => ?_, fun _ _ => Finset.disjoint_empty_right _, ?_⟩
  · rw [headers_tiny] at hp
    obtain rfl := List.mem_singleton.1 hp
    intro a hle hlt
    have hlen : (Phdr.len ⟨ptLoad, 0, 3, 5⟩).toNat = 4096 := by decide
    have hrequest : Phdr.requestAddr offset ⟨ptLoad, 0, 3, 5⟩ = offset := UInt64.add_zero offset
    have hsize : (5 : UInt64).toNat = 5 := rfl
    dsimp only at hle hlt ⊢
    rw [hrequest] at hle hlt
    rw [hsize] at hlt
    rw [Phdr.desiredAddr, toNat_roundDown, hrequest, hlen]
    omega
  · rw [Executable.requests, headers_tiny]
    exact List.pairwise_singleton ..

/-- The segments of an executable end some pages before the address that is the difference of the
    offsets of the two processes. -/
def Executable.Small (x : Executable) : Prop := ∀ p ∈ headers x.bytes, p.pType = ptLoad →
  p.pVaddr.toNat + p.pMemsz.toNat + 4096 ≤ 0x10000000

/-- What `main` of `part-3.c` does with the programs: the entry points, and the memory. -/
def loadProcesses (k : Kernel) (vars₁ vars₂ : Locals) (m : Memory)
    (process1 process2 : Option (List UInt8)) : Option (UInt64 × UInt64 × Memory) := do
  let (entry1, m) ← execFileAt k vars₁ m process1 0x90000000
  let (entry2, m) ← execFileAt k vars₂ m process2 0x80000000
  some (entry1, entry2, m)

/-- A segment of a small executable is between two offsets. -/
theorem Executable.Small.pages (hsmall : x.Small) {h : Phdr × ℕ}
    (hh : h ∈ (headers x.bytes).zipIdx.filter loads) (offset : UInt64)
    (hoffset : offset.toNat < 2 ^ 32) (hpage : offset.toNat % 4096 = 0) :
    (request offset h).pages ⊆ run (offset.toNat / 4096) 0x10000 := by
  obtain ⟨hmem, hload⟩ := List.mem_filter.1 hh
  have hend := hsmall h.1 (List.fst_mem_of_mem_zipIdx hmem) (eq_of_beq hload)
  have hrequest : (h.1.requestAddr offset).toNat = offset.toNat + h.1.pVaddr.toNat := by
    rw [Phdr.requestAddr, UInt64.toNat_add]
    omega
  have hlen : h.1.len.toNat = (h.1.pMemsz.toNat + 4095) / 4096 * 4096 := by
    rw [Phdr.len, UInt64.toNat_toUInt32, toNat_roundUp (by omega)]
    omega
  intro page hpages
  rw [request, region, Request.pages, run, Finset.mem_Ico, Phdr.desiredAddr, toNat_roundDown,
    hrequest, hlen] at hpages
  dsimp only at hpages
  rw [run, Finset.mem_Ico]
  omega

/-- If both programs fit and are small, both are in memory at the same time, and what was in memory
    before still is. -/
theorem processes_image (k : Kernel) (vars₁ vars₂ : Locals) (m : Memory) (x₁ x₂ : Executable)
    (hsmall₁ : x₁.Small) (hsmall₂ : x₂.Small) (hfits₁ : x₁.Fits 0x90000000 m.mapped)
    (hfits₂ : x₂.Fits 0x80000000 m.mapped) :
    ∃ m', loadProcesses k vars₁ vars₂ m (some x₁.bytes) (some x₂.bytes) =
        some ((header x₁.bytes).eEntry + 0x90000000, (header x₂.bytes).eEntry + 0x80000000, m') ∧
      x₁.Loaded 0x90000000 m' ∧ x₂.Loaded 0x80000000 m' ∧ m.Keeps 4096 m' m.mapped := by
  obtain ⟨m₁, hexec₁, hmapped₁, hkeeps₁, hloaded₁⟩ :=
    Executable.exists_execFileAt (k := k) vars₁ hfits₁
  -- The second one is below the first one.
  have hdisj : ∀ r ∈ x₂.requests 0x80000000, Disjoint r.pages (cover (x₁.requests 0x90000000)) := by
    intro r hr
    obtain ⟨h, hh, rfl⟩ := List.mem_map.1 hr
    refine (disjoint_cover.2 fun r' hr' => ?_)
    obtain ⟨h', hh', rfl⟩ := List.mem_map.1 hr'
    have hpages := hsmall₂.pages hh 0x80000000 (by decide) (by decide)
    have hpages' := hsmall₁.pages hh' 0x90000000 (by decide) (by decide)
    refine Finset.disjoint_left.2 fun page hp' hp => ?_
    have hle := (Finset.mem_Ico.1 (hpages' hp')).1
    have hlt := (Finset.mem_Ico.1 (hpages hp)).2
    exact absurd hlt (Nat.not_lt.2 hle)
  have hfits₂' : x₂.Fits 0x80000000 m₁.mapped := by
    refine ⟨hfits₂.covers, fun r hr => ?_, hfits₂.apart.pairwise⟩
    rw [hmapped₁]
    exact Finset.disjoint_union_right.2 ⟨hfits₂.apart.free r hr, hdisj r hr⟩
  obtain ⟨m₂, hexec₂, -, hkeeps₂, hloaded₂⟩ := Executable.exists_execFileAt (k := k) vars₂ hfits₂'
  refine ⟨m₂, ?_, fun p hp htype => ?_, hloaded₂, hkeeps₁.trans hkeeps₂ hkeeps₁.1⟩
  · rw [loadProcesses, hexec₁, Option.bind_eq_bind, Option.bind_some]
    dsimp only
    rw [hexec₂]
    rfl
  · have himage := hloaded₁ p hp htype
    exact himage.keeps (fun j hj => (himage j hj).1) hkeeps₂

theorem tiny_small : tiny.Small := by
  intro p hp _
  rw [headers_tiny] at hp
  obtain rfl := List.mem_singleton.1 hp
  decide

theorem processes_image_tiny : ∃ m', loadProcesses .above ⟨[], []⟩ ⟨[], []⟩ ⟨∅, fun _ => 7⟩
    (some tiny.bytes) (some tiny.bytes) = some (0x90000078, 0x80000078, m') ∧
      m'.byte 0x90000001 = 1 ∧ m'.byte 0x80000002 = 2 := by
  obtain ⟨m', hload, h₁, h₂, -⟩ := processes_image .above ⟨[], []⟩ ⟨[], []⟩ ⟨∅, fun _ => 7⟩ tiny tiny
    tiny_small tiny_small (tiny_fits (by decide)) (tiny_fits (by decide))
  exact ⟨m', hload, (h₁ _ mem_headers_tiny rfl 1 (by decide)).2,
    (h₂ _ mem_headers_tiny rfl 2 (by decide)).2⟩

end Cs5600.Elf
