import Cs5600.Lookup
import Cs5600.Python

/-!
# The script that walks an image

`read-img.py` walks an image on its own, from the root inode on. It looks for
entries in as many blocks of a directory as its size says, whereas `translate`
and `fs_readdir` only look at the first one. An exception ends the script before it prints
anything that it has visited; it raises one at a name that is not ASCII. That
Python limits the depth of a recursion is not modelled.

In an image that is a tree of directories of any length (`Image.SpreadWF`) whose names are
ASCII, the script visits the objects that entries lead to, under the names of those
entries (`ReadImg.visits_iff`).
-/

namespace Cs5600

open LabelledGraph FsM Py

/-! ## The script -/

namespace ReadImg

variable (img : Image)

/-- `_in.ptrs[i]`. -/
def ptr (x : FsInode) (i : ℕ) : Except PyError ℕ :=
  if h : i < 1019 then .ok (x.ptrs ⟨i, h⟩).toNat else .error .index

/-- `blkmap.get(i)`. -/
def getMark (map : Block) (i : ℕ) : Except PyError Bool :=
  if i < 32768 then .ok (map.le (4 * (i / 32)) 4 &&& 1 <<< (i % 32) != 0) else .error .index

/-- `blks[i]`. -/
def blk (i : ℕ) : Except PyError Block :=
  if i < img.nblocks then .ok (img.block i) else .error .index

/-- `name.decode('ascii')`. -/
def decodeAscii (name : List UInt8) : Except PyError (List UInt8) :=
  if name.all (· < 128) then .ok name else .error .unicode

/-- The child that an entry of the object `name` is. -/
def child (name : List UInt8) (d : FsDirent) : Except PyError (List UInt8 × ℕ) := do
  let leaf ← decodeAscii (cstr d.name)
  pure (name ++ slash :: leaf, d.inode.1)

/-- The children in the block `i` of a directory. -/
def blockChildren (name : List UInt8) (x : FsInode) (i : ℕ) :
    Except PyError (List (List UInt8 × ℕ)) := do
  let dblk ← ptr x i
  let _ ← getMark (img.block 1) dblk
  let dir := DirBlock.decode (← blk img dblk)
  (((List.finRange 128).map dir).filter (·.valid)).mapM (child name)

/-- A pointer of a file is looked at. -/
def fileBlock (x : FsInode) (i : ℕ) : Except PyError Bool := do
  let b ← ptr x i
  getMark (img.block 1) b

/-- `(_in.size + 4095) // 4096`. -/
def xblks (x : FsInode) : ℕ := ((x.size.toInt + 4095) / 4096).toNat

/-- The children of an object. -/
def childrenOf (name : List UInt8) (x : FsInode) : Except PyError (List (List UInt8 × ℕ)) :=
  if x.isReg then do
    let _ ← (List.range (xblks x)).mapM (fileBlock img x)
    pure []
  else if x.isDir then do
    let children ← (List.range (xblks x)).mapM (blockChildren img name x)
    pure children.flatten
  else pure []

/-- `iter`: the names and inode numbers that are visited, if the recursion is not deeper than this. -/
def iter : ℕ → List UInt8 → ℕ → Except PyError (List (List UInt8 × ℕ))
  | 0, _, _ => .error .recursion
  | depth + 1, name, inum =>
    if img.nblocks ≤ inum then .error .assertion
    else do
      let x := FsInode.decode (img.block inum)
      let _ ← getMark (img.block 1) inum
      let children ← childrenOf img name x
      let visited ← children.mapM fun c => iter depth c.1 c.2
      pure ((name, inum) :: visited.flatten)

/-- The script visits an object under a name. -/
def Visits (name : List UInt8) (inum : ℕ) : Prop :=
  ∃ depth visited, iter img depth [] 2 = .ok visited ∧ (name, inum) ∈ visited

end ReadImg

/-! ## Directories of several blocks -/

/-- The number of blocks below the size of an object. -/
def FsInode.pages (x : FsInode) : ℕ := (x.size.toInt.toNat + 4095) / 4096

/-- A name of ASCII characters. -/
def Ascii (name : List UInt8) : Prop := ∀ c ∈ name, c < 128

namespace Image

variable (img : Image)

/-- The entries in the block `k` of a directory. -/
def page (i k : ℕ) : DirBlock := .decode (img.block ((img.table.inode i).ptrAt k))

/-- The valid entries of all blocks of directories, as a graph on inode numbers. -/
def entries : LabelledGraph.Graph ℕ (ℕ × Fin 128) := fun i a =>
  if (img.table.inode i).isDir = true ∧ a.1 < (img.table.inode i).pages ∧
    (img.page i a.1 a.2).valid = true then some (img.page i a.1 a.2).inode else none

/-- The name of an entry. -/
def entryName (i : ℕ) (a : ℕ × Fin 128) : List UInt8 := cstr (img.page i a.1 a.2).name

/-- Names of entries that lead from one object to another one. -/
def Leads : ℕ → List (List UInt8) → ℕ → Prop
  | i, [], j => i = j
  | i, c :: cs, j => ∃ a k, img.entries i a = some k ∧ img.entryName i a = c ∧ Leads k cs j

/-- The blocks that an object uses. -/
def Uses (i : ℕ) : Role → ℕ → Prop
  | .inode, b => b = i
  | .ptr k, b => k.1 < (img.table.inode i).pages ∧ b = ((img.table.inode i).ptrs k).toNat

/-- The objects are a tree of files and directories of any length, and use marked blocks, each in one
    way only. -/
structure SpreadWF : Prop where
  root : (img.table.inode 2).isDir = true
  tree : IsTree img.entries 2
  file : ∀ {i}, Reach img.entries 2 i → (img.table.inode i).isDir = false →
    (img.table.inode i).isReg = true ∧ 0 ≤ (img.table.inode i).size.toInt ∧
      (img.table.inode i).size.toInt ≤ 1019 * 4096
  dir : ∀ {i}, Reach img.entries 2 i → (img.table.inode i).isDir = true →
    ∃ k : ℕ, 1 ≤ k ∧ k ≤ 1019 ∧ (img.table.inode i).size.toInt = k * 4096
  used : ∀ {i r b}, Reach img.entries 2 i → img.Uses i r b →
    2 ≤ b ∧ b < img.nblocks ∧ img.table.marked b = true
  disjoint : ∀ {i j r r' b}, Reach img.entries 2 i → Reach img.entries 2 j → img.Uses i r b →
    img.Uses j r' b → i = j ∧ r = r'
  names : ∀ {i a}, Reach img.entries 2 i → (img.entries i a).isSome →
    GoodName (img.entryName i a)
  distinct : ∀ {i a a'}, Reach img.entries 2 i → (img.entries i a).isSome →
    (img.entries i a').isSome → img.entryName i a = img.entryName i a' → a = a'

/-- The directories that lead to objects at a depth of at most ten have their valid entries in the first
    block. -/
def FirstBlocks : Prop := ∀ as i a, walk img.entries 2 as = some i → as.length < maxPathComponents →
  (img.entries i a).isSome → a.1 = 0

/-- All names are ASCII. -/
def AsciiNames : Prop := ∀ i a, Reach img.entries 2 i → (img.entries i a).isSome →
  Ascii (img.entryName i a)

variable {img} {i j : ℕ} {a : ℕ × Fin 128}

theorem entries_eq_some : img.entries i a = some j ↔ (img.table.inode i).isDir = true ∧
    a.1 < (img.table.inode i).pages ∧ (img.page i a.1 a.2).valid = true ∧
      (img.page i a.1 a.2).inode.1 = j := by
  rw [entries]
  split_ifs with h
  · rw [Option.some.injEq]
    exact ⟨fun hj => ⟨h.1, h.2.1, h.2.2, hj⟩, fun h' => h'.2.2.2⟩
  · exact iff_of_false nofun fun h' => h ⟨h'.1, h'.2.1, h'.2.2.1⟩

theorem leads_concat {ns : List (List UInt8)} {c : List UInt8} : img.Leads i (ns ++ [c]) j ↔
    ∃ k a, img.Leads i ns k ∧ img.entries k a = some j ∧ img.entryName k a = c := by
  induction ns generalizing i with
  | nil =>
    constructor
    · rintro ⟨a, k, hk, hc, rfl⟩
      exact ⟨i, a, rfl, hk, hc⟩
    · rintro ⟨k, a, rfl, hk, hc⟩
      exact ⟨a, j, hk, hc, rfl⟩
  | cons n ns ih =>
    constructor
    · rintro ⟨a, k, hk, hn, hl⟩
      obtain ⟨k', a', hl', hk', hc⟩ := ih.1 hl
      exact ⟨k', a', ⟨a, k, hk, hn, hl'⟩, hk', hc⟩
    · rintro ⟨k', a', ⟨a, k, hk, hn, hl'⟩, hk', hc⟩
      exact ⟨a, k, hk, hn, ih.2 ⟨k', a', hl', hk', hc⟩⟩

/-- Names lead along a walk of entries. -/
theorem exists_walk_of_leads {ns : List (List UInt8)} (h : img.Leads i ns j) :
    ∃ as, walk img.entries i as = some j ∧ as.length = ns.length := by
  induction ns generalizing i with
  | nil => exact ⟨[], congrArg some h, rfl⟩
  | cons n ns ih =>
    obtain ⟨a, k, hk, -, hl⟩ := h
    obtain ⟨as, has, hlen⟩ := ih hl
    refine ⟨a :: as, ?_, congrArg Nat.succ hlen⟩
    rw [walk, hk]
    exact has

theorem Leads.reach {ns : List (List UInt8)} (h : img.Leads 2 ns j) : Reach img.entries 2 j := by
  obtain ⟨as, has, -⟩ := exists_walk_of_leads h
  exact Reach.root.walk has

/-- A walk of entries has names. -/
theorem exists_leads_of_walk {as : List (ℕ × Fin 128)} (h : walk img.entries i as = some j) :
    ∃ ns, img.Leads i ns j ∧ ns.length = as.length := by
  induction as generalizing i with
  | nil => exact ⟨[], Option.some.inj h, rfl⟩
  | cons a as ih =>
    obtain ⟨k, hk, hw⟩ := Option.bind_eq_some_iff.1 h
    obtain ⟨ns, hl, hlen⟩ := ih hw
    exact ⟨img.entryName i a :: ns, ⟨a, k, hk, rfl, hl⟩, congrArg Nat.succ hlen⟩

end Image

/-! ## What the script visits -/

namespace ReadImg

variable {img : Image} {name : List UInt8} {i : ℕ}

theorem xblks_eq (x : FsInode) : xblks x = x.pages := by
  rw [xblks, FsInode.pages]
  omega

theorem ptr_eq_ok {x : FsInode} {k b : ℕ} : ptr x k = .ok b ↔ k < 1019 ∧ b = x.ptrAt k := by
  rw [ptr]
  split_ifs with hk
  · have hfin : (⟨k, hk⟩ : Fin 1019) = Fin.ofNat 1019 k := Fin.ext (Nat.mod_eq_of_lt hk).symm
    rw [Except.ok.injEq, hfin]
    exact ⟨fun h => ⟨hk, h.symm⟩, fun h => h.2.symm⟩
  · exact iff_of_false nofun fun h => hk h.1

theorem decodeAscii_eq_ok {leaf leaf' : List UInt8} :
    decodeAscii leaf = .ok leaf' ↔ Ascii leaf ∧ leaf' = leaf := by
  have hall : leaf.all (· < 128) = true ↔ Ascii leaf := by
    simp only [List.all_eq_true, decide_eq_true_eq, Ascii]
  rw [decodeAscii]
  split_ifs with h
  · rw [Except.ok.injEq]
    exact ⟨fun he => ⟨hall.1 h, he.symm⟩, fun he => he.2.symm⟩
  · exact iff_of_false nofun fun he => h (hall.2 he.1)

theorem child_eq_ok {d : FsDirent} {c : List UInt8 × ℕ} :
    child name d = .ok c ↔ Ascii (cstr d.name) ∧ c = (name ++ slash :: cstr d.name, d.inode.1) := by
  rw [child, bind_eq_ok]
  constructor
  · rintro ⟨leaf, hleaf, hc⟩
    obtain ⟨hascii, rfl⟩ := decodeAscii_eq_ok.1 hleaf
    exact ⟨hascii, (Except.ok.inj hc).symm⟩
  · rintro ⟨hascii, rfl⟩
    exact ⟨_, decodeAscii_eq_ok.2 ⟨hascii, rfl⟩, rfl⟩

theorem mem_valid {dir : DirBlock} {d : FsDirent} :
    d ∈ ((List.finRange 128).map dir).filter (·.valid) ↔ ∃ k, (dir k).valid = true ∧ dir k = d := by
  rw [List.mem_filter, List.mem_map]
  constructor
  · rintro ⟨⟨k, -, rfl⟩, hv⟩
    exact ⟨k, hv, rfl⟩
  · rintro ⟨k, hv, rfl⟩
    exact ⟨⟨k, List.mem_finRange k, rfl⟩, hv⟩

/-- The children in a block of entries, if no exception is raised. -/
theorem blockChildren_ok {k : ℕ} {cs : List (List UInt8 × ℕ)}
    (h : blockChildren img name (img.table.inode i) k = .ok cs) :
    (∀ c, c ∈ cs ↔ ∃ l, (img.page i k l).valid = true ∧
      c = (name ++ slash :: img.entryName i (k, l), (img.page i k l).inode.1)) ∧
    ∀ l, (img.page i k l).valid = true → Ascii (img.entryName i (k, l)) := by
  obtain ⟨b, hb, h⟩ := bind_eq_ok.1 h
  obtain ⟨-, -, h⟩ := bind_eq_ok.1 h
  obtain ⟨b', hblk, h⟩ := bind_eq_ok.1 h
  obtain ⟨-, rfl⟩ := ptr_eq_ok.1 hb
  rw [blk] at hblk
  split_ifs at hblk
  obtain rfl := Except.ok.inj hblk
  refine ⟨fun c => ?_, fun l hv => ?_⟩
  · rw [mem_of_mapM_eq_ok h]
    constructor
    · rintro ⟨d, hd, hc⟩
      obtain ⟨l, hv, rfl⟩ := mem_valid.1 hd
      exact ⟨l, hv, (child_eq_ok.1 hc).2⟩
    · rintro ⟨l, hv, rfl⟩
      have hd := mem_valid.2 ⟨l, hv, rfl⟩
      obtain ⟨c, hc⟩ := exists_of_mapM_eq_ok h hd
      exact ⟨_, hd, child_eq_ok.2 ⟨(child_eq_ok.1 hc).1, rfl⟩⟩
  · obtain ⟨c, hc⟩ := exists_of_mapM_eq_ok h (mem_valid.2 ⟨l, hv, rfl⟩)
    exact (child_eq_ok.1 hc).1

/-- The children of an object, if no exception is raised. -/
theorem childrenOf_ok {cs : List (List UInt8 × ℕ)}
    (h : childrenOf img name (img.table.inode i) = .ok cs) :
    (∀ c, c ∈ cs ↔ ∃ a j, img.entries i a = some j ∧
      c = (name ++ slash :: img.entryName i a, j)) ∧
    ∀ a, (img.entries i a).isSome → Ascii (img.entryName i a) := by
  by_cases hd : (img.table.inode i).isDir = true
  · have hr : (img.table.inode i).isReg = false := by
      by_contra hr
      rw [FsInode.isDir_of_isReg (by simpa using hr)] at hd
      cases hd
    rw [childrenOf, hr, if_neg nofun, if_pos hd] at h
    obtain ⟨css, hcss, h⟩ := bind_eq_ok.1 h
    obtain rfl := Except.ok.inj h
    rw [xblks_eq] at hcss
    -- The entries are those of the blocks below the size.
    have hsome : ∀ {a j}, img.entries i a = some j ↔ a.1 < (img.table.inode i).pages ∧
        (img.page i a.1 a.2).valid = true ∧ (img.page i a.1 a.2).inode.1 = j := by
      intro a j
      rw [Image.entries_eq_some]
      exact and_iff_right hd
    refine ⟨fun c => ?_, fun a ha => ?_⟩
    · rw [List.mem_flatten]
      constructor
      · rintro ⟨cs, hcs, hc⟩
        obtain ⟨k, hk, hbc⟩ := (mem_of_mapM_eq_ok hcss).1 hcs
        obtain ⟨l, hv, rfl⟩ := ((blockChildren_ok hbc).1 c).1 hc
        exact ⟨(k, l), _, hsome.2 ⟨List.mem_range.1 hk, hv, rfl⟩, rfl⟩
      · rintro ⟨a, j, ha, rfl⟩
        obtain ⟨hk, hv, rfl⟩ := hsome.1 ha
        obtain ⟨cs, hbc⟩ := exists_of_mapM_eq_ok hcss (List.mem_range.2 hk)
        exact ⟨cs, (mem_of_mapM_eq_ok hcss).2 ⟨a.1, List.mem_range.2 hk, hbc⟩,
          ((blockChildren_ok hbc).1 _).2 ⟨a.2, hv, rfl⟩⟩
    · obtain ⟨j, hj⟩ := Option.isSome_iff_exists.1 ha
      obtain ⟨hk, hv, -⟩ := hsome.1 hj
      obtain ⟨cs, hbc⟩ := exists_of_mapM_eq_ok hcss (List.mem_range.2 hk)
      exact (blockChildren_ok hbc).2 a.2 hv
  · have hnone : ∀ a, img.entries i a = none := fun a => if_neg fun h => hd h.1
    have hnil : cs = [] := by
      rw [childrenOf] at h
      split_ifs at h
      · obtain ⟨-, -, h⟩ := bind_eq_ok.1 h
        exact (Except.ok.inj h).symm
      · exact (Except.ok.inj h).symm
    refine ⟨fun c => ?_, fun a ha => ?_⟩
    · rw [hnil]
      refine iff_of_false List.not_mem_nil ?_
      rintro ⟨a, j, ha, -⟩
      rw [hnone] at ha
      cases ha
    · rw [hnone] at ha
      cases ha

/-- A path as the script spells it. -/
def joinPath (ns : List (List UInt8)) : List UInt8 := ns.flatMap (slash :: ·)

theorem joinPath_cons (c : List UInt8) (ns : List (List UInt8)) :
    joinPath (c :: ns) = slash :: c ++ joinPath ns := List.flatMap_cons

/-- If no exception is raised, the objects below are visited, and their names are ASCII. -/
theorem iter_ok {depth : ℕ} {visited : List (List UInt8 × ℕ)}
    (h : iter img depth name i = .ok visited) :
    (∀ p j, (p, j) ∈ visited ↔ ∃ ns, img.Leads i ns j ∧ p = name ++ joinPath ns) ∧
    ∀ ns j a, img.Leads i ns j → (img.entries j a).isSome → Ascii (img.entryName j a) := by
  induction depth generalizing name i visited with
  | zero => cases h
  | succ depth ih =>
    rw [iter] at h
    split_ifs at h
    obtain ⟨-, -, h⟩ := bind_eq_ok.1 h
    obtain ⟨cs, hcs, h⟩ := bind_eq_ok.1 h
    obtain ⟨vs, hvs, h⟩ := bind_eq_ok.1 h
    obtain rfl := Except.ok.inj h
    -- The object itself is visited first, and then what is below each of its children.
    obtain ⟨hmem, hascii⟩ := childrenOf_ok (i := i) hcs
    refine ⟨fun p j => ?_, fun ns j a hl ha => ?_⟩
    · rw [List.mem_cons, List.mem_flatten]
      constructor
      · rintro (hself | ⟨v, hv, hp⟩)
        · obtain ⟨rfl, rfl⟩ := Prod.mk.inj hself
          exact ⟨[], rfl, (List.append_nil p).symm⟩
        · obtain ⟨c, hc, hiter⟩ := (mem_of_mapM_eq_ok hvs).1 hv
          obtain ⟨a, k, hk, rfl⟩ := (hmem c).1 hc
          obtain ⟨ns, hl, rfl⟩ := ((ih hiter).1 p j).1 hp
          refine ⟨img.entryName i a :: ns, ⟨a, k, hk, rfl, hl⟩, ?_⟩
          rw [joinPath_cons, List.append_assoc]
      · rintro ⟨ns, hl, rfl⟩
        cases ns with
        | nil =>
          obtain rfl : i = j := hl
          exact .inl (congrArg (·, i) (List.append_nil name))
        | cons n ns =>
          obtain ⟨a, k, hk, rfl, hl⟩ := hl
          have hc := (hmem (name ++ slash :: img.entryName i a, k)).2 ⟨a, k, hk, rfl⟩
          obtain ⟨v, hiter⟩ := exists_of_mapM_eq_ok hvs hc
          refine .inr ⟨v, (mem_of_mapM_eq_ok hvs).2 ⟨_, hc, hiter⟩, ((ih hiter).1 _ j).2 ⟨ns, hl, ?_⟩⟩
          rw [joinPath_cons, List.append_assoc]
    · cases ns with
      | nil =>
        obtain rfl : i = j := hl
        exact hascii a ha
      | cons n ns =>
        obtain ⟨a', k, hk, -, hl⟩ := hl
        have hc := (hmem (name ++ slash :: img.entryName i a', k)).2 ⟨a', k, hk, rfl⟩
        obtain ⟨v, hiter⟩ := exists_of_mapM_eq_ok hvs hc
        exact (ih hiter).2 ns j a hl ha

/-! ## The script on well-formed images -/

theorem exists_getMark (hcap : img.nblocks ≤ 32768) (map : Block) {b : ℕ} (hb : b < img.nblocks) :
    ∃ marked, getMark map b = .ok marked := ⟨_, if_pos (lt_of_lt_of_le hb hcap)⟩

section Spread

variable (h : img.SpreadWF)
include h

theorem pages_le (hi : Reach img.entries 2 i) : (img.table.inode i).pages ≤ 1019 := by
  rw [FsInode.pages]
  by_cases hd : (img.table.inode i).isDir = true
  · obtain ⟨k, -, hk, hsize⟩ := h.dir hi hd
    omega
  · have hsize := (h.file hi (by simpa using hd)).2.2
    omega

/-- The pointers below the size of an object lead to blocks. -/
theorem exists_ptr (hi : Reach img.entries 2 i) {k : ℕ} (hk : k < (img.table.inode i).pages) :
    ptr (img.table.inode i) k = .ok ((img.table.inode i).ptrAt k) ∧
      (img.table.inode i).ptrAt k < img.nblocks := by
  have hlt : k < 1019 := lt_of_lt_of_le hk (pages_le h hi)
  refine ⟨ptr_eq_ok.2 ⟨hlt, rfl⟩, (h.used (r := .ptr (Fin.ofNat 1019 k)) hi ⟨?_, rfl⟩).2.1⟩
  rwa [Fin.val_ofNat, Nat.mod_eq_of_lt hlt]

variable (hcap : img.nblocks ≤ 32768) (hascii : img.AsciiNames)
include hcap hascii

theorem exists_blockChildren (hi : Reach img.entries 2 i) (hd : (img.table.inode i).isDir = true)
    {k : ℕ} (hk : k < (img.table.inode i).pages) :
    ∃ cs, blockChildren img name (img.table.inode i) k = .ok cs := by
  obtain ⟨hptr, hlt⟩ := exists_ptr h hi hk
  obtain ⟨marked, hmark⟩ := exists_getMark hcap (img.block 1) hlt
  have hblk : blk img ((img.table.inode i).ptrAt k) =
      .ok (img.block ((img.table.inode i).ptrAt k)) := if_pos hlt
  obtain ⟨cs, hcs⟩ : ∃ cs, (((List.finRange 128).map (img.page i k)).filter (·.valid)).mapM
      (child name) = .ok cs := by
    refine exists_mapM_eq_ok fun d hd' => ?_
    obtain ⟨l, hv, rfl⟩ := mem_valid.1 hd'
    refine ⟨_, child_eq_ok.2 ⟨hascii i (k, l) hi ?_, rfl⟩⟩
    exact Option.isSome_of_eq_some (Image.entries_eq_some.2 ⟨hd, hk, hv, rfl⟩)
  exact ⟨cs, bind_eq_ok.2 ⟨_, hptr, bind_eq_ok.2 ⟨_, hmark, bind_eq_ok.2 ⟨_, hblk, hcs⟩⟩⟩⟩

theorem exists_childrenOf (name : List UInt8) (hi : Reach img.entries 2 i) :
    ∃ cs, childrenOf img name (img.table.inode i) = .ok cs := by
  rw [childrenOf]
  split_ifs with hr hd
  · obtain ⟨ms, hms⟩ : ∃ ms, (List.range (xblks (img.table.inode i))).mapM
        (fileBlock img (img.table.inode i)) = .ok ms := by
      refine exists_mapM_eq_ok fun k hk => ?_
      rw [xblks_eq, List.mem_range] at hk
      obtain ⟨hptr, hlt⟩ := exists_ptr h hi hk
      obtain ⟨marked, hmark⟩ := exists_getMark hcap (img.block 1) hlt
      exact ⟨marked, bind_eq_ok.2 ⟨_, hptr, hmark⟩⟩
    exact ⟨[], bind_eq_ok.2 ⟨ms, hms, rfl⟩⟩
  · obtain ⟨css, hcss⟩ : ∃ css, (List.range (xblks (img.table.inode i))).mapM
        (blockChildren img name (img.table.inode i)) = .ok css := by
      refine exists_mapM_eq_ok fun k hk => ?_
      rw [xblks_eq, List.mem_range] at hk
      exact exists_blockChildren h hcap hascii hi hd hk
    exact ⟨css.flatten, bind_eq_ok.2 ⟨css, hcss, rfl⟩⟩
  · exact ⟨[], rfl⟩

/-- No exception is raised: the recursion ends, as there are only so many objects. -/
theorem exists_iter {depth : ℕ} {as : List (ℕ × Fin 128)} (hw : walk img.entries 2 as = some i)
    (hdepth : img.nblocks ≤ depth + as.length) : ∃ visited, iter img depth name i = .ok visited := by
  induction depth generalizing name i as with
  | zero =>
    -- A walk in a tree is shorter than there are objects.
    have hlt := h.tree.walk_length_lt (fun j hj => (h.used (r := .inode) hj rfl).2.1) hw
    omega
  | succ depth ih =>
    have hi := Reach.root.walk hw
    have hlt := (h.used (r := .inode) hi rfl).2.1
    obtain ⟨marked, hmark⟩ := exists_getMark hcap (img.block 1) hlt
    obtain ⟨cs, hcs⟩ := exists_childrenOf h hcap hascii name hi
    obtain ⟨vs, hvs⟩ : ∃ vs, cs.mapM (fun c => iter img depth c.1 c.2) = .ok vs := by
      refine exists_mapM_eq_ok fun c hc => ?_
      obtain ⟨a, j, ha, rfl⟩ := ((childrenOf_ok hcs).1 c).1 hc
      have hw' : walk img.entries 2 (as ++ [a]) = some j := by
        rw [walk_concat, hw]
        exact ha
      refine ih hw' ?_
      rw [List.length_append, List.length_singleton]
      omega
    rw [iter, if_neg (Nat.not_le.2 hlt)]
    exact ⟨_, bind_eq_ok.2 ⟨_, hmark, bind_eq_ok.2 ⟨_, hcs, bind_eq_ok.2 ⟨_, hvs, rfl⟩⟩⟩⟩

/-- The script visits the objects of the image under their names. -/
theorem visits_iff {p : List UInt8} {j : ℕ} :
    Visits img p j ↔ ∃ ns, img.Leads 2 ns j ∧ p = joinPath ns := by
  constructor
  · rintro ⟨depth, visited, hiter, hp⟩
    exact ((iter_ok hiter).1 p j).1 hp
  · intro hp
    have hroot : walk img.entries 2 [] = some 2 := rfl
    obtain ⟨visited, hiter⟩ : ∃ visited, iter img img.nblocks [] 2 = .ok visited :=
      exists_iter h hcap hascii hroot le_rfl
    exact ⟨_, visited, hiter, ((iter_ok hiter).1 p j).2 hp⟩

end Spread

end ReadImg

end Cs5600
