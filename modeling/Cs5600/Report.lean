import Cs5600.Bitmaps
import Cs5600.ReadImg
import Cs5600.VolumeRuns
import Cs5600.Walks

/-!
# What the script prints

`read-img.py` prints the superblock, the blocks that are marked, the inodes that it finds, and
then each object with its attributes and its blocks, or its blocks of entries. It says so when
the numbers in the superblock are not as they should be, and when it comes to a block that is not
marked. What has been printed before an exception is left out.

In each state that the file system gets to there is nothing of that kind to say: the script
prints each object of the volume, once, with its attributes, and all its blocks are marked
(`script_report`).
-/

namespace Cs5600

open LabelledGraph Py Traces

namespace ReadImg

/-! ## The script -/

/-- What a call of `print` is given, or of calls in a row for the numbers in a list. -/
inductive Line
  | magic (magic : UInt32) (bad : Bool)
  | blocks (diskSize : UInt32) (bad : Bool)
  | used (blocks : List ℕ)
  | found (inodes : List ℕ)
  | object (inum : ℕ) (name : List UInt8) (uid gid : UInt16) (mode : UInt32) (size : ℤ) (marked : Bool)
  | ptrs (ptrs : List (ℕ × Bool))
  | dirBlock (dblk : ℕ) (marked : Bool)
  | entry (j : Fin 128) (name : List UInt8) (inum : ℕ)
  | badMode (mode : UInt32)

variable (img : Image)

/-- A pointer of a file, with its mark. -/
def ptrMark (x : FsInode) (i : ℕ) : Except PyError (ℕ × Bool) := do
  let b ← ptr x i
  let marked ← getMark (img.block 1) b
  pure (b, marked)

/-- An entry of a directory. -/
def entryLine (dir : DirBlock) (j : Fin 128) : Except PyError Line := do
  let leaf ← decodeAscii (cstr (dir j).name)
  pure (.entry j leaf (dir j).inode.1)

/-- The block `i` of a directory. -/
def blockLines (x : FsInode) (i : ℕ) : Except PyError (List Line) := do
  let dblk ← ptr x i
  let marked ← getMark (img.block 1) dblk
  let dir := DirBlock.decode (← blk img dblk)
  let entries ← ((List.finRange 128).filter fun j => (dir j).valid).mapM (entryLine dir)
  pure (.dirBlock dblk marked :: entries)

/-- An object. -/
def objectLines (name : List UInt8) (inum : ℕ) : Except PyError (List Line) := do
  let x := FsInode.decode (img.block inum)
  let marked ← getMark (img.block 1) inum
  let head := Line.object inum (if name = [] then [slash] else name) x.uid x.gid x.mode x.size.toInt
    marked
  if x.isReg then do
    let ptrs ← (List.range (xblks x)).mapM (ptrMark img x)
    pure [head, .ptrs ptrs]
  else if x.isDir then do
    let blocks ← (List.range (xblks x)).mapM (blockLines img x)
    pure (head :: blocks.flatten)
  else pure [head, .badMode x.mode]

/-- `iter`, when it prints. -/
def iterLines : ℕ → List UInt8 → ℕ → Except PyError (List Line)
  | 0, _, _ => .error .recursion
  | depth + 1, name, inum =>
    if img.nblocks ≤ inum then .error .assertion
    else do
      let lines ← objectLines img name inum
      let children ← childrenOf img name (FsInode.decode (img.block inum))
      let below ← children.mapM fun c => iterLines depth c.1 c.2
      pure (lines ++ below.flatten)

/-- `fs.MAGIC`. -/
def magicNumber : UInt32 := 0x30303635

/-- The script, if the recursion is not deeper than this. -/
def script (depth : ℕ) : Except PyError (List Line) := do
  let sb := FsSuper.decode (← blk img 0)
  let blkmap ← blk img 1
  let marks ← (List.range img.nblocks).mapM (getMark blkmap)
  let visited ← iter img depth [] 2
  let inodes := visited.map Prod.snd
  let lines ← iterLines img depth [] 2
  pure (.magic sb.magic (sb.magic != magicNumber) ::
    .blocks sb.diskSize (sb.diskSize.toNat != img.nblocks) ::
    .used ((List.range img.nblocks).filter fun i => marks.getD i false) ::
    .found ((List.range img.nblocks).filter fun i => inodes.contains i) :: lines)

end ReadImg

/-! ## Objects along entries -/

theorem FsInode.isReg_of_isDir {x : FsInode} (hd : x.isDir = true) : x.isReg = false := by
  by_contra hreg
  rw [isDir_of_isReg (by simpa using hreg)] at hd
  cases hd

theorem FsInode.nptrs_of_dir {x : FsInode} (hd : x.isDir = true) : x.nptrs = 1 := if_pos hd

namespace Image

variable (img : Image)

/-- Each directory has the size of one block. -/
def PageDirs : Prop :=
  ∀ i, img.table.Live i → (img.table.inode i).isDir = true → (img.table.inode i).size.toInt = 4096

/-- All names are ASCII. -/
def AsciiTree : Prop := ∀ ns name, img.tree (ns ++ [name]) ≠ none → Ascii name

/-- The name in an entry. -/
def nameAt (i : ℕ) (k : Fin 128) : List UInt8 := cstr (img.table.dir i k).name

/-- The names along entries. -/
def namesAlong : ℕ → List (Fin 128) → List (List UInt8)
  | _, [] => []
  | i, k :: ks => img.nameAt i k :: namesAlong (img.table.dir i k).inode.1 ks

/-- The valid entries of a directory, in their order. -/
def entriesOf (i : ℕ) : List (Fin 128 × List UInt8) :=
  (List.finRange 128).filterMap fun k => (img.table.slots i k).map fun _ => (k, img.nameAt i k)

/-- Where entries lead. -/
def endOf : ℕ → List (Fin 128) → ℕ
  | i, [] => i
  | i, k :: ks => endOf (img.table.dir i k).inode.1 ks

variable {img} {i j : ℕ} {ks : List (Fin 128)}

theorem endOf_eq (hw : walk img.table.slots i ks = some j) : img.endOf i ks = j := by
  induction ks generalizing i with
  | nil => exact Option.some.inj hw
  | cons k ks ih =>
    obtain ⟨m, hm, hw⟩ := Option.bind_eq_some_iff.1 hw
    obtain ⟨-, -, rfl⟩ := Table.slots_eq_some.1 hm
    exact ih hw

/-- The names of entries lead where the entries do. -/
theorem walk_namesAlong (h : img.WF) (hi : img.table.Live i)
    (hw : walk img.table.slots i ks = some j) :
    walk img.table.children i (img.namesAlong i ks) = some j := by
  induction ks generalizing i with
  | nil => exact hw
  | cons k ks ih =>
    obtain ⟨m, hm, hw⟩ := Option.bind_eq_some_iff.1 hw
    obtain ⟨hd, hv, rfl⟩ := Table.slots_eq_some.1 hm
    refine Option.bind_eq_some_iff.2 ⟨_, ?_, ih (hi.step hm) hw⟩
    exact (h.table.children_eq_some hi).2 ⟨k, hm, rfl⟩

/-- Names lead where entries do that have these names. -/
theorem exists_namesAlong (h : img.WF) (hi : img.table.Live i) {ns : List (List UInt8)}
    (hw : walk img.table.children i ns = some j) :
    ∃ ks, walk img.table.slots i ks = some j ∧ img.namesAlong i ks = ns := by
  induction ns generalizing i with
  | nil => exact ⟨[], hw, rfl⟩
  | cons c ns ih =>
    obtain ⟨m, hm, hm'⟩ := Option.bind_eq_some_iff.1 hw
    obtain ⟨k, hk, rfl⟩ := (h.table.children_eq_some hi).1 hm
    obtain ⟨ks, hks, rfl⟩ := ih (hi.step hk) hm'
    refine ⟨k :: ks, Option.bind_eq_some_iff.2 ⟨m, hk, hks⟩, ?_⟩
    rw [namesAlong, nameAt, (Table.slots_eq_some.1 hk).2.2]

/-- The names of a tree are those in entries. -/
theorem asciiTree_of_nameAt (h : img.WF) (hascii : ∀ {i j k}, img.table.Live i →
    img.table.slots i k = some j → Ascii (img.nameAt i k)) : img.AsciiTree := by
  intro ns name hns
  obtain ⟨n, hn⟩ := Option.ne_none_iff_exists'.1 hns
  obtain ⟨j, hj, -⟩ := Option.map_eq_some_iff.1 hn
  rw [walk_concat] at hj
  obtain ⟨i, hi, hchild⟩ := Option.bind_eq_some_iff.1 hj
  have hlive := h.table.live_of_walk hi
  obtain ⟨k, hk, rfl⟩ := (h.table.children_eq_some hlive).1 hchild
  exact hascii hlive hk

theorem AsciiTree.nameAt (hascii : img.AsciiTree) (h : img.WF) (hi : img.table.Live i) {k : Fin 128}
    (hk : img.table.slots i k = some j) : Ascii (img.nameAt i k) := by
  obtain ⟨ns, hns⟩ := reach_iff_walk.1 (h.table.reach_children.2 hi)
  refine hascii ns _ ?_
  have hchild : img.table.children i (img.nameAt i k) = some j :=
    (h.table.children_eq_some hi).2 ⟨k, hk, rfl⟩
  rw [tree, walk_concat, hns, Option.bind_some, hchild]
  exact Option.some_ne_none _

end Image

namespace ReadImg

/-! ## Well-formed images -/

theorem getMark_eq (map : Block) {i : ℕ} (hi : i < 32768) : getMark map i = .ok (bitTest map i) := by
  have hw : Py.index 1024 ((i : ℤ) / 32) = .ok (i / 32) := Py.index_of_lt (i := i / 32) (by omega)
  have hget := DiskFmt.Bitmap.get_eq (m := .ofBlock map) hi
  rw [DiskFmt.Bitmap.get, hw] at hget
  rw [getMark, if_pos hi, ← DiskFmt.Bitmap.bit_ofBlock]
  exact hget

/-- The line for an object whose inode is marked. -/
def headOf (img : Image) (name : List UInt8) (i : ℕ) : Line :=
  let x := img.table.inode i
  .object i (if name = [] then [slash] else name) x.uid x.gid x.mode x.size.toInt true

/-- How an object of a well-formed image is shown under a name. -/
def linesOf (img : Image) (name : List UInt8) (i : ℕ) : List Line :=
  headOf img name i ::
    if (img.table.inode i).isDir then
      .dirBlock ((img.table.inode i).ptrAt 0) true :: (List.finRange 128).filterMap fun k =>
        (img.table.slots i k).map fun j => .entry k (img.nameAt i k) j
    else
      [.ptrs ((List.range (img.table.inode i).nptrs).map fun k => ((img.table.inode i).ptrAt k, true))]

section WF

variable {img : Image} (h : img.WF) {i : ℕ} (hi : img.table.Live i)
include h hi

/-- The block that an object uses is there, and marked. -/
theorem owned_eq {r : Role} {b : ℕ} (ho : img.table.Owns i r b) :
    getMark (img.block 1) b = .ok true ∧ blk img b = .ok (img.block b) := by
  obtain ⟨-, hlt, hmarked⟩ := h.table.owned hi ho
  have hcap : img.nblocks ≤ 32768 := h.table.le_cap
  refine ⟨?_, if_pos hlt⟩
  rw [getMark_eq _ (lt_of_lt_of_le hlt hcap)]
  exact congrArg Except.ok hmarked

theorem ptr_eq {k : ℕ} (hk : k < (img.table.inode i).nptrs) :
    ptr (img.table.inode i) k = .ok ((img.table.inode i).ptrAt k) ∧
      img.table.Owns i (.ptr (Fin.ofNat 1019 k)) ((img.table.inode i).ptrAt k) := by
  have hlt : k < 1019 := lt_of_lt_of_le hk (h.table.nptrs_le hi)
  refine ⟨ptr_eq_ok.2 ⟨hlt, rfl⟩, Table.owns_ptr.2 ⟨?_, rfl⟩⟩
  rwa [Fin.val_ofNat, Nat.mod_eq_of_lt hlt]

omit h in
theorem xblks_live (hp : img.PageDirs) : xblks (img.table.inode i) = (img.table.inode i).nptrs := by
  rw [xblks, FsInode.nptrs]
  split_ifs with hd
  · rw [hp i hi hd]
    rfl
  · omega

omit h hi in
/-- The valid entries of a directory are those that lead somewhere. -/
theorem filter_valid (hd : (img.table.inode i).isDir = true) {α : Type} (f : Fin 128 → α)
    {p : α → Bool} (hf : ∀ k, p (f k) = (img.table.dir i k).valid) :
    ((List.finRange 128).map f).filter p =
      (List.finRange 128).filterMap fun k => (img.table.slots i k).map fun _ => f k := by
  induction List.finRange 128 with
  | nil => rfl
  | cons k ks ih =>
    rw [List.map_cons]
    cases hv : (img.table.dir i k).valid with
    | true =>
      have hk : img.table.slots i k = some (img.table.dir i k).inode.1 := if_pos ⟨hd, hv⟩
      rw [List.filter_cons_of_pos ((hf k).trans hv), List.filterMap_cons_some (by rw [hk]; rfl), ih]
    | false =>
      have hk : img.table.slots i k = none := if_neg fun hk => by
        rw [hv] at hk
        exact absurd hk.2 Bool.false_ne_true
      rw [List.filter_cons_of_neg (by rw [hf, hv]; exact Bool.false_ne_true),
        List.filterMap_cons_none (by rw [hk]; rfl), ih]

/-- The block of entries of a directory. -/
theorem dirBlock_eq (hd : (img.table.inode i).isDir = true) :
    ptr (img.table.inode i) 0 = .ok ((img.table.inode i).ptrAt 0) ∧
      getMark (img.block 1) ((img.table.inode i).ptrAt 0) = .ok true ∧
      blk img ((img.table.inode i).ptrAt 0) = .ok (img.block ((img.table.inode i).ptrAt 0)) := by
  obtain ⟨hptr, ho⟩ := ptr_eq h hi (k := 0) (by rw [FsInode.nptrs_of_dir hd]; exact Nat.one_pos)
  exact ⟨hptr, owned_eq h hi ho⟩

/-- The blocks of a file are marked. -/
theorem ptrMark_eq {k : ℕ} (hk : k < (img.table.inode i).nptrs) :
    ptrMark img (img.table.inode i) k = .ok ((img.table.inode i).ptrAt k, true) := by
  obtain ⟨hptr, ho⟩ := ptr_eq h hi hk
  exact Py.bind_eq_ok.2 ⟨_, hptr, Py.bind_eq_ok.2 ⟨_, (owned_eq h hi ho).1, rfl⟩⟩

section Dir

variable (hascii : img.AsciiTree) (hd : (img.table.inode i).isDir = true)
include hascii hd

theorem blockChildren_eq (name : List UInt8) : blockChildren img name (img.table.inode i) 0 =
    .ok ((List.finRange 128).filterMap fun k => (img.table.slots i k).map fun j =>
      (name ++ slash :: img.nameAt i k, j)) := by
  obtain ⟨hptr, hmark, hblk⟩ := dirBlock_eq h hi hd
  have hvalid := filter_valid hd (img.table.dir i) (p := (·.valid)) fun _ => rfl
  refine Py.bind_eq_ok.2 ⟨_, hptr, Py.bind_eq_ok.2 ⟨_, hmark, Py.bind_eq_ok.2 ⟨_, hblk, ?_⟩⟩⟩
  change (((List.finRange 128).map (img.table.dir i)).filter (·.valid)).mapM (child name) = _
  rw [hvalid]
  refine mapM_filterMap fun k _ j hk => child_eq_ok.2 ⟨hascii.nameAt h hi hk, ?_⟩
  rw [(Table.slots_eq_some.1 hk).2.2]
  rfl

theorem blockLines_eq : blockLines img (img.table.inode i) 0 =
    .ok (.dirBlock ((img.table.inode i).ptrAt 0) true ::
      (List.finRange 128).filterMap fun k => (img.table.slots i k).map fun j =>
        .entry k (img.nameAt i k) j) := by
  obtain ⟨hptr, hmark, hblk⟩ := dirBlock_eq h hi hd
  have hvalid := filter_valid hd id (p := fun k => (img.table.dir i k).valid) fun _ => rfl
  rw [List.map_id] at hvalid
  refine Py.bind_eq_ok.2 ⟨_, hptr, Py.bind_eq_ok.2 ⟨_, hmark, Py.bind_eq_ok.2 ⟨_, hblk, ?_⟩⟩⟩
  refine Py.bind_eq_ok.2 ⟨_, ?_, rfl⟩
  change ((List.finRange 128).filter fun k => (img.table.dir i k).valid).mapM
    (entryLine (img.table.dir i)) = _
  rw [hvalid]
  refine mapM_filterMap fun k _ j hk => ?_
  refine Py.bind_eq_ok.2 ⟨_, decodeAscii_eq_ok.2 ⟨hascii.nameAt h hi hk, rfl⟩, ?_⟩
  rw [← (Table.slots_eq_some.1 hk).2.2]
  rfl

end Dir

variable (hp : img.PageDirs) (hascii : img.AsciiTree)
include hp hascii

/-- The children of an object are what its valid entries lead to. -/
theorem childrenOf_eq (name : List UInt8) : childrenOf img name (img.table.inode i) =
    .ok ((List.finRange 128).filterMap fun k => (img.table.slots i k).map fun j =>
      (name ++ slash :: img.nameAt i k, j)) := by
  have hxblks := xblks_live hi hp
  cases hd : (img.table.inode i).isDir with
  | true =>
    have hreg := FsInode.isReg_of_isDir hd
    rw [FsInode.nptrs_of_dir hd] at hxblks
    rw [childrenOf, if_neg (by rw [hreg]; exact Bool.false_ne_true), if_pos hd, hxblks]
    refine Py.bind_eq_ok.2 ⟨_, mapM_range_one (blockChildren_eq h hi hascii hd name), ?_⟩
    exact congrArg Except.ok (List.append_nil _)
  | false =>
    have hnone : ∀ k, img.table.slots i k = none := fun k => if_neg fun hk => by
      rw [hd] at hk
      exact absurd hk.1 Bool.false_ne_true
    have hnil : ((List.finRange 128).filterMap fun k => (img.table.slots i k).map fun j =>
        (name ++ slash :: img.nameAt i k, j)) = [] :=
      List.filterMap_eq_nil_iff.2 fun k _ => by rw [hnone]; rfl
    obtain ⟨ms, hms⟩ : ∃ ms, (List.range (xblks (img.table.inode i))).mapM
        (fileBlock img (img.table.inode i)) = .ok ms := by
      refine exists_mapM_eq_ok fun k hk => ?_
      rw [hxblks, List.mem_range] at hk
      obtain ⟨hptr, ho⟩ := ptr_eq h hi hk
      exact ⟨true, Py.bind_eq_ok.2 ⟨_, hptr, (owned_eq h hi ho).1⟩⟩
    rw [childrenOf, if_pos (h.table.isReg hi hd), hnil]
    exact Py.bind_eq_ok.2 ⟨ms, hms, rfl⟩

theorem objectLines_eq (name : List UInt8) : objectLines img name i = .ok (linesOf img name i) := by
  have hxblks := xblks_live hi hp
  obtain ⟨hmark, -⟩ := owned_eq h hi (Table.owns_inode.2 rfl)
  refine Py.bind_eq_ok.2 ⟨true, hmark, ?_⟩
  change (if (img.table.inode i).isReg = true then _ else _) = _
  cases hd : (img.table.inode i).isDir with
  | true =>
    have hreg := FsInode.isReg_of_isDir hd
    rw [FsInode.nptrs_of_dir hd] at hxblks
    rw [if_neg (by rw [hreg]; exact Bool.false_ne_true), linesOf, if_pos hd]
    refine (if_pos hd).trans ?_
    change ((List.range (xblks (img.table.inode i))).mapM
      (blockLines img (img.table.inode i)) >>= _) = _
    rw [hxblks]
    refine Py.bind_eq_ok.2 ⟨_, mapM_range_one (blockLines_eq h hi hascii hd), ?_⟩
    exact congrArg Except.ok (congrArg (List.cons _) (List.append_nil _))
  | false =>
    have hptrs : (List.range (img.table.inode i).nptrs).mapM (ptrMark img (img.table.inode i)) =
        .ok ((List.range (img.table.inode i).nptrs).map fun k =>
          ((img.table.inode i).ptrAt k, true)) :=
      mapM_eq_ok.2 ((List.map_congr_left fun k hk =>
        ptrMark_eq h hi (List.mem_range.1 hk)).trans List.map_map.symm)
    have hlines : linesOf img name i = [headOf img name i, .ptrs
        ((List.range (img.table.inode i).nptrs).map fun k => ((img.table.inode i).ptrAt k, true))] :=
      congrArg (List.cons _) (if_neg (by rw [hd]; exact Bool.false_ne_true))
    refine (if_pos (h.table.isReg hi hd)).trans ?_
    rw [hlines]
    rw [← hxblks] at hptrs ⊢
    exact Py.bind_eq_ok.2 ⟨_, hptrs, rfl⟩

end WF

section Traversal

variable {img : Image} (h : img.WF) (hp : img.PageDirs) (hascii : img.AsciiTree) {i depth : ℕ}
  {as : List (Fin 128)} (hw : walk img.table.slots 2 as = some i)
  (hdepth : img.nblocks ≤ depth + as.length)
include h hw hdepth

/-- The recursion is not too deep: a walk in a tree is shorter than there are objects. -/
theorem depth_pos : 0 < depth := by
  have hlt := h.table.tree.walk_length_lt
    (fun j hj => (h.table.owned hj (Table.owns_inode.2 rfl)).2.1) hw
  change as.length < img.nblocks at hlt
  omega

/-- What is collected of an object, and then of its children, is collected along the walks from it,
    depth first. -/
theorem collect_eq {β : Type} {f : ℕ → List UInt8 → ℕ → Except PyError (List β)}
    {F : List UInt8 → ℕ → List β}
    (hf : ∀ {depth name i below}, img.table.Live i →
      ((List.finRange 128).filterMap fun k => (img.table.slots i k).map fun j =>
        (name ++ slash :: img.nameAt i k, j)).mapM (fun c => f depth c.1 c.2) = .ok below →
      f (depth + 1) name i = .ok (F name i ++ below.flatten)) (name : List UInt8) :
    f depth name i = .ok ((walks img.table.slots (List.finRange 128) depth i).flatMap fun ks =>
      F (name ++ joinPath (img.namesAlong i ks)) (img.endOf i ks)) := by
  induction depth generalizing name i as with
  | zero => exact absurd (depth_pos h hw hdepth) (Nat.lt_irrefl 0)
  | succ depth ih =>
    rw [flatMap_walks, Image.namesAlong, Image.endOf, show joinPath [] = [] from rfl, List.append_nil]
    refine hf (Reach.root.walk hw) (mapM_filterMap fun k _ j hk => ?_)
    have hw' : walk img.table.slots 2 (as ++ [k]) = some j := by
      rw [walk_concat, hw]
      exact hk
    refine (ih hw' ?_ _).trans (congrArg Except.ok ?_)
    · rw [List.length_append, List.length_singleton]
      omega
    · obtain ⟨-, -, rfl⟩ := Table.slots_eq_some.1 hk
      simp only [Image.namesAlong, Image.endOf, joinPath_cons, List.append_assoc]

include hp hascii

/-- The script visits what walks lead to. -/
theorem iter_eq (name : List UInt8) : iter img depth name i =
    .ok ((walks img.table.slots (List.finRange 128) depth i).map fun ks =>
      (name ++ joinPath (img.namesAlong i ks), img.endOf i ks)) := by
  rw [List.map_eq_flatMap]
  refine collect_eq (F := fun name i => [(name, i)]) h hw hdepth
    (fun {depth name i below} hi hbelow => ?_) name
  obtain ⟨-, hlt, -⟩ := h.table.owned hi (Table.owns_inode.2 rfl)
  refine (if_neg (Nat.not_le.2 hlt)).trans ?_
  exact Py.bind_eq_ok.2 ⟨true, (owned_eq h hi (Table.owns_inode.2 rfl)).1,
    Py.bind_eq_ok.2 ⟨_, childrenOf_eq h hi hp hascii name, Py.bind_eq_ok.2 ⟨_, hbelow, rfl⟩⟩⟩

/-- What it prints of them. -/
theorem iterLines_eq (name : List UInt8) : iterLines img depth name i =
    .ok ((walks img.table.slots (List.finRange 128) depth i).flatMap fun ks =>
      linesOf img (name ++ joinPath (img.namesAlong i ks)) (img.endOf i ks)) := by
  refine collect_eq (F := linesOf img) h hw hdepth (fun {depth name i below} hi hbelow => ?_) name
  obtain ⟨-, hlt, -⟩ := h.table.owned hi (Table.owns_inode.2 rfl)
  refine (if_neg (Nat.not_le.2 hlt)).trans ?_
  exact Py.bind_eq_ok.2 ⟨_, objectLines_eq h hi hp hascii name,
    Py.bind_eq_ok.2 ⟨_, childrenOf_eq h hi hp hascii name, Py.bind_eq_ok.2 ⟨_, hbelow, rfl⟩⟩⟩

end Traversal

/-! ## Reports -/

end ReadImg

/-- What is printed for an object `/`, or for one below. -/
def title (ns : List (List UInt8)) : List UInt8 :=
  if ReadImg.joinPath ns = [] then [slash] else ReadImg.joinPath ns

/-- An account of an image: the objects of its volume in some order, the inode number and the other
    blocks of each one, and the entries of each directory. -/
structure Report (img : Image) where
  names : List (List (List UInt8))
  inum : List (List UInt8) → ℕ
  blocks : List (List UInt8) → List ℕ
  entries : List (List UInt8) → List (Fin 128 × List UInt8)
  used : List ℕ
  found : List ℕ
  /-- Each object of the tree is shown once, with the number of its inode. -/
  nodup : names.Nodup
  mem_names : ∀ {ns}, ns ∈ names ↔ img.volume.tree ns ≠ none
  walk_inum : ∀ {ns}, ns ∈ names → walk img.table.children 2 ns = some (inum ns)
  /-- It has the blocks that its inode points to, as many as it takes, and they are its own. -/
  blocks_eq : ∀ {ns}, ns ∈ names → blocks ns = (img.table.inode (inum ns)).used
  length_blocks : ∀ {ns n}, img.volume.tree ns = some n → (blocks ns).length + 1 = n.blocks
  nodup_blocks : (names.flatMap fun ns => inum ns :: blocks ns).Nodup
  marked : ∀ {ns b}, ns ∈ names → b ∈ inum ns :: blocks ns → b ∈ used
  /-- The contents of a file are in its blocks, in this order. -/
  content : ∀ {ns a c}, img.volume.tree ns = some (.file a c) →
    c = (List.range c.length).map fun o => (img.block ((blocks ns).getD (o / 4096) 0)).byte (o % 4096)
  /-- The entries of a directory are the valid ones in its block, and have the names in it. -/
  entries_eq : ∀ {ns}, ns ∈ names → entries ns = img.entriesOf (inum ns)
  nodup_entries : ∀ {ns}, ns ∈ names → ((entries ns).map Prod.snd).Nodup
  mem_entries : ∀ {ns name}, ns ∈ names →
    (name ∈ (entries ns).map Prod.snd ↔ img.volume.tree (ns ++ [name]) ≠ none)
  /-- The marked blocks are those of the bitmap, and the other ones are free. -/
  sorted_used : used.Pairwise (· < ·)
  mem_used : ∀ {b}, b ∈ used ↔ b < img.nblocks ∧ img.table.marked b = true
  length_used : used.length + img.volume.free = img.volume.blocks
  sorted_found : found.Pairwise (· < ·)
  mem_found : ∀ {i}, i ∈ found ↔ ∃ ns ∈ names, inum ns = i

namespace Report

open ReadImg

variable {img : Image} (r : Report img)

/-- The lines for an object. -/
def object (ns : List (List UInt8)) (n : Node) : List Line :=
  .object (r.inum ns) (title ns) n.attrs.uid n.attrs.gid n.attrs.mode n.attrs.size.toInt true ::
    match n with
    | .file _ _ => [.ptrs ((r.blocks ns).map fun b => (b, true))]
    | .dir _ => (r.blocks ns).map (fun b => .dirBlock b true) ++
        (r.entries ns).map fun e => .entry e.1 e.2 (r.inum (ns ++ [e.2]))

/-- All lines. -/
def lines : List Line :=
  .magic magicNumber false :: .blocks (UInt32.ofNat img.volume.blocks) false :: .used r.used ::
    .found r.found :: r.names.flatMap fun ns => (img.volume.tree ns).elim [] (r.object ns)

end Report

namespace Image

open ReadImg

/-! ## The report of a well-formed image -/

section Report

variable {img : Image} (h : img.WF) {depth : ℕ} (hdepth : img.nblocks ≤ depth)

/-- The walks from the root. -/
def routes (img : Image) (depth : ℕ) : List (List (Fin 128)) :=
  walks img.table.slots (List.finRange 128) depth 2

/-- The inode number that names lead to. -/
def inum (img : Image) (ns : List (List UInt8)) : ℕ := (walk img.table.children 2 ns).getD 0

include h

theorem inum_namesAlong {as : List (Fin 128)} {i : ℕ} (hw : walk img.table.slots 2 as = some i) :
    img.inum (img.namesAlong 2 as) = i := by
  rw [inum, walk_namesAlong h .root hw]
  rfl

theorem tree_namesAlong {as : List (Fin 128)} {i : ℕ} (hw : walk img.table.slots 2 as = some i) :
    img.tree (img.namesAlong 2 as) = some (img.node i) := by
  rw [tree, walk_namesAlong h .root hw]
  rfl

include hdepth

theorem mem_routes {as : List (Fin 128)} :
    as ∈ img.routes depth ↔ ∃ i, walk img.table.slots 2 as = some i := by
  rw [routes, mem_walks List.mem_finRange]
  refine and_iff_right_of_imp fun ⟨i, hi⟩ => lt_of_lt_of_le ?_ hdepth
  exact h.table.tree.walk_length_lt (fun j hj => (h.table.lt_of_live hj).2) hi

theorem mem_names {ns : List (List UInt8)} :
    ns ∈ (img.routes depth).map (img.namesAlong 2) ↔ ∃ i, walk img.table.children 2 ns = some i := by
  rw [List.mem_map]
  constructor
  · rintro ⟨as, has, rfl⟩
    obtain ⟨i, hi⟩ := (mem_routes h hdepth).1 has
    exact ⟨i, walk_namesAlong h .root hi⟩
  · rintro ⟨i, hi⟩
    obtain ⟨as, has, rfl⟩ := exists_namesAlong h .root hi
    exact ⟨as, (mem_routes h hdepth).2 ⟨i, has⟩, rfl⟩

theorem nodup_names : ((img.routes depth).map (img.namesAlong 2)).Nodup := by
  refine h.table.tree.nodup_map_walks (List.nodup_finRange 128) (e := img.inum) fun as has => ?_
  obtain ⟨i, hi⟩ := (mem_routes h hdepth).1 has
  rw [inum_namesAlong h hi, hi]

/-- No block is shown twice. -/
theorem nodup_blocks : (((img.routes depth).map (img.namesAlong 2)).flatMap fun ns =>
    img.inum ns :: (img.table.inode (img.inum ns)).used).Nodup := by
  have hlive : ∀ {ns}, ns ∈ (img.routes depth).map (img.namesAlong 2) → ∃ i,
      walk img.table.children 2 ns = some i ∧ img.inum ns = i ∧ img.table.Live i := by
    intro ns hns
    obtain ⟨i, hi⟩ := (mem_names h hdepth).1 hns
    exact ⟨i, hi, by rw [inum, hi]; rfl, h.table.live_of_walk hi⟩
  rw [List.nodup_flatMap]
  refine ⟨fun ns hns => ?_, ?_⟩
  · obtain ⟨i, -, rfl, hi⟩ := hlive hns
    exact h.table.nodup_blocks hi
  · refine (nodup_names h hdepth).imp_of_mem fun {ns ms} hns hms hne b hb hb' => ?_
    obtain ⟨i, hi, rfl, hl⟩ := hlive hns
    obtain ⟨j, hj, rfl, hl'⟩ := hlive hms
    obtain ⟨_, ho⟩ := (h.table.mem_blocks hl).1 hb
    obtain ⟨_, ho'⟩ := (h.table.mem_blocks hl').1 hb'
    rw [← (h.table.disjoint hl hl' ho ho').1] at hj
    exact hne (h.table.children_tree.walk_injective hi hj)

/-- What is found are the inode numbers of the tree. -/
theorem mem_found {i : ℕ} : i ∈ (List.range img.nblocks).filter (fun i =>
    ((img.routes depth).map (img.endOf 2)).contains i) ↔
      ∃ ns ∈ (img.routes depth).map (img.namesAlong 2), img.inum ns = i := by
  rw [List.mem_filter, List.mem_range, List.contains_iff_mem, List.mem_map]
  constructor
  · rintro ⟨-, as, has, rfl⟩
    obtain ⟨i, hi⟩ := (mem_routes h hdepth).1 has
    exact ⟨_, List.mem_map_of_mem has, by rw [inum_namesAlong h hi, endOf_eq hi]⟩
  · rintro ⟨ns, hns, rfl⟩
    obtain ⟨as, has, rfl⟩ := List.mem_map.1 hns
    obtain ⟨i, hi⟩ := (mem_routes h hdepth).1 has
    rw [inum_namesAlong h hi]
    exact ⟨(h.table.lt_of_live (Reach.root.walk hi)).2, as, has, endOf_eq hi⟩

/-- The blocks of an object are marked. -/
theorem mem_marked {ns : List (List UInt8)} {b : ℕ}
    (hns : ns ∈ (img.routes depth).map (img.namesAlong 2))
    (hb : b ∈ img.inum ns :: (img.table.inode (img.inum ns)).used) :
    b ∈ (List.range img.nblocks).filter (bitTest (img.block 1)) := by
  obtain ⟨i, hi⟩ := (mem_names h hdepth).1 hns
  rw [inum, hi, Option.getD_some] at hb
  obtain ⟨_, ho⟩ := (h.table.mem_blocks (h.table.live_of_walk hi)).1 hb
  obtain ⟨-, hlt, hmarked⟩ := h.table.owned (h.table.live_of_walk hi) ho
  exact List.mem_filter.2 ⟨List.mem_range.2 hlt, hmarked⟩

omit hdepth

/-- The marked blocks and the free ones are all blocks. -/
theorem length_marked : ((List.range img.nblocks).filter (bitTest (img.block 1))).length +
    img.free.length = img.nblocks := by
  have h3 := h.table.three_le
  change 3 ≤ img.nblocks at h3
  have hrange : List.range img.nblocks = [0, 1] ++ List.range' 2 (img.nblocks - 2) := by
    rw [List.range_eq_range', show img.nblocks = 2 + (img.nblocks - 2) by omega,
      ← List.range'_append_1, Nat.add_sub_cancel_left]
    rfl
  have htwo : [0, 1].filter (bitTest (img.block 1)) = [0, 1] :=
    List.filter_eq_self.2 fun b hb => by
      rcases List.mem_pair.1 hb with rfl | rfl
      · exact h.table.reserved.1
      · exact h.table.reserved.2
  have hsum := List.length_eq_length_filter_add (l := List.range' 2 (img.nblocks - 2))
    (bitTest (img.block 1))
  rw [hrange, List.filter_append, htwo, List.length_append, free, freeBlocks, Nat.add_assoc, ← hsum,
    List.length_range']
  change 2 + (img.nblocks - 2) = img.nblocks
  omega

omit h in
theorem mem_entriesOf {i : ℕ} {e : Fin 128 × List UInt8} :
    e ∈ img.entriesOf i ↔ ∃ j, img.table.slots i e.1 = some j ∧ img.nameAt i e.1 = e.2 := by
  rw [entriesOf, List.mem_filterMap]
  constructor
  · rintro ⟨k, -, hk⟩
    obtain ⟨j, hj, rfl⟩ := Option.map_eq_some_iff.1 hk
    exact ⟨j, hj, rfl⟩
  · rintro ⟨j, hj, hname⟩
    exact ⟨e.1, List.mem_finRange e.1, Option.map_eq_some_iff.2 ⟨j, hj, Prod.ext rfl hname⟩⟩

theorem nodup_entriesOf {i : ℕ} (hi : img.table.Live i) :
    ((img.entriesOf i).map Prod.snd).Nodup := by
  refine List.Nodup.map_on (fun e he f hf hef => ?_) ?_
  · obtain ⟨_, hj, hname⟩ := mem_entriesOf.1 he
    obtain ⟨_, hj', hname'⟩ := mem_entriesOf.1 hf
    obtain ⟨hd, hv, -⟩ := Table.slots_eq_some.1 hj
    obtain ⟨-, hv', -⟩ := Table.slots_eq_some.1 hj'
    refine Prod.ext (h.table.distinct hi hd hv hv' ?_) hef
    exact hname.trans (hef.trans hname'.symm)
  · refine List.Nodup.filterMap (fun k l e hk hl => ?_) (List.nodup_finRange 128)
    obtain ⟨_, _, rfl⟩ := Option.map_eq_some_iff.1 hk
    obtain ⟨_, _, hkl⟩ := Option.map_eq_some_iff.1 hl
    exact (congrArg Prod.fst hkl).symm

theorem mem_names_entriesOf {ns : List (List UInt8)} {name : List UInt8} {i : ℕ}
    (hns : walk img.table.children 2 ns = some i) :
    name ∈ (img.entriesOf i).map Prod.snd ↔ img.tree (ns ++ [name]) ≠ none := by
  rw [tree, walk_concat, hns, Option.bind_some, ne_eq, Option.map_eq_none_iff, ← ne_eq,
    Option.ne_none_iff_exists', List.mem_map]
  constructor
  · rintro ⟨e, he, rfl⟩
    obtain ⟨j, hj, hname⟩ := mem_entriesOf.1 he
    exact ⟨j, (h.table.children_eq_some (h.table.live_of_walk hns)).2 ⟨e.1, hj, hname⟩⟩
  · rintro ⟨j, hj⟩
    obtain ⟨k, hk, hname⟩ := (h.table.children_eq_some (h.table.live_of_walk hns)).1 hj
    exact ⟨(k, name), mem_entriesOf.2 ⟨j, hk, hname⟩, rfl⟩

omit h in
/-- The bytes of a file are in the blocks that are shown, one block after the other. -/
theorem content_eq (img : Image) {x : FsInode} (hd : x.isDir = false) : img.content x =
    (List.range (img.content x).length).map fun o =>
      (img.block (x.used.getD (o / 4096) 0)).byte (o % 4096) := by
  rw [content_length, content]
  refine List.map_congr_left fun o ho => ?_
  have hlt : o / 4096 < x.nptrs := by
    rw [List.mem_range] at ho
    rw [FsInode.nptrs_of_file hd, blocksFor]
    omega
  rw [fileByte, FsInode.used, List.getD_eq_getElem _ _ (by simpa using hlt), List.getElem_map,
    List.getElem_range]

omit h in
/-- The contents of a file of the tree are in the blocks that are shown. -/
theorem content_inum {ns : List (List UInt8)} {a : Attrs} {c : List UInt8}
    (hc : img.tree ns = some (.file a c)) : c = (List.range c.length).map fun o =>
      (img.block ((img.table.inode (img.inum ns)).used.getD (o / 4096) 0)).byte (o % 4096) := by
  obtain ⟨i, hi, hnode⟩ := Option.map_eq_some_iff.1 hc
  rw [inum, hi, Option.getD_some]
  cases hd : (img.table.inode i).isDir with
  | true =>
    rw [node_eq_dir hd] at hnode
    cases hnode
  | false =>
    rw [node_eq_file hd] at hnode
    rw [← (Node.file.inj hnode).2]
    exact content_eq img hd

/-- The report of an image. -/
def report (depth : ℕ) (hdepth : img.nblocks ≤ depth) : Report img where
  names := (img.routes depth).map (img.namesAlong 2)
  inum := img.inum
  blocks ns := (img.table.inode (img.inum ns)).used
  entries ns := img.entriesOf (img.inum ns)
  used := (List.range img.nblocks).filter (bitTest (img.block 1))
  found := (List.range img.nblocks).filter fun i =>
    ((img.routes depth).map (img.endOf 2)).contains i
  nodup := nodup_names h hdepth
  mem_names := by
    intro ns
    rw [mem_names h hdepth, ← Option.ne_none_iff_exists']
    exact Option.map_eq_none_iff.not.symm
  walk_inum := by
    intro ns hns
    obtain ⟨i, hi⟩ := (mem_names h hdepth).1 hns
    rw [inum, hi]
    rfl
  blocks_eq _ := rfl
  length_blocks := by
    intro ns n hn
    obtain ⟨i, hi, rfl⟩ := Option.map_eq_some_iff.1 (show img.tree ns = some n from hn)
    rw [inum, hi, Option.getD_some, FsInode.length_used, blocks_node, Nat.add_comm]
  nodup_blocks := nodup_blocks h hdepth
  marked := mem_marked h hdepth
  content := content_inum
  entries_eq _ := rfl
  nodup_entries := by
    intro ns hns
    obtain ⟨i, hi⟩ := (mem_names h hdepth).1 hns
    rw [inum, hi]
    exact nodup_entriesOf h (h.table.live_of_walk hi)
  mem_entries := by
    intro ns name hns
    obtain ⟨i, hi⟩ := (mem_names h hdepth).1 hns
    rw [inum, hi]
    exact mem_names_entriesOf h hi
  sorted_used := List.pairwise_lt_range.filter _
  mem_used := by
    intro b
    rw [List.mem_filter, List.mem_range]
    rfl
  length_used := length_marked h
  sorted_found := List.pairwise_lt_range.filter _
  mem_found := mem_found h hdepth

/-- What is shown of an object is what the report says. -/
theorem linesOf_eq (depth : ℕ) (hdepth : img.nblocks ≤ depth) {as : List (Fin 128)} {i : ℕ}
    (hw : walk img.table.slots 2 as = some i) : linesOf img (joinPath (img.namesAlong 2 as)) i =
    (img.report h depth hdepth).object (img.namesAlong 2 as) (img.node i) := by
  have hinum := inum_namesAlong h hw
  cases hd : (img.table.inode i).isDir with
  | true =>
    have hentries : ((List.finRange 128).filterMap fun k => (img.table.slots i k).map fun j =>
          Line.entry k (img.nameAt i k) j) =
        (img.entriesOf i).map fun e => .entry e.1 e.2 (img.inum (img.namesAlong 2 as ++ [e.2])) := by
      rw [entriesOf, List.map_filterMap]
      refine List.filterMap_congr fun k _ => ?_
      cases hk : img.table.slots i k with
      | none => rfl
      | some j =>
        have hchild := (h.table.children_eq_some (Reach.root.walk hw)).2 ⟨k, hk, rfl⟩
        rw [Option.map_some, Option.map_some, Option.map_some, inum, walk_concat,
          walk_namesAlong h .root hw, Option.bind_some]
        exact congrArg (fun n => some (Line.entry k (img.nameAt i k) n)) (by rw [nameAt, hchild]; rfl)
    have hused : (img.table.inode i).used = [(img.table.inode i).ptrAt 0] := by
      rw [FsInode.used, FsInode.nptrs_of_dir hd]
      rfl
    rw [linesOf, if_pos hd, hentries, node_eq_dir hd, Report.object]
    simp only [report, hinum, hused]
    rfl
  | false =>
    rw [linesOf, if_neg (by rw [hd]; exact Bool.false_ne_true), node_eq_file hd, Report.object]
    simp only [report, hinum, FsInode.used, List.map_map]
    rfl

/-- The script prints the report of a well-formed image. -/
theorem script_eq (hmagic : (FsSuper.decode (img.block 0)).magic = magicNumber) (hp : img.PageDirs)
    (hascii : img.AsciiTree) (hdepth : img.nblocks ≤ depth) :
    script img depth = .ok (img.report h depth hdepth).lines := by
  have h3 := h.table.three_le
  have hcap : img.nblocks ≤ 32768 := h.table.le_cap
  change 3 ≤ img.nblocks at h3
  have hroot : walk img.table.slots 2 [] = some 2 := rfl
  have hmarks : (List.range img.nblocks).mapM (getMark (img.block 1)) =
      .ok ((List.range img.nblocks).map (bitTest (img.block 1))) := by
    refine mapM_eq_ok.2 ((List.map_congr_left fun k hk => ?_).trans List.map_map.symm)
    exact getMark_eq _ (lt_of_lt_of_le (List.mem_range.1 hk) hcap)
  have hsize : (FsSuper.decode (img.block 0)).diskSize = UInt32.ofNat img.nblocks := by
    rw [← h.diskSize, UInt32.ofNat_toNat]
  have hused : ((List.range img.nblocks).filter fun i =>
      ((List.range img.nblocks).map (bitTest (img.block 1))).getD i false) =
        (List.range img.nblocks).filter (bitTest (img.block 1)) := by
    refine List.filter_congr fun i hi => ?_
    rw [List.mem_range] at hi
    rw [List.getD_eq_getElem _ _ (by simpa using hi), List.getElem_map, List.getElem_range]
  have hlines : ((img.routes depth).flatMap fun as =>
      linesOf img ([] ++ joinPath (img.namesAlong 2 as)) (img.endOf 2 as)) =
        ((img.routes depth).map (img.namesAlong 2)).flatMap fun ns =>
          (img.volume.tree ns).elim [] ((img.report h depth hdepth).object ns) := by
    rw [List.flatMap_map, List.flatMap_def, List.flatMap_def]
    refine congrArg List.flatten (List.map_congr_left fun as has => ?_)
    obtain ⟨i, hi⟩ := (mem_routes h hdepth).1 has
    rw [List.nil_append, endOf_eq hi, linesOf_eq h depth hdepth hi]
    change _ = (img.tree _).elim _ _
    rw [tree_namesAlong h hi, Option.elim_some]
  refine Py.bind_eq_ok.2 ⟨_, if_pos (by omega), Py.bind_eq_ok.2 ⟨_, if_pos (by omega),
    Py.bind_eq_ok.2 ⟨_, hmarks, Py.bind_eq_ok.2 ⟨_, iter_eq h hp hascii hroot hdepth [],
      Py.bind_eq_ok.2 ⟨_, iterLines_eq h hp hascii hroot hdepth [], ?_⟩⟩⟩⟩⟩
  change Except.ok (_ :: _ :: _ :: _ :: (img.routes depth).flatMap _) = _
  rw [hmagic, hsize, hused, hlines, List.map_map]
  have hbad : ((UInt32.ofNat img.nblocks).toNat != img.nblocks) = false := by
    rw [← hsize, h.diskSize, bne_self_eq_false]
  rw [hbad]
  rfl

end Report

end Image

/-! ## Reports of runs -/

/-- A call does not change the superblock. -/
theorem FsState.Calls.block_zero {s s' : FsState} {c : Called} (h : s.WF) (hc : s.Calls c s') :
    s'.WF ∧ s'.img.block 0 = s.img.block 0 := by
  obtain ⟨hop, hrun⟩ := hc
  have hwf' := exec_wf h c.env hop.ok
  rw [hrun] at hwf'
  refine ⟨hwf', ?_⟩
  by_cases hm : c.op.Modifies
  · obtain ⟨r, ws, he⟩ := Op.exists_ends c.env hm hop.ok
    obtain ⟨-, rfl⟩ := Prod.mk.inj ((exec_run h hop.ok he).symm.trans hrun)
    rw [← hwf'.superblock, ← h.superblock, FsState.wrote_superblock]
  · have hidle : ((c.op.exec c.env).run s).2 = s := exec_reads hm s
    rw [hrun] at hidle
    rw [show s' = s from hidle]

/-- Directories of one block stay so. -/
theorem FsState.Calls.pageDirs {s s' : FsState} {c : Called} (h : s.WF) (hp : s.img.PageDirs)
    (hc : s.Calls c s') : s'.img.PageDirs := by
  have hwf' := (hc.block_zero h).1
  obtain ⟨hop, hrun⟩ := hc
  have hcall := exec_call h (fun hi hd => (hp _ hi hd).le) hop hrun
  intro i hi hd
  refine (Image.dirSize_volume hwf'.img (P := fun size => size.toInt = 4096)).1 (fun hns => ?_) hi hd
  refine hcall.changes.dirSize (P := fun size => size.toInt = 4096) (by decide) (fun hold => ?_) hns
  exact (Image.dirSize_volume h.img (P := fun size => size.toInt = 4096)).2 (hp _) hold

/-- What the script relies on stays so. -/
theorem reportable_trace {s s' : FsState} (h : s.WF) (hp : s.img.PageDirs) {cs : List Called}
    (ht : Trace FsState.Calls s cs s') :
    s'.WF ∧ s'.img.block 0 = s.img.block 0 ∧ s'.img.PageDirs := by
  have hstep : ∀ t c t', t.WF ∧ t.img.block 0 = s.img.block 0 ∧ t.img.PageDirs →
      FsState.Calls t c t' → t'.WF ∧ t'.img.block 0 = s.img.block 0 ∧ t'.img.PageDirs := by
    rintro t c t' ⟨hwf, hblock, hp⟩ hc
    obtain ⟨hwf', hblock'⟩ := hc.block_zero hwf
    exact ⟨hwf', hblock'.trans hblock, hc.pageDirs hwf hp⟩
  have hend := ht.invariant hstep ⟨h, rfl, hp⟩
  exact hend

/-- After any calls, the script prints the report of the image, in which nothing is wrong: the objects
    of the volume. -/
theorem script_report {s s' : FsState} (h : s.WF)
    (hmagic : (FsSuper.decode (s.img.block 0)).magic = ReadImg.magicNumber) (hp : s.img.PageDirs)
    {cs : List Called} (ht : Trace FsState.Calls s cs s') (hascii : s'.img.AsciiTree) {depth : ℕ}
    (hdepth : s'.img.nblocks ≤ depth) :
    ∃ hwf : s'.img.WF,
      ReadImg.script s'.img depth = .ok (s'.img.report hwf depth hdepth).lines := by
  obtain ⟨hwf, hblock, hp⟩ := reportable_trace h hp ht
  exact ⟨hwf.img, Image.script_eq hwf.img (by rw [hblock, hmagic]) hp hascii hdepth⟩

/-- The file system with `/a` has ASCII names. -/
theorem asciiTree_fileA : fileA.img.AsciiTree := by
  have hroot : ∀ k, (fileA.img.table.dir 2 k).valid = true →
      (fileA.img.table.dir 2 k).inode = 4 ∧ (fileA.img.nameAt 2 k).all (· < 128) = true := by
    decide +kernel
  have hfile : (fileA.img.table.inode 4).isDir = false := by decide +kernel
  refine Image.asciiTree_of_nameAt wf_fileA.img fun {i j k} hi hk => ?_
  obtain ⟨hd, hv, -⟩ := Table.slots_eq_some.1 hk
  suffices hlive : i = 2 ∨ i = 4 by
    rcases hlive with rfl | rfl
    · exact fun c hc => of_decide_eq_true (List.all_eq_true.1 (hroot k hv).2 c hc)
    · rw [hfile] at hd
      cases hd
  clear hk hd hv
  induction hi with
  | root => exact .inl rfl
  | @step x y k _ hxy ih =>
    obtain ⟨hx, hv, rfl⟩ := Table.slots_eq_some.1 hxy
    rcases ih with rfl | rfl
    · rw [(hroot k hv).1]
      exact .inr rfl
    · rw [hfile] at hx
      cases hx

/-- The report of the file system with `/a`. -/
theorem script_report_fileA : ∃ hwf : fileA.img.WF,
    ReadImg.script fileA.img 8 = .ok (fileA.img.report hwf 8 (by decide)).lines :=
  script_report wf_emptyFs rfl (fun i hi _ => by rw [Image.live_format.1 hi]; decide +kernel)
    (.single calls_fileA) asciiTree_fileA (by decide)

end Cs5600
