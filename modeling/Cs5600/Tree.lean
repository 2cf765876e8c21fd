import Cs5600.Image
import Cs5600.Names

/-!
# The tree of an image

What a user sees of an image: a partial function from lists of names to *nodes*
(`Image.tree`), which are files, with their attributes and contents, and
directories, with their attributes. The names lead from the root inode along
directory entries, and the contents of a file are the bytes of its blocks below
its size.

The node of an object depends on the blocks the object owns only, other than
those with directory entries (`node_put`). Hence a write changes the tree as
follows:

* not at all if the block is not referenced (`tree_put_of_not_referenced`);
* at one path, if it is an inode or a block of a file (`tree_putInode`,
  `tree_put_of_owns`);
* by adding, removing or moving a path if it is a block of directory entries
  (`tree_putLink`, `tree_putUnlink`, `tree_putRename`).
-/

namespace Cs5600

open LabelledGraph Table

/-- The attributes of an object. -/
structure Attrs where
  uid : UInt16
  gid : UInt16
  mode : UInt32
  ctime : UInt32
  mtime : UInt32
  size : Int32
  deriving DecidableEq

def FsInode.attrs (x : FsInode) : Attrs :=
  { uid := x.uid, gid := x.gid, mode := x.mode, ctime := x.ctime, mtime := x.mtime, size := x.size }

/-- What a path leads to. -/
inductive Node
  | file (attrs : Attrs) (content : List UInt8)
  | dir (attrs : Attrs)
  deriving DecidableEq

/-- The block that the pointer `k` of an inode leads to. -/
def FsInode.ptrAt (x : FsInode) (k : ℕ) : ℕ := (x.ptrs (Fin.ofNat 1019 k)).toNat

namespace Image

variable (img : Image)

/-- The byte `o` of the blocks of an inode. -/
def fileByte (x : FsInode) (o : ℕ) : UInt8 := (img.block (x.ptrAt (o / 4096))).byte (o % 4096)

/-- The bytes of an inode below its size. -/
def content (x : FsInode) : List UInt8 :=
  (List.range x.size.toInt.toNat).map (img.fileByte x)

/-- The node of an object with a given inode. -/
def nodeOf (x : FsInode) : Node := if x.isDir then .dir x.attrs else .file x.attrs (img.content x)

/-- The node of an object. -/
def node (i : ℕ) : Node := img.nodeOf (img.table.inode i)

/-- The nodes that lists of names lead to. -/
def tree (names : List (List UInt8)) : Option Node :=
  (walk img.table.children 2 names).map img.node

variable {img} {w : Write}

theorem content_length (img : Image) (x : FsInode) : (img.content x).length = x.size.toInt.toNat := by
  rw [content, List.length_map, List.length_range]

theorem content_congr {img' : Image} {x : FsInode}
    (h : ∀ o < x.size.toInt.toNat, img'.fileByte x o = img.fileByte x o) :
    img'.content x = img.content x :=
  List.map_congr_left fun o ho => h o (List.mem_range.1 ho)

/-- The bytes below the size of a file are in blocks that it owns. -/
theorem owns_of_lt {i o : ℕ} (hd : (img.table.inode i).isDir = false)
    (hle : (img.table.inode i).size.toInt ≤ 1019 * 4096)
    (ho : o < (img.table.inode i).size.toInt.toNat) :
    img.table.Owns i (.ptr (Fin.ofNat 1019 (o / 4096)))
      ((img.table.inode i).ptrAt (o / 4096)) := by
  refine owns_ptr.2 ⟨?_, rfl⟩
  rw [FsInode.nptrs, if_neg (by simp [hd]), Fin.val_ofNat, Nat.mod_eq_of_lt (by omega)]
  omega

theorem node_congr {img' : Image} {i : ℕ} (hx : img'.table.inode i = img.table.inode i)
    (hb : (img.table.inode i).isDir = false →
      ∀ o < (img.table.inode i).size.toInt.toNat,
        img'.fileByte (img.table.inode i) o = img.fileByte (img.table.inode i) o) :
    img'.node i = img.node i := by
  rw [node, node, hx, nodeOf, nodeOf]
  split_ifs with hd
  · rfl
  · rw [content_congr (hb (by simpa using hd))]

/-- A node stays the same if none of its blocks is written, other than one of directory
    entries. -/
theorem node_put (h : img.WF) (hlt : w.lba < img.nblocks) {i : ℕ} (hi : img.table.Live i)
    (hne : i ≠ w.lba)
    (hb : (img.table.inode i).isDir = false → ∀ k, ¬img.table.Owns i (.ptr k) w.lba) :
    (img.put w).node i = img.node i := by
  refine node_congr (table_inode_put hlt hne) fun hd o ho => ?_
  have hown := owns_of_lt hd (h.table.size_le hi (h.table.isReg hi hd)).2 ho
  rw [fileByte, put_block_of_ne hlt fun he => ?_, fileByte]
  exact hb hd _ (he ▸ hown)

/-- A node depends on the blocks it owns. -/
theorem node_of_owned {img' : Image} (h : img.WF) {i : ℕ} (hi : img.table.Live i)
    (hb : ∀ r b, img.table.Owns i r b → img'.block b = img.block b) :
    img'.node i = img.node i := by
  refine node_congr (congrArg FsInode.decode (hb .inode i rfl)) fun hd o ho => ?_
  have hown := owns_of_lt hd (h.table.size_le hi (h.table.isReg hi hd)).2 ho
  rw [fileByte, hb _ _ hown, fileByte]

theorem node_of_blocks {img' : Image} (h : img.WF)
    (hb : ∀ b, img.table.Referenced b → img'.block b = img.block b) {i : ℕ}
    (hi : img.table.Live i) : img'.node i = img.node i :=
  node_of_owned h hi fun _ b ho => hb b ⟨_, _, hi, ho⟩

/-- Only one node changes when one of its blocks is written. -/
theorem node_put_of_ne (h : img.WF) {p : ℕ} {r : Role} (hp : img.table.Live p)
    (ho : img.table.Owns p r w.lba) {i : ℕ} (hi : img.table.Live i) (hne : i ≠ p) :
    (img.put w).node i = img.node i :=
  node_put h (h.table.owned hp ho).2.1 hi
    (fun he => hne (h.table.disjoint hi hp (owns_inode.2 he.symm) ho).1)
    fun _ _ ho' => hne (h.table.disjoint hi hp ho' ho).1

/-- The nodes stay the same if directory entries are written. -/
theorem node_putDir (h : img.WF) {p : ℕ} (hp : img.table.Live p)
    (hd : (img.table.inode p).isDir = true) (hb : w.lba = ((img.table.inode p).ptrs 0).toNat)
    {i : ℕ} (hi : img.table.Live i) : (img.put w).node i = img.node i := by
  have hown : img.table.Owns p (.ptr 0) w.lba := hb ▸ owns_dir hd
  refine node_put h (h.table.owned hp hown).2.1 hi (fun he => ?_) fun hdi k ho => ?_
  · exact Role.noConfusion (h.table.disjoint hi hp (owns_inode.2 he.symm) hown).2
  · rw [(h.table.disjoint hi hp ho hown).1, hd] at hdi
    cases hdi

/-! ## The tree after a write -/

theorem tree_congr {img' : Image} (h : img.WF)
    (hw : ∀ ns, walk img'.table.children 2 ns = walk img.table.children 2 ns)
    (hn : ∀ i, img.table.Live i → img'.node i = img.node i) : img'.tree = img.tree := by
  funext ns
  rw [tree, tree, hw]
  cases hi : walk img.table.children 2 ns with
  | none => rfl
  | some i => rw [Option.map_some, Option.map_some, hn i (h.table.live_of_walk hi)]

/-- The tree is that of another walk with the same nodes, but for one path. -/
theorem tree_eq_ite {img' : Image} (h : img.WF) {as : List (List UInt8)} {v : Option ℕ}
    (hw : ∀ ns, walk img'.table.children 2 ns =
      if ns = as then v else walk img.table.children 2 ns)
    (hn : ∀ i, img.table.Live i → img'.node i = img.node i) (ns : List (List UInt8)) :
    img'.tree ns = if ns = as then v.map img'.node else img.tree ns := by
  rw [tree, hw]
  split_ifs
  · rfl
  · rw [tree]
    cases hi : walk img.table.children 2 ns with
    | none => rfl
    | some i => rw [Option.map_some, Option.map_some, hn i (h.table.live_of_walk hi)]

theorem tree_of_blocks {img' : Image} (h : img.WF) (hn : img'.nblocks = img.nblocks)
    (hb : ∀ b, img.table.Referenced b → img'.block b = img.block b) : img'.tree = img.tree :=
  tree_congr h ((agree_of_blocks hn hb).walk h.table) fun _ hi => node_of_blocks h hb hi

theorem tree_put_of_not_referenced (h : img.WF) (hlt : w.lba < img.nblocks)
    (hw : ¬img.table.Referenced w.lba) : (img.put w).tree = img.tree :=
  tree_of_blocks h (put_nblocks hlt) fun _ hb => put_block_of_not_referenced hlt hw hb

/-- Changing an object whose path is `as`. -/
theorem tree_of_walk {img' : Image} (h : img.WF) {p : ℕ} {as : List (List UInt8)}
    (hp : walk img.table.children 2 as = some p)
    (hw : ∀ ns, walk img'.table.children 2 ns = walk img.table.children 2 ns)
    (hn : ∀ i, img.table.Live i → i ≠ p → img'.node i = img.node i) (ns : List (List UInt8)) :
    img'.tree ns = if ns = as then some (img'.node p) else img.tree ns := by
  rw [tree, hw, tree]
  split_ifs with hns
  · rw [hns, hp, Option.map_some]
  · cases hi : walk img.table.children 2 ns with
    | none => rfl
    | some i =>
      rw [Option.map_some, Option.map_some, hn i (h.table.live_of_walk hi)]
      rintro rfl
      exact hns (h.table.children_tree.walk_injective hi hp)

theorem tree_putInode (h : img.WF) {p : ℕ} {x : FsInode} (c : CanSetInode img.table p x)
    (hptr : x.isDir = true → x.ptrs 0 = (img.table.inode p).ptrs 0) {as : List (List UInt8)}
    (hp : walk img.table.children 2 as = some p) (ns : List (List UInt8)) :
    (img.put ⟨p, x.encode⟩).tree ns =
      if ns = as then some ((img.put ⟨p, x.encode⟩).node p) else img.tree ns := by
  refine tree_of_walk h hp (fun ns => ?_) (fun i hi hne => ?_) ns
  · rw [(agree_putInode h c hptr).walk (h.table.setInode c), walk_setInode h.table c]
  · exact node_put_of_ne (w := ⟨p, x.encode⟩) (r := .inode) h c.live rfl hi hne

theorem tree_put_of_owns (h : img.WF) {p : ℕ} {k : Fin 1019} (hlive : img.table.Live p)
    (hd : (img.table.inode p).isDir = false) (ho : img.table.Owns p (.ptr k) w.lba)
    {as : List (List UInt8)} (hp : walk img.table.children 2 as = some p)
    (ns : List (List UInt8)) :
    (img.put w).tree ns = if ns = as then some ((img.put w).node p) else img.tree ns :=
  tree_of_walk h hp ((agree_put_of_owns h hlive hd ho).walk h.table)
    (fun _ hi hne => node_put_of_ne h hlive ho hi hne) ns

section Dir

variable {p b : ℕ} {k : Fin 128} {name : List UInt8} {as : List (List UInt8)}

theorem tree_putLink (h : img.WF) {n : Fin (2 ^ 31)} (c : CanLink img.table p k n name)
    (hb : b = ((img.table.inode p).ptrs 0).toNat) (hp : walk img.table.children 2 as = some p)
    (ns : List (List UInt8)) :
    (img.put ⟨b, ((img.table.dir p).add k n name).encode⟩).tree ns =
      if ns = as ++ [name] then some (img.node n) else img.tree ns := by
  have hown : img.table.Owns p (.ptr 0) b := hb ▸ owns_dir c.isDir
  have hlt := (h.table.owned c.live hown).2.1
  have hnb : ∀ r, ¬img.table.Owns n r b := fun r ho =>
    (c.object.owned ho).2.2.2 ⟨_, _, c.live, hown⟩
  have hnode : (img.put ⟨b, ((img.table.dir p).add k n name).encode⟩).node n = img.node n := by
    refine node_congr (table_inode_put hlt fun he => hnb .inode he.symm) fun hd o ho => ?_
    have hle : (img.table.inode n).size.toInt ≤ 1019 * 4096 := by
      rcases c.object.good with hd' | hr
      · rw [hd] at hd'
        cases hd'
      · exact hr.2.2
    have hown' := owns_of_lt hd hle ho
    rw [fileByte, put_block_of_ne hlt fun he => ?_, fileByte]
    exact hnb _ (he ▸ hown')
  rw [tree_eq_ite h (fun ns => ?_) (fun i hi => node_putDir h c.live c.isDir hb hi) ns,
    Option.map_some, hnode]
  rw [(agree_putLink h c hb).walk (h.table.link c), walk_link h.table c hp]

theorem tree_putUnlink (h : img.WF) (c : CanUnlink img.table p k)
    (hb : b = ((img.table.inode p).ptrs 0).toNat) (hp : walk img.table.children 2 as = some p)
    (ns : List (List UInt8)) :
    (img.put ⟨b, ((img.table.dir p).invalidate k).encode⟩).tree ns =
      if ns = as ++ [cstr (img.table.dir p k).name] then none else img.tree ns := by
  rw [tree_eq_ite h (fun ns => ?_) (fun i hi => node_putDir h c.live c.isDir hb hi) ns,
    Option.map_none]
  rw [(agree_putUnlink h c hb).walk (h.table.unlink c), walk_unlink h.table c hp]

theorem tree_putRename (h : img.WF) (c : CanRename img.table p k name)
    (hb : b = ((img.table.inode p).ptrs 0).toNat) (hp : walk img.table.children 2 as = some p)
    (ns : List (List UInt8)) :
    (img.put ⟨b, ((img.table.dir p).rename k name).encode⟩).tree ns =
      if as ++ [name] <+: ns then
        img.tree (as ++ [cstr (img.table.dir p k).name] ++ ns.drop (as ++ [name]).length)
      else if as ++ [cstr (img.table.dir p k).name] <+: ns then none
      else img.tree ns := by
  have hnode : ∀ i, img.table.Live i →
      (img.put ⟨b, ((img.table.dir p).rename k name).encode⟩).node i = img.node i :=
    fun i hi => node_putDir h c.live c.isDir hb hi
  have hmap : ∀ ns', (walk img.table.children 2 ns').map
      (img.put ⟨b, ((img.table.dir p).rename k name).encode⟩).node = img.tree ns' := by
    intro ns'
    rw [tree]
    cases hi : walk img.table.children 2 ns' with
    | none => rfl
    | some i => rw [Option.map_some, Option.map_some, hnode i (h.table.live_of_walk hi)]
  rw [tree, (agree_putRename h c hb).walk (h.table.rename c), walk_rename h.table c hp]
  split_ifs
  · exact hmap _
  · rfl
  · exact hmap _

end Dir

end Image

end Cs5600
