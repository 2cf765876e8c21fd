import Cs5600.Runs

/-!
# Operations on names

What a user sees of a call of `fs_create`, `fs_mkdir`, `fs_unlink`, `fs_rmdir`
or `fs_rename` is a change of the tree of the image (`Image.tree`). For a path
whose parent is a directory (`Image.HasParent`), the call succeeds exactly under
the conditions one expects, and then the tree changes at that path only; if it
does not succeed, the tree stays the same.
-/

namespace Cs5600

open LabelledGraph Table FsM WriteLog

namespace Image

variable (img : Image)

/-- A path with at least one name, and at most ten, whose parent is a directory. -/
structure HasParent (path : FsPath) : Prop where
  ne_nil : path.names ≠ []
  length_le : path.names.length ≤ maxPathComponents
  parent : ∃ a, img.tree path.names.dropLast = some (.dir a)

/-- The number of valid entries of the directory a list of names leads to. -/
def entryCount (ns : List (List UInt8)) : ℕ :=
  match walk img.table.children 2 ns with
  | none => 0
  | some p => (List.finRange 128).countP fun k => (img.table.dir p k).valid

variable {img} {path : FsPath} {p : ℕ} {leaf : List UInt8}

theorem isDir_of_node {i : ℕ} {a : Attrs} (h : img.node i = .dir a) :
    (img.table.inode i).isDir = true := by
  rw [node, nodeOf] at h
  split_ifs at h with hd
  exact hd

theorem node_eq_dir {i : ℕ} (hd : (img.table.inode i).isDir = true) :
    img.node i = .dir (img.table.inode i).attrs := by
  rw [node, nodeOf, if_pos hd]

theorem node_eq_file {i : ℕ} (hd : (img.table.inode i).isDir = false) :
    img.node i = .file (img.table.inode i).attrs (img.content (img.table.inode i)) := by
  rw [node, nodeOf, if_neg (by simp [hd])]

/-- The parent of a path, and the name of the object there. -/
theorem HasParent.lookup (hp : img.HasParent path) : ∃ p leaf,
    img.table.lookupParent path = .ok (p, leaf) ∧ (img.table.inode p).isDir = true ∧
      path.names.dropLast ++ [leaf] = path.names ∧
      walk img.table.children 2 path.names.dropLast = some p := by
  obtain ⟨a, ha⟩ := hp.parent
  obtain ⟨p, hw, hn⟩ := Option.map_eq_some_iff.1 ha
  have hlast := List.dropLast_append_getLast hp.ne_nil
  have hlen : path.names.dropLast.length ≤ maxPathComponents := by
    rw [List.length_dropLast]
    exact (Nat.sub_le _ _).trans hp.length_le
  refine ⟨p, _, ?_, isDir_of_node hn, hlast, hw⟩
  rw [lookupParent_eq_ok, List.take_of_length_le hlen]
  exact ⟨List.getLast?_eq_some_getLast hp.ne_nil, hw⟩

/-- What a path leads to, by the entry of its name in its parent. -/
theorem tree_names (hd : (img.table.inode p).isDir = true)
    (hlast : path.names.dropLast ++ [leaf] = path.names)
    (hw : walk img.table.children 2 path.names.dropLast = some p) :
    img.tree path.names =
      ((img.table.dir p).find (·.named leaf)).map fun k => img.node (img.table.dir p k).inode := by
  rw [tree, ← hlast, walk_concat, hw, Option.bind_some, children, if_pos hd, Option.map_map]
  rfl

theorem HasParent.newLeaf (hp : img.HasParent path) (habs : img.tree path.names = none) :
    ∃ p leaf, img.table.newLeaf path = .ok (p, leaf) ∧
      path.names.dropLast ++ [leaf] = path.names ∧
      walk img.table.children 2 path.names.dropLast = some p := by
  obtain ⟨p, leaf, hl, hd, hlast, hw⟩ := hp.lookup
  rw [tree_names hd hlast hw, Option.map_eq_none_iff] at habs
  exact ⟨p, leaf, newLeaf_eq_ok.2 ⟨hl, hd, habs⟩, hlast, hw⟩

/-- The names of a path whose leaf can be made. -/
theorem HasParent.of_newLeaf (hp : img.HasParent path)
    (hl : img.table.newLeaf path = .ok (p, leaf)) : img.tree path.names = none ∧
      path.names.dropLast ++ [leaf] = path.names ∧
      walk img.table.children 2 path.names.dropLast = some p := by
  obtain ⟨p', leaf', hl', hd, hlast, hw⟩ := hp.lookup
  obtain ⟨hlp, _, hnone⟩ := newLeaf_eq_ok.1 hl
  obtain ⟨rfl, rfl⟩ := Prod.mk.inj (Except.ok.inj (hlp.symm.trans hl'))
  exact ⟨by rw [tree_names hd hlast hw, hnone, Option.map_none], hlast, hw⟩

theorem HasParent.oldLeaf (hp : img.HasParent path) {n : Node} (hn : img.tree path.names = some n) :
    ∃ p k leaf, img.table.oldLeaf path = .ok (p, k) ∧ img.node (img.table.dir p k).inode = n ∧
      path.names.dropLast ++ [leaf] = path.names ∧
      walk img.table.children 2 path.names.dropLast = some p := by
  obtain ⟨p, leaf, hl, hd, hlast, hw⟩ := hp.lookup
  rw [tree_names hd hlast hw] at hn
  obtain ⟨k, hk, hnode⟩ := Option.map_eq_some_iff.1 hn
  exact ⟨p, k, leaf, oldLeaf_eq_ok.2 ⟨leaf, hl, hk⟩, hnode, hlast, hw⟩

theorem HasParent.of_oldLeaf (hp : img.HasParent path) {k : Fin 128}
    (hl : img.table.oldLeaf path = .ok (p, k)) :
    img.tree path.names = some (img.node (img.table.dir p k).inode) ∧
      path.names.dropLast ++ [cstr (img.table.dir p k).name] = path.names ∧
      walk img.table.children 2 path.names.dropLast = some p ∧
      (img.table.inode p).isDir = true := by
  obtain ⟨p', leaf, hl', hd, hlast, hw⟩ := hp.lookup
  obtain ⟨leaf', hlp, hk⟩ := oldLeaf_eq_ok.1 hl
  obtain ⟨rfl, rfl⟩ := Prod.mk.inj (Except.ok.inj (hlp.symm.trans hl'))
  have hname := (FsDirent.named_iff.1 (DirBlock.of_find_eq_some hk)).2
  exact ⟨by rw [tree_names hd hlast hw, hk, Option.map_some], by rw [hname, hlast], hw, hd⟩

theorem HasParent.parentDir (hp : img.HasParent path) : img.table.ParentDir path := by
  intro parent leaf hl
  obtain ⟨p, leaf', hl', hd, _⟩ := hp.lookup
  obtain ⟨rfl, rfl⟩ := Prod.mk.inj (Except.ok.inj (hl.symm.trans hl'))
  exact hd

/-- A directory has a free entry iff fewer than 128 of its entries are valid. -/
theorem entryCount_lt (hw : walk img.table.children 2 path.names.dropLast = some p) :
    img.entryCount path.names.dropLast < 128 ↔
      ∃ k, (img.table.dir p).find (!·.valid) = some k := by
  have hlen : (List.finRange 128).length = 128 := List.length_finRange
  have hall := List.countP_eq_length (p := fun k => (img.table.dir p k).valid)
    (l := List.finRange 128)
  have hle := List.countP_le_length (p := fun k => (img.table.dir p k).valid)
    (l := List.finRange 128)
  rw [entryCount, hw, ← Option.isSome_iff_exists, DirBlock.find_isSome]
  simp only []
  constructor
  · intro hlt
    by_contra hno
    have := hall.2 fun k _ => by simpa using fun hk => hno ⟨k, hk⟩
    omega
  · rintro ⟨k, hk⟩
    refine lt_of_le_of_ne (hle.trans_eq hlen) fun he => ?_
    have := hall.1 (he.trans hlen.symm) k (List.mem_finRange k)
    rw [this] at hk
    cases hk

/-! ## New objects -/

section New

variable {need : ℕ} {init : List ℕ → List Write} {r : Res Unit} {ws : List Write}

/-- A new object is made iff its name is new, its parent has room and there are blocks. -/
theorem NewEnds.ok_iff (hp : img.HasParent path) (he : img.NewEnds path need init r ws) :
    r = .ok () ↔ img.tree path.names = none ∧ img.entryCount path.names.dropLast < 128 ∧
      need ≤ img.free.length := by
  cases he with
  | refused hl =>
    refine iff_of_false nofun fun ⟨habs, _⟩ => ?_
    obtain ⟨p, leaf, hl', _⟩ := hp.newLeaf habs
    rw [hl] at hl'
    cases hl'
  | noBlocks hl hf => exact iff_of_false nofun fun ⟨_, _, hneed⟩ => by omega
  | noEntry hl hlen hbs hk =>
    refine iff_of_false nofun fun ⟨_, hlt, _⟩ => ?_
    obtain ⟨k, hk'⟩ := (entryCount_lt (hp.of_newLeaf hl).2.2).1 hlt
    rw [hk] at hk'
    cases hk'
  | done hl hlen hbs hk =>
    obtain ⟨habs, _, hw⟩ := hp.of_newLeaf hl
    exact iff_of_true rfl ⟨habs, (entryCount_lt hw).2 ⟨_, hk⟩, hlen ▸ hbs.length_le⟩

/-- A new object is found under its path. -/
theorem NewEnds.tree_ok (h : img.WF) (c : img.Makes need init) (hp : img.HasParent path)
    (he : img.NewEnds path need init (.ok ()) ws) :
    ∃ bs, bs.length = need ∧ bs <+: img.free ∧ ∀ ns, (img.puts ws).tree ns =
      if ns = path.names then
        some ((img.puts (bitWrites bitSet (img.block 1) bs ++ init bs)).node (bs.headD 0))
      else img.tree ns := by
  cases he with
  | @done p leaf bs k hl hlen hbs hk =>
    obtain ⟨_, hlast, hw⟩ := hp.of_newLeaf hl
    obtain ⟨hlp, hd, _⟩ := newLeaf_eq_ok.1 hl
    have hlive := h.table.live_of_lookupParent hlp
    have hwf : (img.puts (bitWrites bitSet (img.block 1) bs ++ init bs)).WF :=
      (along_fresh h hbs (c.lba bs)).last
    have ha := agree_fresh h hbs (c.lba bs)
    have hn := h.headD_lt hbs
    -- Before it is linked, the new object is in the image, but not in the tree.
    have htree := tree_putLink hwf (c.canLink h hl hlen hbs hk hn) (b := img.dirPtr p)
      (by rw [ha.inode hlive]; rfl)
      (show walk _ 2 path.names.dropLast = some p by rw [ha.walk h.table, hw])
    have hsame := tree_of_blocks h (nblocks_fresh h hbs (c.lba bs))
      fun _ hb => block_fresh h hbs (c.lba bs) hb
    rw [ha.dir hlive hd, hlast, Fin.val_ofNat, Nat.mod_eq_of_lt hn, hsame] at htree
    refine ⟨bs, hlen, hbs, fun ns => ?_⟩
    rw [puts_append]
    exact htree ns

/-- If no object is made, the tree stays the same. -/
theorem NewEnds.tree_ne_ok (h : img.WF) (c : img.Makes need init)
    (he : img.NewEnds path need init r ws) (hr : r ≠ .ok ()) : (img.puts ws).tree = img.tree := by
  cases he with
  | refused => rfl
  | noBlocks => exact tree_bitWrites h
  | noEntry _ _ hbs _ =>
    exact tree_of_blocks h (nblocks_fresh h hbs (c.lba _)) fun _ hb => block_fresh h hbs (c.lba _) hb
  | done => exact absurd rfl hr

end New

/-! ## Nodes of new objects -/

section NewNode

variable {env : Env} {mode : UInt32}

/-- The node of a new file. -/
def newFileNode (env : Env) (mode : UInt32) : Node := .file (newInode env mode 0 fun _ => 0).attrs []

/-- The node of a new directory. -/
def newDirNode (env : Env) (mode : UInt32) : Node := .dir (newDirInode env mode 0).attrs

theorem node_newFile (h : img.WF) (hmode : RegMode mode) {n : ℕ} (hbs : [n] <+: img.free) :
    (img.puts (bitWrites bitSet (img.block 1) [n] ++ newFile env mode [n])).node n =
      newFileNode env mode := by
  have hd : (newInode env mode 0 fun _ => 0).isDir = false :=
    FsInode.isDir_of_isReg ((FsInode.isReg_iff _).2 hmode)
  have hx := inode_newFile env mode h hbs
  rw [node_eq_file (by rw [hx]; exact hd), hx]
  rfl

theorem node_newDir (h : img.WF) (hmode : PlainMode mode) {n b : ℕ} (hbs : [n, b] <+: img.free) :
    (img.puts (bitWrites bitSet (img.block 1) [n, b] ++ newDir env mode [n, b])).node n =
      newDirNode env mode := by
  have hx := inode_newDir env mode h hbs
  rw [node_eq_dir (by rw [hx]; exact isDir_newDirInode env hmode b), hx]
  rfl

end NewNode

/-! ## Removing objects -/

section Remove

variable {check : ℕ → Option Errno} {r : Res Unit} {ws : List Write}

/-- An object is removed iff there is one, and the check gives no error. -/
theorem RemoveEnds.ok_iff (hp : img.HasParent path) (he : img.RemoveEnds path check r ws) :
    r = .ok () ↔ ∃ i, walk img.table.children 2 path.names = some i ∧ check i = none := by
  have hwalk : ∀ {p k}, img.table.oldLeaf path = .ok (p, k) →
      walk img.table.children 2 path.names = some (img.table.dir p k).inode.1 := by
    intro p k hl
    obtain ⟨leaf, hlp, hk⟩ := oldLeaf_eq_ok.1 hl
    obtain ⟨p', leaf', hlp', hd, hlast, hw⟩ := hp.lookup
    obtain ⟨rfl, rfl⟩ := Prod.mk.inj (Except.ok.inj (hlp.symm.trans hlp'))
    rw [← hlast, walk_concat, hw, Option.bind_some, children, if_pos hd, hk]
    rfl
  cases he with
  | refused hl =>
    refine iff_of_false (by simp) ?_
    rintro ⟨i, hi, -⟩
    obtain ⟨p, k, _, hl', _⟩ := hp.oldLeaf (n := img.node i) (by rw [tree, hi, Option.map_some])
    rw [hl] at hl'
    cases hl'
  | kept hl hc =>
    refine iff_of_false (by simp) ?_
    rintro ⟨i, hi, hnone⟩
    rw [← Option.some.inj ((hwalk hl).symm.trans hi), hc] at hnone
    cases hnone
  | done hl hc => exact iff_of_true rfl ⟨_, hwalk hl, hc⟩

/-- A removed object is no longer found under its path. -/
theorem RemoveEnds.tree_ok (h : img.WF) (hp : img.HasParent path)
    (hcheck : ∀ i, check i = none → (img.table.inode i).isDir = true →
      ∀ j, (img.table.dir i j).valid = false)
    (he : img.RemoveEnds path check (.ok ()) ws) (ns : List (List UInt8)) :
    (img.puts ws).tree ns = if ns = path.names then none else img.tree ns := by
  cases he with
  | @done p k hl hc =>
    obtain ⟨_, hlast, hw, _⟩ := hp.of_oldLeaf hl
    have c := canUnlink h hp.parentDir hl (hcheck _ hc)
    have hmap := (block_one_putDir h c.live c.isDir ((img.table.dir p).invalidate k).encode).2
    rw [puts_cons, ← hmap, tree_bitWrites (h.putUnlink c (b := img.dirPtr p) rfl),
      tree_putUnlink h c (b := img.dirPtr p) rfl hw, hlast]

/-- If no object is removed, the tree stays the same. -/
theorem RemoveEnds.tree_ne_ok (he : img.RemoveEnds path check r ws) (hr : r ≠ .ok ()) :
    (img.puts ws).tree = img.tree := by
  cases he with
  | refused => rfl
  | kept => rfl
  | done => exact absurd rfl hr

/-- The objects that `fs_unlink` removes are files. -/
theorem unlinkCheck_iff {ns : List (List UInt8)} :
    (∃ i, walk img.table.children 2 ns = some i ∧ img.table.unlinkCheck i = none) ↔
      ∃ a c, img.tree ns = some (.file a c) := by
  constructor
  · rintro ⟨i, hi, hc⟩
    have hd : (img.table.inode i).isDir = false := by
      by_contra hd
      rw [unlinkCheck, if_pos (by simpa using hd)] at hc
      cases hc
    exact ⟨_, _, by rw [tree, hi, Option.map_some, node_eq_file hd]⟩
  · rintro ⟨a, c, hn⟩
    obtain ⟨i, hi, hn⟩ := Option.map_eq_some_iff.1 hn
    refine ⟨i, hi, if_neg fun hd => ?_⟩
    rw [node_eq_dir hd] at hn
    cases hn

/-- The objects that `fs_rmdir` removes are empty directories. -/
theorem rmdirCheck_iff {ns : List (List UInt8)} :
    (∃ i, walk img.table.children 2 ns = some i ∧ img.table.rmdirCheck i = none) ↔
      (∃ a, img.tree ns = some (.dir a)) ∧ ∀ name, img.tree (ns ++ [name]) = none := by
  constructor
  · rintro ⟨i, hi, hc⟩
    have hd := isDir_of_rmdirCheck hc
    refine ⟨⟨_, by rw [tree, hi, Option.map_some, node_eq_dir hd]⟩, fun name => ?_⟩
    have hnone : (img.table.dir i).find (·.named name) = none :=
      DirBlock.find_eq_none.2 fun k => by
        rw [FsDirent.named, Op.rmdirCheck_leaf i hc hd k, Bool.false_and]
    rw [tree, walk_concat, hi, Option.bind_some, children, if_pos hd, hnone]
    rfl
  · rintro ⟨⟨a, hn⟩, hnone⟩
    obtain ⟨i, hi, hn⟩ := Option.map_eq_some_iff.1 hn
    have hd := isDir_of_node hn
    refine ⟨i, hi, ?_⟩
    rw [rmdirCheck, if_pos hd, if_neg]
    rw [DirBlock.find_isSome]
    rintro ⟨k, hk⟩
    have habs := hnone (cstr (img.table.dir i k).name)
    rw [tree, walk_concat, hi, Option.bind_some, children, if_pos hd, Option.map_map,
      Option.map_eq_none_iff, DirBlock.find_eq_none] at habs
    have := habs k
    rw [FsDirent.named_iff.2 ⟨hk, rfl⟩] at this
    cases this

end Remove

/-! ## Renaming objects -/

section Rename

variable {src dst : FsPath} {r : Res Unit} {ws : List Write}

/-- An object is renamed iff there is one, and the new name is a new one in the same directory. -/
theorem RenameEnds.ok_iff (h : img.WF) (hs : img.HasParent src) (hd : img.HasParent dst)
    (he : img.RenameEnds src dst r ws) : r = .ok () ↔
      src.names.dropLast = dst.names.dropLast ∧ img.tree dst.names = none ∧
        img.tree src.names ≠ none := by
  obtain ⟨p, sleaf, hslp, hpd, hslast, hsw⟩ := hs.lookup
  obtain ⟨q, dleaf, hdlp, hqd, hdlast, hdw⟩ := hd.lookup
  rw [tree_names hqd hdlast hdw, Option.map_eq_none_iff, tree_names hpd hslast hsw, Ne,
    Option.map_eq_none_iff]
  cases he with
  | refused hl =>
    -- If all of this were so, no check would have refused the call.
    refine iff_of_false nofun fun ⟨hsame, hnone, hsome⟩ => ?_
    rw [hsame, hdw] at hsw
    obtain rfl := Option.some.inj hsw
    obtain ⟨k, hk⟩ := Option.ne_none_iff_exists'.1 hsome
    rw [renamed_eq_ok.2 ⟨hdlp, hnone, oldLeaf_eq_ok.2 ⟨sleaf, hslp, hk⟩⟩] at hl
    cases hl
  | @done p' k leaf hl =>
    obtain ⟨hlp, hnone, hold⟩ := renamed_eq_ok.1 hl
    obtain ⟨leaf', hlp', hk⟩ := oldLeaf_eq_ok.1 hold
    obtain ⟨rfl, rfl⟩ := Prod.mk.inj (Except.ok.inj (hlp.symm.trans hdlp))
    obtain ⟨rfl, rfl⟩ := Prod.mk.inj (Except.ok.inj (hlp'.symm.trans hslp))
    refine iff_of_true rfl ⟨h.table.children_tree.walk_injective hsw hdw, hnone, ?_⟩
    rw [hk]
    exact nofun

/-- A renamed object is found under its new path, with all that it contains. -/
theorem RenameEnds.tree_ok (h : img.WF) (hs : img.HasParent src) (hd : img.HasParent dst)
    (he : img.RenameEnds src dst (.ok ()) ws) (ns : List (List UInt8)) :
    (img.puts ws).tree ns =
      if dst.names <+: ns then img.tree (src.names ++ ns.drop dst.names.length)
      else if src.names <+: ns then none
      else img.tree ns := by
  obtain ⟨hsame, _⟩ := (he.ok_iff h hs hd).1 rfl
  cases he with
  | @done p k leaf hl =>
    obtain ⟨hlp, _, hold⟩ := renamed_eq_ok.1 hl
    obtain ⟨_, hslast, hsw, _⟩ := hs.of_oldLeaf hold
    obtain ⟨q, leaf', hlp', _, hdlast, _⟩ := hd.lookup
    obtain ⟨rfl, rfl⟩ := Prod.mk.inj (Except.ok.inj (hlp.symm.trans hlp'))
    rw [← hsame] at hdlast
    have htree := tree_putRename h (canRename h hs.parentDir hl) (b := img.dirPtr p) rfl hsw ns
    rwa [hslast, hdlast] at htree

/-- If no object is renamed, the tree stays the same. -/
theorem RenameEnds.tree_ne_ok (he : img.RenameEnds src dst r ws) (hr : r ≠ .ok ()) :
    (img.puts ws).tree = img.tree := by
  cases he with
  | refused => rfl
  | done => exact absurd rfl hr

end Rename

end Image

/-! ## The operations on the tree -/

/-- What lists of names lead to. -/
abbrev Names := List (List UInt8) → Option Node

namespace Names

variable (t : Names)

/-- The tree with a node added. -/
def insert (path : List (List UInt8)) (n : Node) : Names := fun ns => if ns = path then some n else t ns

/-- The tree with a node removed. -/
def remove (path : List (List UInt8)) : Names := fun ns => if ns = path then none else t ns

/-- The tree with a node moved, and with it all below it. -/
def move (src dst : List (List UInt8)) : Names := fun ns =>
  if dst <+: ns then t (src ++ ns.drop dst.length) else if src <+: ns then none else t ns

end Names

/-- From the state `s`, `x` succeeds iff `P` holds, and then the tree becomes `t`. Otherwise, `x` ends
    with an error, and the tree stays the same. -/
def Performs (x : FsM Unit) (s : FsState) (P : Prop) (t : Names) : Prop :=
  ∃ r s', x.run s = (r, s') ∧ (∀ f, r ≠ .fault f) ∧ (r = .ok () ↔ P) ∧
    (r = .ok () → s'.img.tree = t) ∧ (r ≠ .ok () → s'.img.tree = s.img.tree)

section Performs

variable {s : FsState} (h : s.WF) (env : Env) {path : FsPath} (hp : s.img.HasParent path)
  {mode : UInt32}
include h hp

theorem performs_create (hmode : RegMode mode) : Performs (fsCreate env path.bytes mode) s
    (s.img.tree path.names = none ∧ s.img.entryCount path.names.dropLast < 128 ∧
      1 ≤ s.img.free.length)
    (Names.insert s.img.tree path.names (Image.newFileNode env mode)) := by
  have c : s.img.Makes 1 (newFile env mode) := Image.makes_newFile h.img hmode
  obtain ⟨r, ws, he⟩ := s.img.exists_newEnds path 1 (newFile env mode)
  refine ⟨r, _, fsCreate_run h he, ?_, he.ok_iff hp, ?_, he.tree_ne_ok h.img c⟩
  · cases he <;> exact nofun
  · rintro rfl
    obtain ⟨bs, hlen, hbs, htree⟩ := he.tree_ok h.img c hp
    obtain ⟨n, rfl⟩ := List.length_eq_one_iff.1 hlen
    rw [List.headD_cons, Image.node_newFile h.img hmode hbs] at htree
    exact funext htree

theorem performs_mkdir (hmode : PlainMode mode) : Performs (fsMkdir env path.bytes mode) s
    (s.img.tree path.names = none ∧ s.img.entryCount path.names.dropLast < 128 ∧
      2 ≤ s.img.free.length)
    (Names.insert s.img.tree path.names (Image.newDirNode env mode)) := by
  have c : s.img.Makes 2 (newDir env mode) := Image.makes_newDir h.img hmode
  obtain ⟨r, ws, he⟩ := s.img.exists_newEnds path 2 (newDir env mode)
  refine ⟨r, _, fsMkdir_run h he, ?_, he.ok_iff hp, ?_, he.tree_ne_ok h.img c⟩
  · cases he <;> exact nofun
  · rintro rfl
    obtain ⟨bs, hlen, hbs, htree⟩ := he.tree_ok h.img c hp
    obtain ⟨n, b, rfl⟩ := List.length_eq_two.1 hlen
    rw [List.headD_cons, Image.node_newDir h.img hmode hbs] at htree
    exact funext htree

theorem performs_unlink : Performs (fsUnlink path.bytes) s
    (∃ a c, s.img.tree path.names = some (.file a c)) (Names.remove s.img.tree path.names) := by
  obtain ⟨r, ws, he⟩ := s.img.exists_removeEnds path s.img.table.unlinkCheck
  refine ⟨r, _, fsUnlink_run h hp.parentDir he, ?_, ?_, ?_, he.tree_ne_ok⟩
  · cases he <;> exact nofun
  · rw [he.ok_iff hp, Image.unlinkCheck_iff]
  · rintro rfl
    exact funext (he.tree_ok h.img hp Op.unlinkCheck_leaf)

theorem performs_rmdir : Performs (fsRmdir path.bytes) s
    ((∃ a, s.img.tree path.names = some (.dir a)) ∧
      ∀ name, s.img.tree (path.names ++ [name]) = none)
    (Names.remove s.img.tree path.names) := by
  obtain ⟨r, ws, he⟩ := s.img.exists_removeEnds path s.img.table.rmdirCheck
  refine ⟨r, _, fsRmdir_run h hp.parentDir he, ?_, ?_, ?_, he.tree_ne_ok⟩
  · cases he <;> exact nofun
  · rw [he.ok_iff hp, Image.rmdirCheck_iff]
  · rintro rfl
    exact funext (he.tree_ok h.img hp Op.rmdirCheck_leaf)

theorem performs_rename {dst : FsPath} (hd : s.img.HasParent dst) :
    Performs (fsRename path.bytes dst.bytes) s
      (path.names.dropLast = dst.names.dropLast ∧ s.img.tree dst.names = none ∧
        s.img.tree path.names ≠ none)
      (Names.move s.img.tree path.names dst.names) := by
  obtain ⟨r, ws, he⟩ := s.img.exists_renameEnds path dst
  refine ⟨r, _, fsRename_run h hp.parentDir he, ?_, he.ok_iff h.img hp hd, ?_, he.tree_ne_ok⟩
  · cases he <;> exact nofun
  · rintro rfl
    exact funext (he.tree_ok h.img hp hd)

end Performs

/-- The path `/a`. -/
def pathA : FsPath := ⟨[slash, 97], rfl, by decide, by decide⟩

/-- An empty file system of eight blocks. -/
def emptyFs : FsState := .mount (.format 8)

/-- The file system of eight blocks with an empty file `/a`. -/
def fileA : FsState := (((Op.create pathA 0o100644).exec ⟨500, 500, 0⟩).run emptyFs).2

theorem wf_emptyFs : emptyFs.WF := FsState.mount_wf (Image.format_wf (by decide) (by decide))

theorem reachable_fileA : Reachable emptyFs fileA :=
  .call ⟨500, 500, 0⟩ (.create pathA 0o100644) .init (show RegMode _ from rfl)

theorem wf_fileA : fileA.WF := reachable_fileA.wf wf_emptyFs

/-- The operations on names do what they should to the tree, and only if they can. -/
theorem names_refine {s : FsState} (h : s.WF) (env : Env) {path : FsPath}
    (hp : s.img.HasParent path) :
    (∀ mode, RegMode mode → Performs (fsCreate env path.bytes mode) s
      (s.img.tree path.names = none ∧ s.img.entryCount path.names.dropLast < 128 ∧
        1 ≤ s.img.free.length)
      (Names.insert s.img.tree path.names (Image.newFileNode env mode))) ∧
    (∀ mode, PlainMode mode → Performs (fsMkdir env path.bytes mode) s
      (s.img.tree path.names = none ∧ s.img.entryCount path.names.dropLast < 128 ∧
        2 ≤ s.img.free.length)
      (Names.insert s.img.tree path.names (Image.newDirNode env mode))) ∧
    Performs (fsUnlink path.bytes) s (∃ a c, s.img.tree path.names = some (.file a c))
      (Names.remove s.img.tree path.names) ∧
    Performs (fsRmdir path.bytes) s
      ((∃ a, s.img.tree path.names = some (.dir a)) ∧
        ∀ name, s.img.tree (path.names ++ [name]) = none)
      (Names.remove s.img.tree path.names) ∧
    ∀ dst, s.img.HasParent dst → Performs (fsRename path.bytes dst.bytes) s
      (path.names.dropLast = dst.names.dropLast ∧ s.img.tree dst.names = none ∧
        s.img.tree path.names ≠ none)
      (Names.move s.img.tree path.names dst.names) :=
  ⟨fun _ => performs_create h env hp, fun _ => performs_mkdir h env hp, performs_unlink h hp,
    performs_rmdir h hp, fun _ => performs_rename h hp⟩

/-- Making a file in the root of an empty file system. -/
theorem names_refine_emptyFs :
    Performs (fsCreate ⟨500, 500, 0⟩ pathA.bytes 0o100644) emptyFs
      (emptyFs.img.tree pathA.names = none ∧ emptyFs.img.entryCount pathA.names.dropLast < 128 ∧
        1 ≤ emptyFs.img.free.length)
      (Names.insert emptyFs.img.tree pathA.names (Image.newFileNode ⟨500, 500, 0⟩ 0o100644)) :=
  (names_refine wf_emptyFs ⟨500, 500, 0⟩
    (show emptyFs.img.HasParent pathA from ⟨by decide, by decide, ⟨_, rfl⟩⟩)).1 0o100644 rfl

end Cs5600
