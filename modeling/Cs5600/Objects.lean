import Cs5600.Graph
import Cs5600.FileSystem

/-!
# The objects of a file system

What the blocks of an image mean, apart from the contents of files: for every
number, the inode and the directory entries that are found there, and which
blocks are marked as used (`Table`). The *live* objects are those reachable
from the root inode through valid directory entries, and a live object *owns*
its inode block and the blocks its used pointers lead to.

A table is well-formed (`Table.WF`) if the live objects form a tree, and own
blocks that are marked, each in one way only. This is preserved by the
elementary changes the operations are made of:

* `WF.congr`: changing anything but the live objects, marks of unowned blocks
  included;
* `WF.setInode`: changing an inode, with the blocks a file owns;
* `WF.link`: naming a new object without entries in a free entry of a directory;
* `WF.unlink`: invalidating the entry of an object without valid entries;
* `WF.rename`: changing the name in an entry.
-/

namespace Cs5600

open LabelledGraph

/-- The number of pointers of an inode in use: those below the size of a file, or the first one
    of a directory. -/
def FsInode.nptrs (x : FsInode) : ℕ := if x.isDir then 1 else (x.size.toInt.toNat + 4095) / 4096

/-- A name that a directory entry may have. -/
structure GoodName (name : List UInt8) : Prop where
  ne_nil : name ≠ []
  slash_notMem : slash ∉ name
  nul_notMem : 0 ∉ name
  length_le : name.length ≤ maxNameLen

/-- What an object uses a block for. -/
inductive Role
  | inode
  | ptr (k : Fin 1019)
  deriving DecidableEq

/-- The inodes, directory entries and marks of an image. -/
structure Table where
  /-- The size of the disk, in blocks. -/
  nblocks : ℕ
  /-- Whether a block is marked as used. -/
  marked : ℕ → Bool
  inode : ℕ → FsInode
  dir : ℕ → DirBlock

namespace Table

variable (t : Table)

/-- The valid entries of directories, as a graph on inode numbers. -/
def slots : LabelledGraph.Graph ℕ (Fin 128) := fun i k =>
  if (t.inode i).isDir = true ∧ (t.dir i k).valid = true then some (t.dir i k).inode else none

/-- The objects reachable from the root inode through valid entries. -/
def Live (i : ℕ) : Prop := Reach t.slots 2 i

/-- The object `i` uses the block `b` for `r`. -/
def Owns (i : ℕ) : Role → ℕ → Prop
  | .inode, b => b = i
  | .ptr k, b => k.1 < (t.inode i).nptrs ∧ b = ((t.inode i).ptrs k).toNat

/-- Some live object uses the block `b`. -/
def Referenced (b : ℕ) : Prop := ∃ i r, t.Live i ∧ t.Owns i r b

/-- An object is a directory, or a regular file of a size that its pointers can hold. -/
def GoodInode (x : FsInode) : Prop :=
  x.isDir = true ∨ (x.isReg = true ∧ 0 ≤ x.size.toInt ∧ x.size.toInt ≤ 1019 * 4096)

/-- The live objects form a tree, and own marked blocks of the disk, each in one way only. -/
structure WF : Prop where
  three_le : 3 ≤ t.nblocks
  le_cap : t.nblocks ≤ 32768
  reserved : t.marked 0 = true ∧ t.marked 1 = true
  root : (t.inode 2).isDir = true
  tree : IsTree t.slots 2
  object : ∀ {i}, t.Live i → GoodInode (t.inode i)
  owned : ∀ {i r b}, t.Live i → t.Owns i r b → 2 ≤ b ∧ b < t.nblocks ∧ t.marked b = true
  disjoint : ∀ {i j r r' b}, t.Live i → t.Live j → t.Owns i r b → t.Owns j r' b → i = j ∧ r = r'
  names : ∀ {i k}, t.Live i → (t.inode i).isDir = true → (t.dir i k).valid = true →
    GoodName (cstr (t.dir i k).name)
  distinct : ∀ {i k l}, t.Live i → (t.inode i).isDir = true → (t.dir i k).valid = true →
    (t.dir i l).valid = true → cstr (t.dir i k).name = cstr (t.dir i l).name → k = l

variable {t}

/-! ## Live objects -/

theorem live_root : t.Live 2 := .root

theorem owns_inode {i b : ℕ} : t.Owns i .inode b ↔ b = i := Iff.rfl

theorem owns_ptr {i b : ℕ} {k : Fin 1019} :
    t.Owns i (.ptr k) b ↔ k.1 < (t.inode i).nptrs ∧ b = ((t.inode i).ptrs k).toNat := Iff.rfl

theorem slots_eq_some {i c : ℕ} {k : Fin 128} : t.slots i k = some c ↔
    (t.inode i).isDir = true ∧ (t.dir i k).valid = true ∧ (t.dir i k).inode.1 = c := by
  rw [slots]
  split_ifs with h
  · simp [h]
  · exact iff_of_false nofun fun h' => h ⟨h'.1, h'.2.1⟩

theorem slots_eq_none {i : ℕ} {k : Fin 128} (h : (t.dir i k).valid = false) :
    t.slots i k = none := by
  rw [slots, if_neg (by simp [h])]

theorem Live.child {i : ℕ} {k : Fin 128} (hi : t.Live i) (hd : (t.inode i).isDir = true)
    (hv : (t.dir i k).valid = true) : t.Live (t.dir i k).inode :=
  hi.step (slots_eq_some.2 ⟨hd, hv, rfl⟩)

/-- The pointer a directory uses. -/
theorem owns_dir {i : ℕ} (hd : (t.inode i).isDir = true) :
    t.Owns i (.ptr 0) ((t.inode i).ptrs 0).toNat := by
  rw [owns_ptr, FsInode.nptrs, if_pos hd]
  exact ⟨Nat.zero_lt_one, rfl⟩

theorem Live.referenced {i : ℕ} (hi : t.Live i) : t.Referenced i := ⟨i, .inode, hi, rfl⟩

theorem WF.lt_of_live (h : t.WF) {i : ℕ} (hi : t.Live i) : 2 ≤ i ∧ i < t.nblocks :=
  ⟨(h.owned hi (owns_inode.2 rfl)).1, (h.owned hi (owns_inode.2 rfl)).2.1⟩

theorem WF.dir_lt (h : t.WF) {i : ℕ} (hi : t.Live i) (hd : (t.inode i).isDir = true) :
    2 ≤ ((t.inode i).ptrs 0).toNat ∧ ((t.inode i).ptrs 0).toNat < t.nblocks :=
  ⟨(h.owned hi (owns_dir hd)).1, (h.owned hi (owns_dir hd)).2.1⟩

theorem WF.not_referenced_of_not_marked (h : t.WF) {b : ℕ} (hb : t.marked b = false) :
    ¬t.Referenced b := fun ⟨_, _, hi, ho⟩ => by simp [(h.owned hi ho).2.2] at hb

/-- A live object that is not a directory is a regular file. -/
theorem WF.isReg (h : t.WF) {i : ℕ} (hi : t.Live i) (hd : (t.inode i).isDir = false) :
    (t.inode i).isReg = true := by
  rcases h.object hi with hd' | hr
  · simp [hd] at hd'
  · exact hr.1

/-- A regular file does not use more pointers than there are. -/
theorem WF.size_le (h : t.WF) {i : ℕ} (hi : t.Live i) (hr : (t.inode i).isReg = true) :
    0 ≤ (t.inode i).size.toInt ∧ (t.inode i).size.toInt ≤ 1019 * 4096 := by
  rcases h.object hi with hd | hr'
  · simp [FsInode.isDir_of_isReg hr] at hd
  · exact hr'.2

theorem WF.nptrs_le (h : t.WF) {i : ℕ} (hi : t.Live i) : (t.inode i).nptrs ≤ 1019 := by
  rw [FsInode.nptrs]
  split_ifs with hd
  · omega
  · have := (h.size_le hi (h.isReg hi (by simpa using hd))).2
    omega

/-! ## Tables with the same live objects -/

/-- The live objects of `t` are the same in `t'`. -/
structure Agree (t t' : Table) : Prop where
  nblocks : t'.nblocks = t.nblocks
  inode : ∀ {i}, t.Live i → t'.inode i = t.inode i
  dir : ∀ {i}, t.Live i → (t.inode i).isDir = true → t'.dir i = t.dir i

theorem Agree.refl (t : Table) : t.Agree t := ⟨rfl, fun _ => rfl, fun _ _ => rfl⟩

namespace Agree

variable {t' : Table} (ha : t.Agree t')
include ha

theorem slots {i : ℕ} (hi : t.Live i) (k : Fin 128) : t'.slots i k = t.slots i k := by
  rw [Table.slots, Table.slots, ha.inode hi]
  by_cases hd : (t.inode i).isDir = true
  · rw [ha.dir hi hd]
  · rw [if_neg fun h => hd h.1, if_neg fun h => hd h.1]

theorem live {i : ℕ} : t'.Live i ↔ t.Live i := reach_congr fun _ hx => ha.slots hx

theorem owns {i b : ℕ} {r : Role} (hi : t.Live i) : t'.Owns i r b ↔ t.Owns i r b := by
  cases r with
  | inode => exact Iff.rfl
  | ptr k => rw [owns_ptr, owns_ptr, ha.inode hi]

theorem referenced {b : ℕ} : t'.Referenced b ↔ t.Referenced b :=
  ⟨fun ⟨i, r, hi, ho⟩ => ⟨i, r, ha.live.1 hi, (ha.owns (ha.live.1 hi)).1 ho⟩,
    fun ⟨i, r, hi, ho⟩ => ⟨i, r, ha.live.2 hi, (ha.owns hi).2 ho⟩⟩

theorem trans {t'' : Table} (ha' : t'.Agree t'') : t.Agree t'' where
  nblocks := ha'.nblocks.trans ha.nblocks
  inode hi := (ha'.inode (ha.live.2 hi)).trans (ha.inode hi)
  dir hi hd := (ha'.dir (ha.live.2 hi) (by rw [ha.inode hi]; exact hd)).trans (ha.dir hi hd)

end Agree

/-- A table with the same live objects, whose blocks are marked, is well-formed. -/
theorem WF.congr {t' : Table} (h : t.WF) (ha : t.Agree t')
    (hres : t'.marked 0 = true ∧ t'.marked 1 = true)
    (hmark : ∀ b, t.Referenced b → t'.marked b = true) : t'.WF where
  three_le := ha.nblocks ▸ h.three_le
  le_cap := ha.nblocks ▸ h.le_cap
  reserved := hres
  root := (ha.inode live_root).symm ▸ h.root
  tree := h.tree.congr fun _ hx => ha.slots hx
  object hi := ha.inode (ha.live.1 hi) ▸ h.object (ha.live.1 hi)
  owned hi ho := by
    have hi' := ha.live.1 hi
    have ho' := (ha.owns hi').1 ho
    obtain ⟨h2, hlt, _⟩ := h.owned hi' ho'
    exact ⟨h2, ha.nblocks ▸ hlt, hmark _ ⟨_, _, hi', ho'⟩⟩
  disjoint hi hj ho ho' := h.disjoint (ha.live.1 hi) (ha.live.1 hj)
    ((ha.owns (ha.live.1 hi)).1 ho) ((ha.owns (ha.live.1 hj)).1 ho')
  names hi hd hv := by
    have hi' := ha.live.1 hi
    rw [ha.inode hi'] at hd
    rw [ha.dir hi' hd] at hv ⊢
    exact h.names hi' hd hv
  distinct hi hd hk hl hn := by
    have hi' := ha.live.1 hi
    rw [ha.inode hi'] at hd
    rw [ha.dir hi' hd] at hk hl hn
    exact h.distinct hi' hd hk hl hn

/-! ## Changing an inode -/

section SetInode

variable {p : ℕ} {x : FsInode}

/-- The table with another inode. -/
def setInode (t : Table) (p : ℕ) (x : FsInode) : Table :=
  { t with inode := Function.update t.inode p x }

@[simp] theorem setInode_self : (t.setInode p x).inode p = x := Function.update_self ..

theorem setInode_of_ne {i : ℕ} (h : i ≠ p) : (t.setInode p x).inode i = t.inode i :=
  Function.update_of_ne h ..

/-- Changing an inode, but not its kind, keeps the graph of entries. -/
theorem slots_setInode (hkind : x.isDir = (t.inode p).isDir) : (t.setInode p x).slots = t.slots := by
  funext i k
  rw [slots, slots]
  by_cases hi : i = p
  · rw [hi, setInode_self, hkind]
    rfl
  · rw [setInode_of_ne hi]
    rfl

theorem live_setInode (hkind : x.isDir = (t.inode p).isDir) {i : ℕ} :
    (t.setInode p x).Live i ↔ t.Live i := by
  rw [Live, Live, slots_setInode hkind]

theorem owns_setInode_of_ne {i b : ℕ} {r : Role} (h : i ≠ p) :
    (t.setInode p x).Owns i r b ↔ t.Owns i r b := by
  cases r with
  | inode => exact Iff.rfl
  | ptr k => rw [owns_ptr, owns_ptr, setInode_of_ne h]

/-- An inode may be replaced by one of the same kind, which uses pointers of the old one, or
    pointers to marked blocks that nothing references. -/
structure CanSetInode (t : Table) (p : ℕ) (x : FsInode) : Prop where
  live : t.Live p
  kind : x.isDir = (t.inode p).isDir
  good : GoodInode x
  ptr : ∀ {k}, k.1 < x.nptrs → t.Owns p (.ptr k) (x.ptrs k).toNat ∨
    (¬t.Referenced (x.ptrs k).toNat ∧ 2 ≤ (x.ptrs k).toNat ∧ (x.ptrs k).toNat < t.nblocks ∧
      t.marked (x.ptrs k).toNat = true)
  inj : ∀ {k l}, k.1 < x.nptrs → l.1 < x.nptrs → (x.ptrs k).toNat = (x.ptrs l).toNat → k = l

theorem CanSetInode.owns {c : CanSetInode t p x} {r : Role} {b : ℕ}
    (ho : (t.setInode p x).Owns p r b) : t.Owns p r b ∨
      (¬t.Referenced b ∧ 2 ≤ b ∧ b < t.nblocks ∧ t.marked b = true) := by
  cases r with
  | inode => exact .inl ho
  | ptr k =>
    rw [owns_ptr, setInode_self] at ho
    rw [ho.2]
    exact c.ptr ho.1

theorem WF.setInode (h : t.WF) (c : CanSetInode t p x) : (t.setInode p x).WF where
  three_le := h.three_le
  le_cap := h.le_cap
  reserved := h.reserved
  root := by
    by_cases hp : 2 = p
    · rw [← hp, setInode_self, c.kind, ← hp]
      exact h.root
    · rw [setInode_of_ne hp]
      exact h.root
  tree := by
    rw [slots_setInode c.kind]
    exact h.tree
  object {i} hi := by
    by_cases hip : i = p
    · rw [hip, setInode_self]
      exact c.good
    · rw [setInode_of_ne hip]
      exact h.object ((live_setInode c.kind).1 hi)
  owned {i r b} hi ho := by
    by_cases hip : i = p
    · subst hip
      -- A block of the new inode is one of the old inode, or a fresh one.
      rcases c.owns ho with ho | ⟨_, h2, hlt, hm⟩
      · exact h.owned c.live ho
      · exact ⟨h2, hlt, hm⟩
    · exact h.owned ((live_setInode c.kind).1 hi) ((owns_setInode_of_ne hip).1 ho)
  disjoint {i j r r' b} hi hj ho ho' := by
    replace hi := (live_setInode c.kind).1 hi
    replace hj := (live_setInode c.kind).1 hj
    by_cases hip : i = p <;> by_cases hjp : j = p
    · subst hip
      subst hjp
      refine ⟨rfl, ?_⟩
      cases r <;> cases r'
      · rfl
      · -- The inode block is referenced, so it is not one of the new ones.
        have hb : t.Owns _ .inode b := ho
        rcases c.owns ho' with ho' | ⟨hn, _⟩
        · exact (h.disjoint hi hi hb ho').2
        · exact absurd ⟨_, _, hi, hb⟩ hn
      · have hb : t.Owns _ .inode b := ho'
        rcases c.owns ho with ho | ⟨hn, _⟩
        · exact (h.disjoint hi hi ho hb).2
        · exact absurd ⟨_, _, hi, hb⟩ hn
      · rw [owns_ptr, setInode_self] at ho ho'
        rw [c.inj ho.1 ho'.1 (ho.2.symm.trans ho'.2)]
    · subst hip
      rw [owns_setInode_of_ne hjp] at ho'
      rcases c.owns ho with ho | ⟨hn, _⟩
      · exact h.disjoint hi hj ho ho'
      · exact absurd ⟨_, _, hj, ho'⟩ hn
    · subst hjp
      rw [owns_setInode_of_ne hip] at ho
      rcases c.owns ho' with ho' | ⟨hn, _⟩
      · exact h.disjoint hi hj ho ho'
      · exact absurd ⟨_, _, hi, ho⟩ hn
    · exact h.disjoint hi hj ((owns_setInode_of_ne hip).1 ho) ((owns_setInode_of_ne hjp).1 ho')
  names {i k} hi hd hv := by
    replace hi := (live_setInode c.kind).1 hi
    by_cases hip : i = p
    · subst hip
      rw [setInode_self, c.kind] at hd
      exact h.names hi hd hv
    · rw [setInode_of_ne hip] at hd
      exact h.names hi hd hv
  distinct {i k l} hi hd hk hl hn := by
    replace hi := (live_setInode c.kind).1 hi
    by_cases hip : i = p
    · subst hip
      rw [setInode_self, c.kind] at hd
      exact h.distinct hi hd hk hl hn
    · rw [setInode_of_ne hip] at hd
      exact h.distinct hi hd hk hl hn

end SetInode

/-! ## Changing a directory -/

/-- The table with other entries in a directory. -/
def setDir (t : Table) (p : ℕ) (d : DirBlock) : Table := { t with dir := Function.update t.dir p d }

section SetDir

variable {p : ℕ} {d : DirBlock}

@[simp] theorem setDir_self : (t.setDir p d).dir p = d := Function.update_self ..

theorem setDir_of_ne {i : ℕ} (h : i ≠ p) : (t.setDir p d).dir i = t.dir i :=
  Function.update_of_ne h ..

theorem owns_setDir {i b : ℕ} {r : Role} : (t.setDir p d).Owns i r b ↔ t.Owns i r b := by
  cases r <;> exact Iff.rfl

theorem slots_setDir_self {k : Fin 128} (hd : (t.inode p).isDir = true) :
    (t.setDir p d).slots p k = if (d k).valid = true then some (d k).inode.1 else none := by
  have hd' : ((t.setDir p d).inode p).isDir = true := hd
  rw [slots, setDir_self, if_congr (and_iff_right hd') rfl rfl]

theorem slots_setDir_of_ne {i : ℕ} {k : Fin 128} (h : i ≠ p) :
    (t.setDir p d).slots i k = t.slots i k := by
  rw [slots, slots, setDir_of_ne h]
  rfl

end SetDir

section Link

variable {p : ℕ} {k : Fin 128} {n : Fin (2 ^ 31)} {name : List UInt8}

/-- A new object: a file or a directory without valid entries, whose blocks are marked and not
    referenced. -/
structure NewObject (t : Table) (n : ℕ) : Prop where
  good : GoodInode (t.inode n)
  leaf : (t.inode n).isDir = true → ∀ j, (t.dir n j).valid = false
  owned : ∀ {r b}, t.Owns n r b →
    2 ≤ b ∧ b < t.nblocks ∧ t.marked b = true ∧ ¬t.Referenced b
  inj : ∀ {r r' b}, t.Owns n r b → t.Owns n r' b → r = r'

/-- A new object may be named in the free entry `k` of the directory `p`, under a name that is
    not there yet. -/
structure CanLink (t : Table) (p : ℕ) (k : Fin 128) (n : Fin (2 ^ 31)) (name : List UInt8) :
    Prop where
  live : t.Live p
  isDir : (t.inode p).isDir = true
  free : (t.dir p k).valid = false
  absent : ∀ j, (t.dir p j).valid = true → cstr (t.dir p j).name ≠ name
  name : GoodName name
  object : NewObject t n

/-- The table with the entry `k` of the directory `p` naming the inode `n`. -/
def link (t : Table) (p : ℕ) (k : Fin 128) (n : Fin (2 ^ 31)) (name : List UInt8) : Table :=
  t.setDir p ((t.dir p).add k n name)

theorem NewObject.slots (c : NewObject t n) (j : Fin 128) : t.slots n j = none := by
  by_cases hd : (t.inode n).isDir = true
  · exact slots_eq_none (c.leaf hd j)
  · rw [Table.slots, if_neg fun h => hd h.1]

theorem NewObject.not_live (c : NewObject t n) : ¬t.Live n := fun h =>
  (c.owned (owns_inode.2 rfl)).2.2.2 h.referenced

theorem slots_link (hd : (t.inode p).isDir = true) :
    (t.link p k n name).slots = setEdge t.slots p k (some n) := by
  funext i j
  by_cases hi : i = p
  · subst hi
    rw [link, slots_setDir_self hd, DirBlock.add]
    by_cases hj : j = k
    · subst hj
      rw [setEdge_self, Function.update_self, if_pos rfl]
    · rw [setEdge_of_ne _ fun h => hj h.2, Function.update_of_ne hj, slots,
        if_congr (and_iff_right hd) rfl rfl]
  · rw [setEdge_of_ne _ fun h => hi h.1, link, slots_setDir_of_ne hi]

theorem CanLink.live_link (c : CanLink t p k n name) {i : ℕ} :
    (t.link p k n name).Live i ↔ t.Live i ∨ i = n := by
  rw [Live, slots_link c.isDir]
  exact reach_insert c.live (slots_eq_none c.free) c.object.slots

/-- The valid entries after a link. -/
theorem CanLink.valid_link (c : CanLink t p k n name) {i : ℕ} {j : Fin 128}
    (hi : t.Live i ∨ i = n) (hd : (t.inode i).isDir = true)
    (hv : ((t.link p k n name).dir i j).valid = true) :
    (i = p ∧ j = k ∧ cstr ((t.link p k n name).dir i j).name = name) ∨
      (t.Live i ∧ (t.dir i j).valid = true ∧
        (t.link p k n name).dir i j = t.dir i j) := by
  by_cases hip : i = p
  · subst hip
    by_cases hjk : j = k
    · refine .inl ⟨rfl, hjk, ?_⟩
      rw [link, setDir_self, DirBlock.add, hjk, Function.update_self]
      exact cstr_strncpy c.name.length_le c.name.nul_notMem
    · have he : (t.link i k n name).dir i j = t.dir i j := by
        rw [link, setDir_self, DirBlock.add, Function.update_of_ne hjk]
      exact .inr ⟨c.live, he ▸ hv, he⟩
  · have he : (t.link p k n name).dir i j = t.dir i j := by
      rw [link, setDir_of_ne hip]
    rcases hi with hi | rfl
    · exact .inr ⟨hi, he ▸ hv, he⟩
    · rw [he, c.object.leaf hd j] at hv
      cases hv

theorem WF.link (h : t.WF) (c : CanLink t p k n name) : (t.link p k n name).WF where
  three_le := h.three_le
  le_cap := h.le_cap
  reserved := h.reserved
  root := h.root
  tree := by
    rw [slots_link c.isDir]
    exact h.tree.insert c.live (slots_eq_none c.free) c.object.not_live c.object.slots
  object hi := by
    rcases c.live_link.1 hi with hi | rfl
    · exact h.object hi
    · exact c.object.good
  owned hi ho := by
    have ho := owns_setDir.1 ho
    rcases c.live_link.1 hi with hi | rfl
    · exact h.owned hi ho
    · obtain ⟨h2, hlt, hm, _⟩ := c.object.owned ho
      exact ⟨h2, hlt, hm⟩
  disjoint hi hj ho ho' := by
    replace ho := owns_setDir.1 ho
    replace ho' := owns_setDir.1 ho'
    -- No object refers to a block of the new object.
    rcases c.live_link.1 hi with hi | rfl <;> rcases c.live_link.1 hj with hj | rfl
    · exact h.disjoint hi hj ho ho'
    · exact absurd ⟨_, _, hi, ho⟩ (c.object.owned ho').2.2.2
    · exact absurd ⟨_, _, hj, ho'⟩ (c.object.owned ho).2.2.2
    · exact ⟨rfl, c.object.inj ho ho'⟩
  names hi hd hv := by
    rcases c.valid_link (c.live_link.1 hi) hd hv with ⟨_, _, hn⟩ | ⟨hi, hv, he⟩
    · rw [hn]
      exact c.name
    · rw [he]
      exact h.names hi hd hv
  distinct hi hd hk hl hn := by
    rcases c.valid_link (c.live_link.1 hi) hd hk with ⟨rfl, rfl, hkn⟩ | ⟨hi', hk', he⟩
    · rcases c.valid_link (c.live_link.1 hi) hd hl with ⟨_, rfl, _⟩ | ⟨_, hl', he⟩
      · rfl
      · rw [hkn, he] at hn
        exact absurd hn.symm (c.absent _ hl')
    · rcases c.valid_link (c.live_link.1 hi) hd hl with ⟨rfl, rfl, hln⟩ | ⟨_, hl', he'⟩
      · rw [hln, he] at hn
        exact absurd hn (c.absent _ hk')
      · rw [he, he'] at hn
        exact h.distinct hi' hd hk' hl' hn

end Link

section Unlink

variable {p : ℕ} {k : Fin 128}

/-- The entry `k` of the directory `p` may be invalidated if it names an object without valid
    entries. -/
structure CanUnlink (t : Table) (p : ℕ) (k : Fin 128) : Prop where
  live : t.Live p
  isDir : (t.inode p).isDir = true
  valid : (t.dir p k).valid = true
  leaf : (t.inode (t.dir p k).inode).isDir = true → ∀ j, (t.dir (t.dir p k).inode j).valid = false

/-- The table with the entry `k` of the directory `p` no longer valid. -/
def unlink (t : Table) (p : ℕ) (k : Fin 128) : Table := t.setDir p ((t.dir p).invalidate k)

theorem CanUnlink.slots (c : CanUnlink t p k) (j : Fin 128) :
    t.slots (t.dir p k).inode j = none := by
  by_cases hd : (t.inode (t.dir p k).inode).isDir = true
  · exact slots_eq_none (c.leaf hd j)
  · rw [Table.slots, if_neg fun h => hd h.1]

theorem slots_unlink (hd : (t.inode p).isDir = true) :
    (t.unlink p k).slots = setEdge t.slots p k none := by
  funext i j
  by_cases hi : i = p
  · subst hi
    rw [unlink, slots_setDir_self hd, DirBlock.invalidate]
    by_cases hj : j = k
    · subst hj
      rw [setEdge_self, Function.update_self, if_neg (by simp)]
    · rw [setEdge_of_ne _ fun h => hj h.2, Function.update_of_ne hj, slots,
        if_congr (and_iff_right hd) rfl rfl]
  · rw [setEdge_of_ne _ fun h => hi h.1, unlink, slots_setDir_of_ne hi]

theorem CanUnlink.live_unlink (c : CanUnlink t p k) (h : t.WF) {i : ℕ} :
    (t.unlink p k).Live i ↔ t.Live i ∧ i ≠ (t.dir p k).inode := by
  rw [Live, slots_unlink c.isDir]
  exact reach_delete h.tree c.live (slots_eq_some.2 ⟨c.isDir, c.valid, rfl⟩) c.slots

/-- The valid entries after an unlink are old ones. -/
theorem valid_unlink {i : ℕ} {j : Fin 128} (hv : ((t.unlink p k).dir i j).valid = true) :
    (t.unlink p k).dir i j = t.dir i j := by
  by_cases hip : i = p
  · subst hip
    rw [unlink, setDir_self, DirBlock.invalidate] at hv ⊢
    by_cases hjk : j = k
    · rw [hjk, Function.update_self] at hv
      cases hv
    · rw [Function.update_of_ne hjk]
  · rw [unlink, setDir_of_ne hip]

theorem WF.unlink (h : t.WF) (c : CanUnlink t p k) : (t.unlink p k).WF where
  three_le := h.three_le
  le_cap := h.le_cap
  reserved := h.reserved
  root := h.root
  tree := by
    rw [slots_unlink c.isDir]
    exact h.tree.delete c.live (slots_eq_some.2 ⟨c.isDir, c.valid, rfl⟩) c.slots
  object hi := h.object ((c.live_unlink h).1 hi).1
  owned hi ho := h.owned ((c.live_unlink h).1 hi).1 (owns_setDir.1 ho)
  disjoint hi hj ho ho' := h.disjoint ((c.live_unlink h).1 hi).1 ((c.live_unlink h).1 hj).1
    (owns_setDir.1 ho) (owns_setDir.1 ho')
  names hi hd hv := by
    have he := valid_unlink hv
    rw [he] at hv ⊢
    exact h.names ((c.live_unlink h).1 hi).1 hd hv
  distinct hi hd hk hl hn := by
    have hek := valid_unlink hk
    have hel := valid_unlink hl
    rw [hek, hel] at hn
    rw [hek] at hk
    rw [hel] at hl
    exact h.distinct ((c.live_unlink h).1 hi).1 hd hk hl hn

end Unlink

section Rename

variable {p : ℕ} {k : Fin 128} {name : List UInt8}

/-- The entry `k` of the directory `p` may get a name that is not there yet. -/
structure CanRename (t : Table) (p : ℕ) (k : Fin 128) (name : List UInt8) : Prop where
  live : t.Live p
  isDir : (t.inode p).isDir = true
  valid : (t.dir p k).valid = true
  absent : ∀ j, (t.dir p j).valid = true → cstr (t.dir p j).name ≠ name
  name : GoodName name

/-- The table with another name in the entry `k` of the directory `p`. -/
def rename (t : Table) (p : ℕ) (k : Fin 128) (name : List UInt8) : Table :=
  t.setDir p ((t.dir p).rename k name)

theorem slots_rename (hd : (t.inode p).isDir = true) : (t.rename p k name).slots = t.slots := by
  funext i j
  by_cases hi : i = p
  · subst hi
    rw [rename, slots_setDir_self hd, DirBlock.rename, slots, if_congr (and_iff_right hd) rfl rfl]
    by_cases hj : j = k
    · rw [hj, Function.update_self]
    · rw [Function.update_of_ne hj]
  · rw [rename, slots_setDir_of_ne hi]

theorem live_rename (hd : (t.inode p).isDir = true) {i : ℕ} :
    (t.rename p k name).Live i ↔ t.Live i := by
  rw [Live, Live, slots_rename hd]

/-- The valid entries after a renaming. -/
theorem CanRename.valid_rename (c : CanRename t p k name) {i : ℕ} {j : Fin 128}
    (hv : ((t.rename p k name).dir i j).valid = true) :
    (i = p ∧ j = k ∧ cstr ((t.rename p k name).dir i j).name = name) ∨
      (¬(i = p ∧ j = k) ∧ (t.dir i j).valid = true ∧
        (t.rename p k name).dir i j = t.dir i j) := by
  by_cases hip : i = p
  · subst hip
    by_cases hjk : j = k
    · refine .inl ⟨rfl, hjk, ?_⟩
      rw [rename, setDir_self, DirBlock.rename, hjk, Function.update_self]
      exact cstr_strncpy c.name.length_le c.name.nul_notMem
    · have he : (t.rename i k name).dir i j = t.dir i j := by
        rw [rename, setDir_self, DirBlock.rename, Function.update_of_ne hjk]
      exact .inr ⟨fun h => hjk h.2, he ▸ hv, he⟩
  · have he : (t.rename p k name).dir i j = t.dir i j := by
      rw [rename, setDir_of_ne hip]
    exact .inr ⟨fun h => hip h.1, he ▸ hv, he⟩

theorem WF.rename (h : t.WF) (c : CanRename t p k name) : (t.rename p k name).WF where
  three_le := h.three_le
  le_cap := h.le_cap
  reserved := h.reserved
  root := h.root
  tree := by
    rw [slots_rename c.isDir]
    exact h.tree
  object hi := h.object ((live_rename c.isDir).1 hi)
  owned hi ho := h.owned ((live_rename c.isDir).1 hi) (owns_setDir.1 ho)
  disjoint hi hj ho ho' := h.disjoint ((live_rename c.isDir).1 hi) ((live_rename c.isDir).1 hj)
    (owns_setDir.1 ho) (owns_setDir.1 ho')
  names hi hd hv := by
    rcases c.valid_rename hv with ⟨_, _, hn⟩ | ⟨_, hv, he⟩
    · rw [hn]
      exact c.name
    · rw [he]
      exact h.names ((live_rename c.isDir).1 hi) hd hv
  distinct hi hd hk hl hn := by
    -- No entry but the renamed one has the new name.
    rcases c.valid_rename hk with ⟨rfl, rfl, hkn⟩ | ⟨_, hk', he⟩
    · rcases c.valid_rename hl with ⟨_, rfl, _⟩ | ⟨_, hl', he⟩
      · rfl
      · rw [hkn, he] at hn
        exact absurd hn.symm (c.absent _ hl')
    · rcases c.valid_rename hl with ⟨rfl, rfl, hln⟩ | ⟨_, hl', he'⟩
      · rw [hln, he] at hn
        exact absurd hn (c.absent _ hk')
      · rw [he, he'] at hn
        exact h.distinct ((live_rename c.isDir).1 hi) hd hk' hl' hn

end Rename

end Table

end Cs5600
