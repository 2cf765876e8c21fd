import Cs5600.Blocks

/-!
# Looking up paths

What the operations do before they change anything, in a well-formed state
(`FsState.WF`): they translate paths to inode numbers and read inodes and
directory entries, by which they find out whether they can go on. The results
are those of functions on the table of the image:

* `Table.translate` and `Table.lookupParent`, of `translate` and
  `lookup_parent`;
* `Table.newLeaf`, of the checks by which `fs_create` and `fs_mkdir` begin;
* `Table.oldLeaf`, of those of `fs_unlink` and `fs_rmdir`;
* `Table.regular`, of those of the operations on the contents of files.

Looking up does not change the state, and ends with a value or an error.
-/

namespace Cs5600

open LabelledGraph FsM

/-! ## Names of a path -/

namespace FsPath

variable (path : FsPath)

/-- The components of a path, as names. -/
def names : List (List UInt8) := path.comps.map (·.take maxNameLen)

/-- The names of a path are names that directory entries may have. -/
theorem goodName {path : FsPath} {c : List UInt8} (h : c ∈ path.names) : GoodName c := by
  obtain ⟨c', hc', rfl⟩ := List.mem_map.1 h
  obtain ⟨hne, hs, h0⟩ := of_mem_comps hc'
  refine ⟨?_, fun h => hs (List.mem_of_mem_take h), fun h => h0 (List.mem_of_mem_take h),
    List.length_take_le _ _⟩
  rw [Ne, List.take_eq_nil_iff]
  exact fun h => h.elim (by decide) hne

theorem names_eq_nil {path : FsPath} : path.names = [] ↔ path.bytes = [slash] := by
  rw [names, List.map_eq_nil_iff]
  exact ⟨path.root, fun h => by rw [comps, h, strtok_slash]⟩

/-- A path of at most ten components has all of its names followed. -/
theorem take_names {path : FsPath} (h : path.comps.length ≤ maxPathComponents) :
    path.names.take maxPathComponents = path.names :=
  List.take_of_length_le ((List.length_map _).trans_le h)

theorem components_eq : components path.bytes = path.names.take maxPathComponents := by
  rw [components, names, List.map_take]
  rfl

end FsPath

/-- `translate` walks along the components of a path. -/
theorem translate_eq (path : List UInt8) : translate path = walkFrom 2 (components path) := by
  rw [translate]
  split_ifs with h
  · rw [h, components, strtok_slash]
    rfl
  · rfl

theorem components_congr {path path' : List UInt8} (h : strtok path = strtok path') :
    components path = components path' := by rw [components, components, h]

/-- `lookup_parent` takes a path apart before its last component. -/
theorem lookupParent_append {pre last : List UInt8} (k : ℕ) (hlast : last ≠ []) (hs : slash ∉ last) :
    lookupParent (pre ++ slash :: last ++ List.replicate k slash) = (do
      let parent ← translate (pre ++ [slash])
      pure (parent, last.take maxNameLen)) := by
  have hroot : pre ++ slash :: last ++ List.replicate k slash ≠ [slash] := by
    intro h
    have hcomps : strtok (pre ++ slash :: last ++ List.replicate k slash) = strtok pre ++ [last] :=
      strtok_append k hlast hs
    rw [h, strtok_slash] at hcomps
    exact List.concat_ne_nil _ _ hcomps.symm
  -- With one trailing slash removed, the path still ends in the same component.
  obtain ⟨k', hdup⟩ : ∃ k', (if (pre ++ slash :: last ++ List.replicate k slash).getLast? = some slash
      then (pre ++ slash :: last ++ List.replicate k slash).dropLast
      else pre ++ slash :: last ++ List.replicate k slash) =
        pre ++ slash :: last ++ List.replicate k' slash := by
    cases k with
    | zero =>
      refine ⟨0, if_neg ?_⟩
      rw [List.replicate_zero, List.append_nil,
        List.getLast?_append_of_ne_nil _ (List.cons_ne_nil _ _), List.getLast?_cons_of_ne_nil hlast]
      exact fun h => hs (List.mem_of_getLast? h)
    | succ k =>
      refine ⟨k, ?_⟩
      rw [List.replicate_succ', ← List.append_assoc, List.getLast?_concat, if_pos rfl,
        List.dropLast_concat]
  have hdir : translate (dirname (pre ++ slash :: last ++ List.replicate k' slash)) =
      translate (pre ++ [slash]) := by
    rw [translate_eq, translate_eq, components_congr]
    exact (strtok_dirname k' hlast hs).trans (strtok_concat_slash pre).symm
  rw [lookupParent, beq_eq_false_iff_ne.2 hroot, if_neg (by simp)]
  simp only [hdup, basename_append k' hlast hs, hdir]
  rfl

/-- The leaf name and the parent's components of a path other than the root's. -/
theorem lookupParent_eq {path : FsPath} {leaf : List UInt8}
    (h : path.names.getLast? = some leaf) :
    lookupParent path.bytes = (do
      let parent ← walkFrom 2 (path.names.dropLast.take maxPathComponents)
      pure (parent, leaf)) := by
  have hcomps : strtok path.bytes ≠ [] := by
    intro hnil
    rw [FsPath.names, FsPath.comps, hnil] at h
    cases h
  obtain ⟨pre, last, k, hlast, hs, hb⟩ := exists_eq_append path.absolute hcomps
  have hnames : path.names = (strtok pre).map (·.take maxNameLen) ++ [last.take maxNameLen] := by
    rw [FsPath.names, FsPath.comps, hb, strtok_append k hlast hs, List.map_append, List.map_singleton]
  have hpre : components (pre ++ [slash]) = path.names.dropLast.take maxPathComponents := by
    rw [components_congr (strtok_concat_slash pre), components, hnames, List.dropLast_concat,
      List.map_take]
  rw [hnames, List.getLast?_concat] at h
  rw [hb, lookupParent_append k hlast hs, translate_eq, hpre, Option.some.inj h]

/-! ## Well-formed states -/

/-- The state of a file system that has a well-formed image. -/
structure FsState.WF (s : FsState) : Prop where
  superblock : s.superblock = s.img.block 0
  bitmap : s.bitmap = s.img.block 1
  img : s.img.WF

/-- The result given by a function that may return an error. -/
def Res.ofExcept {α : Type} : Except Errno α → Res α
  | .ok a => .ok a
  | .error e => .err e

namespace FsState

variable {s : FsState}

theorem WF.mounted (h : s.WF) : s.Mounted where
  superblock := h.superblock
  bitmap := h.bitmap
  diskSize := by rw [h.superblock, h.img.diskSize]
  three_le := h.img.table.three_le
  le_cap := h.img.table.le_cap

/-- After writes other than to the superblock, the state is well-formed if the image is. -/
theorem WF.wrote (h : s.WF) {ws : List Write} (hw : Writable s.img.nblocks ws)
    (himg : (s.img.puts ws).WF) : (s.wrote ws).WF :=
  ⟨(h.mounted.wrote hw).superblock, rfl, himg⟩

end FsState

open FsState

variable {s : FsState}

/-- Objects that lookups get to: the root, and what the entries of directories name. Their inodes and
    entries are on the disk. -/
structure FsState.Walks (s : FsState) (P : ℕ → Prop) : Prop where
  mounted : s.Mounted
  root : P 2
  lt : ∀ {i}, P i → 2 ≤ i ∧ i < s.img.nblocks
  dir_lt : ∀ {i}, P i → (s.img.table.inode i).isDir = true →
    2 ≤ ((s.img.table.inode i).ptrs 0).toNat ∧ ((s.img.table.inode i).ptrs 0).toNat < s.img.nblocks
  child : ∀ {i k}, P i → (s.img.table.inode i).isDir = true →
    (s.img.table.dir i k).valid = true → P (s.img.table.dir i k).inode

namespace FsState.Walks

variable {P : ℕ → Prop} (hw : s.Walks P) {i : ℕ}
include hw

theorem readInode_run (hi : P i) : (readInode i).run s = (.ok (s.img.table.inode i), s) := by
  rw [readInode, bind_ok (hw.mounted.blockRead (hw.lt hi).2)]
  rfl

theorem cint_ptr (hi : P i) (hd : (s.img.table.inode i).isDir = true) :
    cint ((s.img.table.inode i).ptrs 0) = ((s.img.table.inode i).ptrs 0).toNat :=
  cint_of_lt (lt_of_lt_of_le (hw.dir_lt hi hd).2 (hw.mounted.le_cap.trans (by decide)))

theorem readDir_run (hi : P i) (hd : (s.img.table.inode i).isDir = true) :
    (readDir ((s.img.table.inode i).ptrs 0)).run s = (.ok (s.img.table.dir i), s) := by
  rw [readDir, hw.cint_ptr hi hd, bind_ok (hw.mounted.blockRead (hw.dir_lt hi hd).2)]
  rfl

/-- Walking along names, where inodes and entries can be read. -/
theorem walkFrom_run (hi : P i) (cs : List (List UInt8)) :
    (walkFrom i cs).run s = (.ofExcept (s.img.table.resolve i cs), s) := by
  induction cs generalizing i with
  | nil => rfl
  | cons c cs ih =>
    rw [walkFrom, bind_ok (hw.readInode_run hi), Table.resolve]
    split_ifs with hd
    · rw [bind_failIf_false (by rw [hd]; rfl), bind_ok (hw.readDir_run hi hd)]
      cases hk : (s.img.table.dir i).find (·.named c) with
      | none => rfl
      | some k =>
        have hv := (FsDirent.named_iff.1 (DirBlock.of_find_eq_some hk)).1
        exact ih (hw.child hi hd hv)
    · rw [bind_failIf_true (by simpa using hd)]
      rfl

/-- A walk stays among the objects. -/
theorem of_walk {j : ℕ} {cs : List (List UInt8)} (hi : P i)
    (hj : walk s.img.table.children i cs = some j) : P j := by
  induction cs generalizing i with
  | nil => exact Option.some.inj hj ▸ hi
  | cons c cs ih =>
    rw [walk, Table.children] at hj
    obtain ⟨m, hm, hj⟩ := Option.bind_eq_some_iff.1 hj
    split_ifs at hm with hd
    obtain ⟨k, hk, rfl⟩ := Option.map_eq_some_iff.1 hm
    exact ih (hw.child hi hd (FsDirent.named_iff.1 (DirBlock.of_find_eq_some hk)).1) hj

end FsState.Walks

theorem FsState.WF.walks (h : s.WF) : s.Walks s.img.table.Live where
  mounted := h.mounted
  root := Table.live_root
  lt := h.img.table.lt_of_live
  dir_lt := h.img.table.dir_lt
  child hi hd hv := hi.child hd hv

theorem readInode_run (h : s.WF) {i : ℕ} (hi : s.img.table.Live i) :
    (readInode i).run s = (.ok (s.img.table.inode i), s) := h.walks.readInode_run hi

theorem readDir_run (h : s.WF) {i : ℕ} (hi : s.img.table.Live i)
    (hd : (s.img.table.inode i).isDir = true) :
    (readDir ((s.img.table.inode i).ptrs 0)).run s = (.ok (s.img.table.dir i), s) :=
  h.walks.readDir_run hi hd

theorem walkFrom_run (h : s.WF) {i : ℕ} (hi : s.img.table.Live i) (cs : List (List UInt8)) :
    (walkFrom i cs).run s = (.ofExcept (s.img.table.resolve i cs), s) := h.walks.walkFrom_run hi cs

/-! ## Lookups -/

namespace Table

variable (t : Table) (path : FsPath)

/-- The object a path leads to, along at most ten of its names. -/
def translate : Except Errno ℕ := t.resolve 2 (path.names.take maxPathComponents)

/-- The parent of the object of a path, and its name there. -/
def lookupParent : Except Errno (ℕ × List UInt8) :=
  match path.names.getLast? with
  | none => .error .EINVAL
  | some leaf =>
    (t.resolve 2 (path.names.dropLast.take maxPathComponents)).map fun parent => (parent, leaf)

/-- The directory that a path names a new object of. -/
def newLeaf : Except Errno (ℕ × List UInt8) :=
  match t.lookupParent path with
  | .error e => .error e
  | .ok (parent, leaf) =>
    if (t.inode parent).isDir then
      if ((t.dir parent).find (·.named leaf)).isSome then .error .EEXIST else .ok (parent, leaf)
    else .error .ENOTDIR

/-- The entry of a path, in the directory of its parent. -/
def oldLeaf : Except Errno (ℕ × Fin 128) :=
  match t.lookupParent path with
  | .error e => .error e
  | .ok (parent, leaf) =>
    match (t.dir parent).find (·.named leaf) with
    | none => .error .ENOENT
    | some k => .ok (parent, k)

/-- The entry that is renamed, and its new name. -/
def renamed (src dst : FsPath) : Except Errno (ℕ × Fin 128 × List UInt8) :=
  match t.lookupParent src with
  | .error e => .error e
  | .ok (srcParent, srcLeaf) =>
    match t.lookupParent dst with
    | .error e => .error e
    | .ok (dstParent, dstLeaf) =>
      if srcParent = dstParent then
        if ((t.dir srcParent).find (·.named dstLeaf)).isSome then .error .EEXIST
        else
          match (t.dir srcParent).find (·.named srcLeaf) with
          | none => .error .ENOENT
          | some k => .ok (srcParent, k, dstLeaf)
      else .error .EINVAL

/-- The regular file that a path leads to. -/
def regular : Except Errno ℕ :=
  match t.translate path with
  | .error e => .error e
  | .ok i => if (t.inode i).isReg then .ok i else .error .EISDIR

/-- The parent of a path, if there is one, is a directory. -/
def ParentDir : Prop :=
  ∀ parent leaf, t.lookupParent path = .ok (parent, leaf) → (t.inode parent).isDir = true

variable {t path} {p : ℕ} {leaf : List UInt8}

theorem lookupParent_eq_ok : t.lookupParent path = .ok (p, leaf) ↔
    path.names.getLast? = some leaf ∧
      walk t.children 2 (path.names.dropLast.take maxPathComponents) = some p := by
  rw [lookupParent, ← resolve_eq_ok]
  cases path.names.getLast? with
  | none => simp
  | some l =>
    cases t.resolve 2 (path.names.dropLast.take maxPathComponents) <;>
      simp [Except.map, and_comm]

theorem newLeaf_eq_ok : t.newLeaf path = .ok (p, leaf) ↔
    t.lookupParent path = .ok (p, leaf) ∧ (t.inode p).isDir = true ∧
      (t.dir p).find (·.named leaf) = none := by
  rw [newLeaf]
  cases t.lookupParent path with
  | error e => simp
  | ok pl =>
    obtain ⟨q, l⟩ := pl
    simp only [Except.ok.injEq, Prod.mk.injEq]
    split_ifs with hd hk
    · refine iff_of_false nofun ?_
      rintro ⟨⟨rfl, rfl⟩, _, hn⟩
      rw [hn] at hk
      cases hk
    · constructor
      · rintro h
        obtain ⟨rfl, rfl⟩ := Prod.mk.inj (Except.ok.inj h)
        exact ⟨⟨rfl, rfl⟩, hd, DirBlock.find_isSome_eq_false.1 (by simpa using hk)⟩
      · rintro ⟨⟨rfl, rfl⟩, _⟩
        rfl
    · refine iff_of_false nofun ?_
      rintro ⟨⟨rfl, rfl⟩, hd', _⟩
      exact hd hd'

theorem oldLeaf_eq_ok {k : Fin 128} : t.oldLeaf path = .ok (p, k) ↔
    ∃ leaf, t.lookupParent path = .ok (p, leaf) ∧ (t.dir p).find (·.named leaf) = some k := by
  rw [oldLeaf]
  cases t.lookupParent path with
  | error e => simp
  | ok pl =>
    obtain ⟨q, l⟩ := pl
    simp only [Except.ok.injEq, Prod.mk.injEq]
    cases hk : (t.dir q).find (·.named l) with
    | none =>
      refine iff_of_false nofun ?_
      rintro ⟨_, ⟨rfl, rfl⟩, hk'⟩
      rw [hk] at hk'
      cases hk'
    | some k' =>
      constructor
      · rintro h
        obtain ⟨rfl, rfl⟩ := Prod.mk.inj (Except.ok.inj h)
        exact ⟨l, ⟨rfl, rfl⟩, hk⟩
      · rintro ⟨_, ⟨rfl, rfl⟩, hk'⟩
        rw [hk] at hk'
        rw [Option.some.inj hk']

theorem renamed_eq_ok {src dst : FsPath} {k : Fin 128} : t.renamed src dst = .ok (p, k, leaf) ↔
    t.lookupParent dst = .ok (p, leaf) ∧ (t.dir p).find (·.named leaf) = none ∧
      t.oldLeaf src = .ok (p, k) := by
  rw [renamed, oldLeaf]
  cases t.lookupParent src with
  | error e => simp
  | ok sl =>
    obtain ⟨q, srcLeaf⟩ := sl
    cases t.lookupParent dst with
    | error e => simp
    | ok dl =>
      obtain ⟨q', dstLeaf⟩ := dl
      simp only [Except.ok.injEq, Prod.mk.injEq]
      split_ifs with hq hk
      · subst hq
        refine iff_of_false nofun ?_
        -- The new name is taken.
        rintro ⟨⟨rfl, rfl⟩, hn, _⟩
        rw [hn] at hk
        cases hk
      · subst hq
        have hn : (t.dir q).find (·.named dstLeaf) = none :=
          DirBlock.find_isSome_eq_false.1 (by simpa using hk)
        cases (t.dir q).find (·.named srcLeaf) with
        | none => simp
        | some k' =>
          simp only [Except.ok.injEq, Prod.mk.injEq]
          constructor
          · rintro ⟨rfl, rfl, rfl⟩
            exact ⟨⟨rfl, rfl⟩, hn, rfl, rfl⟩
          · rintro ⟨⟨rfl, rfl⟩, _, _, rfl⟩
            exact ⟨rfl, rfl, rfl⟩
      · refine iff_of_false nofun ?_
        -- The paths have different parents.
        rintro ⟨⟨rfl, _⟩, _, ho⟩
        cases hk : (t.dir q).find (·.named srcLeaf) with
        | none => simp [hk] at ho
        | some k' =>
          simp only [hk, Except.ok.injEq, Prod.mk.injEq] at ho
          exact hq ho.1

theorem regular_eq_ok {i : ℕ} : t.regular path = .ok i ↔
    t.translate path = .ok i ∧ (t.inode i).isReg = true := by
  rw [regular]
  cases t.translate path with
  | error e => simp
  | ok j =>
    simp only [Except.ok.injEq]
    split_ifs with hr
    · constructor
      · rintro h
        obtain rfl := Except.ok.inj h
        exact ⟨rfl, hr⟩
      · rintro ⟨rfl, _⟩
        rfl
    · refine iff_of_false nofun ?_
      rintro ⟨rfl, hr'⟩
      exact hr hr'

theorem WF.live_of_translate (h : t.WF) {i : ℕ} (hi : t.translate path = .ok i) : t.Live i :=
  h.live_of_walk (resolve_eq_ok.1 hi)

theorem WF.live_of_lookupParent (h : t.WF) (hp : t.lookupParent path = .ok (p, leaf)) : t.Live p :=
  h.live_of_walk (lookupParent_eq_ok.1 hp).2

/-- The leaf name of a path is one that a directory entry may have. -/
theorem goodName_of_lookupParent (hp : t.lookupParent path = .ok (p, leaf)) : GoodName leaf :=
  FsPath.goodName (List.mem_of_getLast? (lookupParent_eq_ok.1 hp).1)

end Table

/-! ## Their runs -/

section Walks

variable {P : ℕ → Prop} (hw : s.Walks P) (path : FsPath)
include hw

theorem FsState.Walks.translate_run :
    (translate path.bytes).run s = (.ofExcept (s.img.table.translate path), s) := by
  rw [translate_eq, path.components_eq]
  exact hw.walkFrom_run hw.root _

theorem FsState.Walks.lookupParent_run :
    (lookupParent path.bytes).run s = (.ofExcept (s.img.table.lookupParent path), s) := by
  rw [Table.lookupParent]
  cases hl : path.names.getLast? with
  | none =>
    rw [FsPath.names_eq_nil.1 (List.getLast?_eq_none_iff.1 hl), lookupParent]
    exact bind_failIf_true rfl
  | some leaf =>
    rw [lookupParent_eq hl]
    have hrun := hw.walkFrom_run hw.root (path.names.dropLast.take maxPathComponents)
    cases hr : s.img.table.resolve 2 (path.names.dropLast.take maxPathComponents) with
    | error e => exact bind_err (hrun.trans (by rw [hr]; rfl))
    | ok p => exact bind_ok (hrun.trans (by rw [hr]; rfl))

/-- The common beginning of `fs_unlink` and `fs_rmdir`. -/
theorem FsState.Walks.oldLeaf_run {α : Type} (hdir : s.img.table.ParentDir path)
    (f : ℕ → FsInode → DirBlock → Fin 128 → FsM α) :
    (do
      let (parent, leaf) ← lookupParent path.bytes
      let parentInode ← readInode parent
      let dir ← readDir (parentInode.ptrs 0)
      match dir.find (·.named leaf) with
      | none => err .ENOENT
      | some k => f parent parentInode dir k).run s =
    match s.img.table.oldLeaf path with
    | .error e => (.err e, s)
    | .ok (p, k) => (f p (s.img.table.inode p) (s.img.table.dir p) k).run s := by
  have hrun := hw.lookupParent_run path
  rw [Table.oldLeaf]
  cases hp : s.img.table.lookupParent path with
  | error e => exact bind_err (hrun.trans (by rw [hp]; rfl))
  | ok pl =>
    obtain ⟨p, leaf⟩ := pl
    have hlive := hw.of_walk hw.root (Table.lookupParent_eq_ok.1 hp).2
    rw [hp] at hrun
    refine (bind_ok hrun).trans ((bind_ok (hw.readInode_run hlive)).trans
      ((bind_ok (hw.readDir_run hlive (hdir p leaf hp))).trans ?_))
    simp only []
    cases (s.img.table.dir p).find (·.named leaf) <;> rfl

end Walks

/-- The objects that an entry of a path is about. -/
theorem FsState.Walks.oldLeaf_mem {P : ℕ → Prop} (hw : s.Walks P) {path : FsPath}
    (hdir : s.img.table.ParentDir path) {p : ℕ} {k : Fin 128}
    (hl : s.img.table.oldLeaf path = .ok (p, k)) :
    P p ∧ (s.img.table.inode p).isDir = true ∧ (s.img.table.dir p k).valid = true ∧
      P (s.img.table.dir p k).inode := by
  obtain ⟨leaf, hp, hk⟩ := Table.oldLeaf_eq_ok.1 hl
  have hlive := hw.of_walk hw.root (Table.lookupParent_eq_ok.1 hp).2
  have hd := hdir p leaf hp
  have hv := (FsDirent.named_iff.1 (DirBlock.of_find_eq_some hk)).1
  exact ⟨hlive, hd, hv, hw.child hlive hd hv⟩

theorem translate_run (h : s.WF) (path : FsPath) :
    (translate path.bytes).run s = (.ofExcept (s.img.table.translate path), s) :=
  h.walks.translate_run path

theorem lookupParent_run (h : s.WF) (path : FsPath) :
    (lookupParent path.bytes).run s = (.ofExcept (s.img.table.lookupParent path), s) :=
  h.walks.lookupParent_run path

section Continue

variable {α : Type} (h : s.WF) (path : FsPath)
include h

/-- The common beginning of `fs_create` and `fs_mkdir`. -/
theorem newLeaf_run (f : ℕ → List UInt8 → FsInode → DirBlock → FsM α) :
    (do
      let (parent, leaf) ← lookupParent path.bytes
      let parentInode ← readInode parent
      failIf (!parentInode.isDir) .ENOTDIR
      let dir ← readDir (parentInode.ptrs 0)
      failIf (dir.find (·.named leaf)).isSome .EEXIST
      f parent leaf parentInode dir).run s =
    match s.img.table.newLeaf path with
    | .error e => (.err e, s)
    | .ok (p, leaf) => (f p leaf (s.img.table.inode p) (s.img.table.dir p)).run s := by
  have hrun := lookupParent_run h path
  rw [Table.newLeaf]
  cases hp : s.img.table.lookupParent path with
  | error e => exact bind_err (hrun.trans (by rw [hp]; rfl))
  | ok pl =>
    obtain ⟨p, leaf⟩ := pl
    have hlive := h.img.table.live_of_lookupParent hp
    rw [hp] at hrun
    refine (bind_ok hrun).trans ((bind_ok (readInode_run h hlive)).trans ?_)
    by_cases hd : (s.img.table.inode p).isDir = true
    · rw [bind_failIf_false (by rw [hd]; rfl), bind_ok (readDir_run h hlive hd)]
      simp only [hd, if_true]
      cases hk : ((s.img.table.dir p).find (·.named leaf)).isSome with
      | true => exact bind_failIf_true rfl
      | false => exact bind_failIf_false rfl
    · simp only [hd]
      exact bind_failIf_true rfl

/-- The common beginning of the operations on the contents of files. -/
theorem regular_run (f : ℕ → FsInode → FsM α) :
    (do
      let inum ← translate path.bytes
      let x ← readInode inum
      failIf (!x.isReg) .EISDIR
      f inum x).run s =
    match s.img.table.regular path with
    | .error e => (.err e, s)
    | .ok i => (f i (s.img.table.inode i)).run s := by
  have hrun := translate_run h path
  rw [Table.regular]
  cases hp : s.img.table.translate path with
  | error e => exact bind_err (hrun.trans (by rw [hp]; rfl))
  | ok i =>
    have hlive := h.img.table.live_of_translate hp
    rw [hp] at hrun
    refine (bind_ok hrun).trans ((bind_ok (readInode_run h hlive)).trans ?_)
    by_cases hr : (s.img.table.inode i).isReg = true
    · simp only [hr, if_true]
      exact bind_failIf_false rfl
    · simp only [hr]
      exact bind_failIf_true rfl

end Continue

/-! ## Listings -/

/-- A filler that never stops the listing is called for the valid entries, in their order. -/
theorem readdirLoop_run {dir : DirBlock} {st : Fin 128 → Stat}
    (hst : ∀ k, (dir k).valid = true → ∃ x, (readInode (dir k).inode).run s = (.ok x, s) ∧
      (inodeToStat x).run s = (.ok (st k), s)) (calls : Calls) (ks : List (Fin 128)) :
    (readdirLoop dir (fun _ => false) calls ks).run s =
      (.ok (calls ++ (ks.filter fun k => (dir k).valid).map fun k => (cstr (dir k).name, st k)), s) := by
  induction ks generalizing calls with
  | nil =>
    rw [List.filter_nil, List.map_nil, List.append_nil]
    rfl
  | cons k ks ih =>
    rw [readdirLoop]
    by_cases hv : (dir k).valid = true
    · obtain ⟨x, hx, hxst⟩ := hst k hv
      rw [if_pos hv, bind_ok (attempt_ok hx), List.filter_cons_of_pos (p := fun k => (dir k).valid) hv,
        List.map_cons, List.append_cons]
      exact (bind_ok hxst).trans (ih _)
    · rw [if_neg hv, ih, List.filter_cons_of_neg (p := fun k => (dir k).valid) hv]

end Cs5600
