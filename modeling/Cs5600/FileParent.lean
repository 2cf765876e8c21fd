import Cs5600.Crash

/-!
# Paths below a file

For a path whose parent is a file (`Image.BelowFile`), an operation on names
should return `ENOTDIR`, as the header of `homework.c` says. `fs_create` and
`fs_mkdir` check that the parent is a directory. The other operations do not:
they read the block of the first pointer of the file as directory entries.

Of these, `fs_unlink` and `fs_rename` never return `ENOTDIR`, and `fs_rmdir`
does so only if it finds, among these entries, one with the name it looks for
that names the inode of something that is not a directory (`notDir_iff`).
-/

namespace Cs5600

open LabelledGraph Table FsM

/-! ## Errors that are not returned -/

/-- The call does not return a given error. -/
def FsM.Avoids {α : Type} (e : Errno) (x : FsM α) : Prop := ∀ s, (x.run s).1 ≠ .err e

section Avoids

variable {α β : Type} {e : Errno} {x : FsM α}

theorem avoids_pure (a : α) : (pure a : FsM α).Avoids e := fun _ => nofun

theorem avoids_err {e' : Errno} (h : e' ≠ e) : (err e' : FsM α).Avoids e :=
  fun _ he => h (Res.err.inj he)

theorem avoids_fault (t : Fault) : (fault t : FsM α).Avoids e := fun _ => nofun

theorem avoids_get : FsM.get.Avoids e := fun _ => nofun

theorem avoids_modify (f : FsState → FsState) : (FsM.modify f).Avoids e := fun _ => nofun

theorem FsM.Avoids.bind {f : α → FsM β} (hx : x.Avoids e) (hf : ∀ a, (f a).Avoids e) :
    (x >>= f).Avoids e := by
  intro s
  have hs := hx s
  rw [bind_run]
  rcases hrun : x.run s with ⟨r, s'⟩
  rw [hrun] at hs
  cases r with
  | ok a => exact hf a s'
  | err e' => exact fun he => hs (congrArg Res.err (Res.err.inj he))
  | fault t => exact nofun

theorem avoids_failIf {e' : Errno} (c : Bool) (h : e' ≠ e) : (failIf c e').Avoids e := by
  rw [failIf]
  split_ifs
  · exact avoids_err h
  · exact avoids_pure ()

theorem avoids_blockRead (b : ℤ) (h : Errno.EIO ≠ e) : (blockRead b).Avoids e := by
  intro s
  simp only [blockRead]
  split_ifs
  · simp
  · simp
  · exact fun he => h (Res.err.inj he)

theorem avoids_blockWrite (b : ℤ) (data : Block) : (blockWrite b data).Avoids e := by
  intro s
  simp only [blockWrite]
  split_ifs <;> simp

theorem avoids_readInode (i : ℕ) (h : Errno.EIO ≠ e) : (readInode i).Avoids e :=
  (avoids_blockRead i h).bind fun _ => avoids_pure _

theorem avoids_readDir (p : UInt32) (h : Errno.EIO ≠ e) : (readDir p).Avoids e :=
  (avoids_blockRead _ h).bind fun _ => avoids_pure _

theorem avoids_freeBlock (b : ℤ) : (freeBlock b).Avoids e := by
  refine avoids_get.bind fun s => ?_
  split_ifs
  · exact avoids_fault _
  · exact (avoids_modify _).bind fun _ => avoids_blockWrite _ _

theorem avoids_ptr (x : FsInode) (i : ℤ) : (x.ptr i).Avoids e := by
  rw [FsInode.ptr]
  split_ifs
  · exact avoids_pure _
  · exact avoids_fault _

theorem avoids_nblocksOf (size : Int32) : (nblocksOf size).Avoids e := by
  rw [nblocksOf]
  split_ifs
  · exact avoids_fault _
  · exact avoids_pure _

theorem avoids_freePtrs (x : FsInode) (is : List ℕ) : (freePtrs x is).Avoids e := by
  induction is with
  | nil => exact avoids_pure ()
  | cons i is ih =>
    exact (avoids_ptr _ _).bind fun _ => (avoids_freeBlock _).bind fun _ => ih

/-- What follows a call that ends without a value does not matter. -/
theorem bind_ne {s : FsState} {f : α → FsM β} (hx : ∀ a, (x.run s).1 ≠ .ok a) :
    (∀ b, ((x >>= f).run s).1 ≠ .ok b) ∧ (x.Avoids e → ((x >>= f).run s).1 ≠ .err e) := by
  rw [bind_run]
  rcases hrun : x.run s with ⟨r, s'⟩
  rw [hrun] at hx
  cases r with
  | ok a => exact absurd rfl (hx a)
  | err e' =>
    refine ⟨fun _ => nofun, fun he heq => he s ?_⟩
    rw [hrun]
    exact congrArg Res.err (Res.err.inj heq)
  | fault t => exact ⟨fun _ => nofun, fun _ => nofun⟩

theorem map_run_eq_err {s s' : FsState} {f : α → β} :
    (f <$> x).run s = (.err e, s') ↔ x.run s = (.err e, s') := by
  rcases hrun : x.run s with ⟨r, t⟩
  rw [map_run f hrun]
  cases r <;> simp [Res.map]

/-- A block outside the disk cannot be read. -/
theorem blockRead_ne_ok {s : FsState} {b : ℤ} (hb : ¬(0 ≤ b ∧ b < s.img.nblocks)) (r : Block) :
    ((blockRead b).run s).1 ≠ .ok r := by
  simp only [blockRead]
  split_ifs <;> simp

theorem readInode_ne_ok {s : FsState} {i : ℕ} (hi : ¬i < s.img.nblocks) (r : FsInode) :
    ((readInode i).run s).1 ≠ .ok r :=
  (bind_ne (e := Errno.EIO) (blockRead_ne_ok (by omega))).1 r

theorem readDir_ne_ok {s : FsState} {p : UInt32} (hp : ¬p.toNat < s.img.nblocks) (r : DirBlock) :
    ((readDir p).run s).1 ≠ .ok r := by
  refine (bind_ne (e := Errno.EIO) (blockRead_ne_ok fun hb => hp ?_)).1 r
  have hp := BitVec.toInt_eq_toNat_cond p.toInt32.toBitVec
  rw [UInt32.toBitVec_toInt32] at hp
  have hcint : cint p = p.toBitVec.toInt := rfl
  have hnat : p.toNat = p.toBitVec.toNat := rfl
  have hlt := p.toNat_lt
  rw [hcint, hp] at hb
  split_ifs at hb <;> omega

end Avoids

/-! ## Below a file -/

namespace Image

/-- A path of two to ten names whose parent is a file. -/
structure BelowFile (img : Image) (path : FsPath) : Prop where
  two_le : 2 ≤ path.names.length
  length_le : path.names.length ≤ maxPathComponents
  parent : ∃ a c, img.tree path.names.dropLast = some (.file a c)

/-- The block of the first pointer of an inode, read as directory entries, has an entry of this
    name whose inode is not that of a directory. -/
def FindsFile (img : Image) (p : ℕ) (leaf : List UInt8) : Prop :=
  ((img.table.inode p).ptrs 0).toNat < img.nblocks ∧
    ∃ k, (img.table.dir p).find (·.named leaf) = some k ∧
      (img.table.dir p k).inode.1 < img.nblocks ∧
      (img.table.inode (img.table.dir p k).inode).isDir = false

end Image

/-- The calls that take a name in the directory of `path`. A destination is to have the same
    parent. -/
inductive Op.Names (path : FsPath) : Op → Prop
  | create (mode : UInt32) : Names path (.create path mode)
  | mkdir (mode : UInt32) : Names path (.mkdir path mode)
  | unlink : Names path (.unlink path)
  | rmdir : Names path (.rmdir path)
  | rename {dst : FsPath} : dst.names.dropLast = path.names.dropLast → Names path (.rename path dst)

section BelowFile

variable {s : FsState} (h : s.WF) {path : FsPath}
include h

theorem Image.BelowFile.lookup (hp : s.img.BelowFile path) : ∃ p leaf,
    s.img.table.lookupParent path = .ok (p, leaf) ∧ s.img.table.Live p ∧
      (s.img.table.inode p).isDir = false ∧ path.names.getLast? = some leaf ∧
      walk s.img.table.children 2 path.names.dropLast = some p := by
  obtain ⟨a, c, hn⟩ := hp.parent
  obtain ⟨p, hw, hn⟩ := Option.map_eq_some_iff.1 hn
  have hne : path.names ≠ [] := fun he => by
    have := hp.two_le
    rw [he] at this
    cases this
  have hlen : path.names.dropLast.length ≤ maxPathComponents := by
    rw [List.length_dropLast]
    exact (Nat.sub_le _ _).trans hp.length_le
  have hlast := List.getLast?_eq_some_getLast hne
  refine ⟨p, _, ?_, h.img.table.live_of_walk hw, ?_, hlast, hw⟩
  · rw [lookupParent_eq_ok, List.take_of_length_le hlen]
    exact ⟨hlast, hw⟩
  · by_contra hd
    rw [Image.node_eq_dir (by simpa using hd)] at hn
    cases hn

/-- Below a file, nothing is created. -/
theorem newLeaf_notDir (hp : s.img.BelowFile path) :
    s.img.table.newLeaf path = .error .ENOTDIR := by
  obtain ⟨p, leaf, hl, _, hd, _⟩ := hp.lookup h
  rw [Table.newLeaf, hl]
  simp only [hd, Bool.false_eq_true, if_false]

theorem fsUnlink_ne_notDir (hp : s.img.BelowFile path) :
    ((fsUnlink path.bytes).run s).1 ≠ .err .ENOTDIR := by
  obtain ⟨p, leaf, hl, hlive, _⟩ := hp.lookup h
  rw [fsUnlink, bind_ok ((lookupParent_run h path).trans (by rw [hl]; rfl))]
  simp only []
  rw [bind_ok (readInode_run h hlive)]
  refine (avoids_readDir (e := .ENOTDIR) _ (by decide)).bind (fun dir => ?_) s
  split
  · exact avoids_err (by decide)
  · exact (avoids_readInode _ (by decide)).bind fun x => (avoids_failIf _ (by decide)).bind fun _ =>
      (avoids_blockWrite _ _).bind fun _ => (avoids_freeBlock _).bind fun _ =>
        (avoids_nblocksOf _).bind fun _ => avoids_freePtrs _ _

theorem fsRename_ne_notDir (hp : s.img.BelowFile path) {dst : FsPath}
    (hd : dst.names.dropLast = path.names.dropLast) :
    ((fsRename path.bytes dst.bytes).run s).1 ≠ .err .ENOTDIR := by
  obtain ⟨p, leaf, hl, hlive, _, _, hw⟩ := hp.lookup h
  -- Both paths lead to the file, and what it has for entries is not checked.
  have hl' : ∃ leaf', s.img.table.lookupParent dst = .ok (p, leaf') := by
    have hne : dst.names ≠ [] := fun he => by
      have hlen : 0 = path.names.length - 1 := by
        rw [← List.length_dropLast, ← hd, he]
        rfl
      have := hp.two_le
      omega
    refine ⟨_, lookupParent_eq_ok.2 ⟨List.getLast?_eq_some_getLast hne, ?_⟩⟩
    rw [hd]
    exact (lookupParent_eq_ok.1 hl).2
  obtain ⟨leaf', hl'⟩ := hl'
  rw [fsRename, bind_ok ((lookupParent_run h path).trans (by rw [hl]; rfl))]
  simp only []
  rw [bind_ok ((lookupParent_run h dst).trans (by rw [hl']; rfl))]
  simp only []
  rw [bind_failIf_false (by simp), bind_ok (readInode_run h hlive)]
  refine (avoids_readDir (e := .ENOTDIR) _ (by decide)).bind (fun dir => ?_) s
  refine (avoids_failIf _ (by decide)).bind fun _ => ?_
  split
  · exact avoids_err (by decide)
  · exact avoids_blockWrite _ _

/-- `fs_rmdir` returns `ENOTDIR` only for the entry of something that is not a directory. -/
theorem fsRmdir_notDir_iff {p : ℕ} {leaf : List UInt8}
    (hl : s.img.table.lookupParent path = .ok (p, leaf)) :
    (fsRmdir path.bytes).run s = (.err .ENOTDIR, s) ↔ s.img.FindsFile p leaf := by
  have hlive := h.img.table.live_of_lookupParent hl
  have hcap := h.mounted.le_cap
  rw [fsRmdir, bind_ok ((lookupParent_run h path).trans (by rw [hl]; rfl))]
  simp only []
  rw [bind_ok (readInode_run h hlive), Image.FindsFile]
  -- Reading the entries, in or outside the disk.
  by_cases hptr : ((s.img.table.inode p).ptrs 0).toNat < s.img.nblocks
  · have hdir : (readDir ((s.img.table.inode p).ptrs 0)).run s = (.ok (s.img.table.dir p), s) := by
      rw [readDir, cint_of_lt (by omega), bind_ok (h.mounted.blockRead hptr)]
      rfl
    rw [bind_ok hdir, and_iff_right hptr]
    cases hk : (s.img.table.dir p).find (·.named leaf) with
    | none => exact iff_of_false (fun he => by cases (Prod.mk.inj he).1) (by simp)
    | some k =>
      simp only [Option.some.injEq, exists_eq_left']
      by_cases hi : (s.img.table.dir p k).inode.1 < s.img.nblocks
      · have hinode : (readInode (s.img.table.dir p k).inode).run s =
            (.ok (s.img.table.inode (s.img.table.dir p k).inode), s) := by
          rw [readInode, bind_ok (h.mounted.blockRead hi)]
          rfl
        rw [bind_ok hinode, and_iff_right hi]
        cases hd : (s.img.table.inode (s.img.table.dir p k).inode).isDir with
        | false => exact iff_of_true (bind_failIf_true rfl) rfl
        | true =>
          rw [bind_failIf_false (by rfl)]
          refine iff_of_false (fun he => ?_) (by simp)
          refine (avoids_readDir (e := .ENOTDIR) _ (by decide)).bind (fun dir => ?_) s
            (congrArg Prod.fst he)
          exact (avoids_failIf _ (by decide)).bind fun _ => (avoids_blockWrite _ _).bind fun _ =>
            (avoids_freeBlock _).bind fun _ => avoids_freeBlock _
      · refine iff_of_false (fun he => ?_) fun he => hi he.1
        exact (bind_ne (readInode_ne_ok hi)).2 (avoids_readInode _ (by decide))
          (congrArg Prod.fst he)
  · refine iff_of_false (fun he => ?_) fun he => hptr he.1
    exact (bind_ne (readDir_ne_ok hptr)).2 (avoids_readDir _ (by decide)) (congrArg Prod.fst he)

end BelowFile

/-- What a call finds out about the parent, when the parent is a file: `fs_create` and `fs_mkdir` check
    it, and `fs_rmdir` may find that what it is to remove is no directory. -/
def Op.Refuses (img : Image) : Op → Prop
  | create _ _ | mkdir _ _ => True
  | rmdir path => ∃ p leaf, img.table.lookupParent path = .ok (p, leaf) ∧ img.FindsFile p leaf
  | _ => False

/-- Below a file, a call returns `ENOTDIR` and changes nothing if it is one of `fs_create` or `fs_mkdir`,
    or one of `fs_rmdir` that takes a part of the disk for an entry of something else than a
    directory, and only then. -/
theorem notDir_iff {s : FsState} (h : s.WF) (env : Env) {path : FsPath} (hp : s.img.BelowFile path)
    {op : Op} (hop : op.Names path) :
    (op.exec env).run s = (.err .ENOTDIR, s) ↔ op.Refuses s.img := by
  have hnew := newLeaf_notDir h hp
  cases hop with
  | create mode =>
    have he : s.img.NewEnds path 1 (newFile env mode) _ [] := .refused hnew
    refine iff_of_true (map_run_eq_err.2 ((fsCreate_run h he).trans ?_)) trivial
    rw [h.mounted.wrote_nil]
  | mkdir mode =>
    have he : s.img.NewEnds path 2 (newDir env mode) _ [] := .refused hnew
    refine iff_of_true (map_run_eq_err.2 ((fsMkdir_run h he).trans ?_)) trivial
    rw [h.mounted.wrote_nil]
  | unlink =>
    exact iff_of_false
      (fun he => fsUnlink_ne_notDir h hp (congrArg Prod.fst (map_run_eq_err.1 he))) id
  | rmdir =>
    obtain ⟨p, leaf, hl, _⟩ := hp.lookup h
    refine (map_run_eq_err.trans (fsRmdir_notDir_iff h hl)).trans
      ⟨fun hf => ⟨p, leaf, hl, hf⟩, ?_⟩
    rintro ⟨p', leaf', hl', hf⟩
    obtain ⟨rfl, rfl⟩ := Prod.mk.inj (Except.ok.inj (hl.symm.trans hl'))
    exact hf
  | rename hd =>
    exact iff_of_false
      (fun he => fsRename_ne_notDir h hp hd (congrArg Prod.fst (map_run_eq_err.1 he))) id

/-- The path `/a/b`. -/
def pathAB : FsPath := ⟨[slash, 97, slash, 98], rfl, by decide, by decide⟩

theorem belowFile_pathAB : fileA.img.BelowFile pathAB := ⟨by decide, by decide, _, _, rfl⟩

/-- `fs_create` refuses a path below a file. -/
theorem notDir_create : ((Op.create pathAB 0o100644).exec ⟨500, 500, 0⟩).run fileA =
    (.err .ENOTDIR, fileA) :=
  (notDir_iff wf_fileA ⟨500, 500, 0⟩ belowFile_pathAB (.create 0o100644)).2 trivial

/-- `fs_unlink` does not refuse it: it looks for the name in the superblock. -/
theorem unlink_not_refused : fileA.WF ∧ fileA.img.BelowFile pathAB ∧
    ((Op.unlink pathAB).exec ⟨500, 500, 0⟩).run fileA ≠ (.err .ENOTDIR, fileA) :=
  ⟨wf_fileA, belowFile_pathAB, fun he => fsUnlink_ne_notDir wf_fileA belowFile_pathAB
    (congrArg Prod.fst (map_run_eq_err.1 he))⟩

end Cs5600
