import Cs5600.Accounting

/-!
# Failed calls

A call that fails should leave everything as it was. But the calls that need
blocks allocate them one by one, and do not free those they have when there are
no more. Besides, `fs_create` and `fs_mkdir` only look for a free entry after
they have allocated their blocks, and do not free them if the directory is full.
These blocks stay marked in the bitmap, although no object refers to them
(`Image.Wastes`, `Image.WritesShort`). In all other cases a failed call has not
changed anything (`undone_iff`, `allOrNothing_write_iff`).
-/

namespace Cs5600

open Table FsM

/-- The bitmap and its copy, the reachable inodes and the directories are the same. -/
structure FsState.Untouched (s s' : FsState) : Prop where
  disk : s'.img.block 1 = s.img.block 1
  bitmap : s'.bitmap = s.bitmap
  inode : ∀ {i}, s.img.table.Live i → s'.img.block i = s.img.block i
  dir : ∀ {i}, s.img.table.Live i → (s.img.table.inode i).isDir = true →
    s'.img.block (s.img.dirPtr i) = s.img.block (s.img.dirPtr i)

/-- The call leaves everything as it was, if it fails, and does not take blocks however often it
    is repeated. -/
def Op.Undone (s : FsState) (op : Op) : Prop :=
  ∀ (env : Env) (e : Errno) (s' : FsState), (op.exec env).run s = (.err e, s') →
    s.Untouched s' ∧
      ∀ envs : List Env, s.bfree ≤ (envs.foldl (fun t env => ((op.exec env).run t).2) s).bfree

/-- The calls that add an object, with its path and the number of its blocks. -/
inductive Op.Adds : Op → FsPath → ℕ → Prop
  | create {path : FsPath} {mode : UInt32} : Adds (.create path mode) path 1
  | mkdir {path : FsPath} {mode : UInt32} : Adds (.mkdir path mode) path 2

namespace Image

/-- A new object could have the path, and either there are some free blocks but not enough, or there
    are enough but the directory has no free entry. -/
def Wastes (img : Image) (path : FsPath) (need : ℕ) : Prop :=
  ∃ p leaf, img.table.newLeaf path = .ok (p, leaf) ∧
    (img.free ≠ [] ∧ img.free.length < need ∨
      need ≤ img.free.length ∧ (img.table.dir p).find (!·.valid) = none)

/-- A file could be written, but there are only some of the blocks it needs for that. -/
def WritesShort (img : Image) (path : FsPath) (o len : ℕ) : Prop :=
  ∃ i, img.table.writable path o = .ok i ∧ img.free ≠ [] ∧
    img.free.length < blocksFor (o + len) - (img.table.inode i).nptrs

/-- Marking free blocks changes the bitmap. -/
theorem WF.bitmap_fresh_ne {img : Image} (h : img.WF) {bs : List ℕ} (ws : List Write)
    (hbs : bs <+: img.free) (hw : ∀ w ∈ ws, w.lba ∈ bs) (hne : bs ≠ []) :
    (img.puts (bitWrites bitSet (img.block 1) bs ++ ws)).block 1 ≠ img.block 1 := by
  obtain ⟨b, hb⟩ := List.exists_mem_of_ne_nil bs hne
  intro he
  have hclear := (mem_freeBlocks.1 (hbs.subset hb)).2.2
  have hset := (marked_fresh h hbs hw hb).2.2.1
  rw [table_marked, he, hclear] at hset
  cases hset

section NewEnds

variable {img : Image} {path : FsPath} {need : ℕ} {init : List ℕ → List Write} {r : Res Unit}
  {ws : List Write}

/-- When blocks are wasted, the call fails and has marked some. -/
theorem NewEnds.fresh (he : img.NewEnds path need init r ws) (hpos : 0 < need)
    (hw : img.Wastes path need) : r = .err .ENOSPC ∧ ∃ bs vs, bs ≠ [] ∧ bs <+: img.free ∧
      ws = bitWrites bitSet (img.block 1) bs ++ vs ∧ (vs = [] ∨ vs = init bs) := by
  obtain ⟨p, leaf, hl, hw⟩ := hw
  cases he with
  | refused hl' => cases hl.symm.trans hl'
  | noBlocks _ hf =>
    have hne : img.free ≠ [] := hw.elim (·.1) fun h => absurd hf (not_lt.2 h.1)
    exact ⟨rfl, _, [], hne, List.prefix_rfl, (List.append_nil _).symm, .inl rfl⟩
  | noEntry _ hlen hbs =>
    refine ⟨rfl, _, _, fun he => ?_, hbs, rfl, .inr rfl⟩
    rw [he, List.length_nil] at hlen
    omega
  | done hl' hlen hbs hk =>
    obtain ⟨rfl, rfl⟩ := Prod.mk.inj (Except.ok.inj (hl.symm.trans hl'))
    have hle := hbs.length_le
    rcases hw with ⟨_, hlt⟩ | ⟨_, hnone⟩
    · omega
    · cases hnone.symm.trans hk

/-- When no blocks are wasted, a call that fails has not written anything. -/
theorem NewEnds.nothing {e : Errno} (he : img.NewEnds path need init (.err e) ws)
    (hw : ¬img.Wastes path need) (init' : List ℕ → List Write) :
    img.NewEnds path need init' (.err e) [] := by
  cases he with
  | refused hl => exact .refused hl
  | @noBlocks p leaf hl hf =>
    have hnil : img.free = [] := by
      by_contra hne
      exact hw ⟨p, leaf, hl, .inl ⟨hne, hf⟩⟩
    have hend : img.NewEnds path need init' _ _ := .noBlocks hl hf
    rwa [hnil] at hend
  | @noEntry p leaf bs hl hlen hbs hk =>
    have hle := hbs.length_le
    exact absurd ⟨p, leaf, hl, .inr ⟨by omega, hk⟩⟩ hw

end NewEnds

end Image

section Calls

variable {s : FsState} {path : FsPath} {need : ℕ} {op : Op}

theorem Op.Adds.pos (ha : op.Adds path need) : 0 < need := by
  cases ha <;> decide

/-- How a call ends that adds an object. -/
theorem Op.Adds.run (ha : op.Adds path need) (h : s.WF) (env : Env) :
    ∃ init : List ℕ → List Write, (∀ bs, ∀ w ∈ init bs, w.lba ∈ bs) ∧
      ∀ r ws, s.img.NewEnds path need init r ws →
        (op.exec env).run s = (r.map fun _ => .done, s.wrote ws) := by
  cases ha with
  | @create _ mode =>
    exact ⟨newFile env mode, Image.lba_newFile env mode,
      fun _ _ he => map_run _ (fsCreate_run h he)⟩
  | @mkdir _ mode =>
    exact ⟨newDir env mode, Image.lba_newDir env mode, fun _ _ he => map_run _ (fsMkdir_run h he)⟩

theorem FsState.Untouched.refl (s : FsState) : s.Untouched s :=
  ⟨rfl, rfl, fun _ => rfl, fun _ _ => rfl⟩

/-- A call that does not change the state, whenever it is made, leaves everything as it was. -/
theorem foldl_exec_eq (hs : ∀ env, ((op.exec env).run s).2 = s) (envs : List Env) :
    envs.foldl (fun t env => ((op.exec env).run t).2) s = s := by
  induction envs with
  | nil => rfl
  | cons env envs ih => rw [List.foldl_cons, hs, ih]

/-- A call that wastes blocks fails, but is not undone. -/
theorem Op.Adds.not_undone (ha : op.Adds path need) (h : s.WF) (hw : s.img.Wastes path need) :
    ¬op.Undone s := by
  intro hun
  obtain ⟨init, hinit, hrun⟩ := ha.run h ⟨0, 0, 0⟩
  obtain ⟨r, ws, he⟩ := s.img.exists_newEnds path need init
  obtain ⟨rfl, bs, vs, hne, hbs, rfl, hvs⟩ := he.fresh ha.pos hw
  have hvs' : ∀ w ∈ vs, w.lba ∈ bs := by
    rcases hvs with rfl | rfl
    · exact fun w hw => absurd hw List.not_mem_nil
    · exact hinit bs
  exact h.img.bitmap_fresh_ne _ hbs hvs' hne (hun _ _ _ (hrun _ _ he)).1.disk

/-- `fs_create` and `fs_mkdir` leave everything as it was when they fail, unless they waste
    blocks. -/
theorem undone_iff (h : s.WF) (ha : op.Adds path need) :
    op.Undone s ↔ ¬s.img.Wastes path need := by
  refine ⟨fun hun hw => ha.not_undone h hw hun, fun hw env e s' hfail => ?_⟩
  obtain ⟨init, _, hrun⟩ := ha.run h env
  obtain ⟨r, ws, he⟩ := s.img.exists_newEnds path need init
  have hend := (hrun r ws he).symm.trans hfail
  cases r with
  | ok => cases (Prod.mk.inj hend).1
  | fault => cases (Prod.mk.inj hend).1
  | err e' =>
    -- The same call fails in the same way in any surroundings, and never writes.
    have hsame : ∀ env, ((op.exec env).run s).2 = s := by
      intro env
      obtain ⟨init', _, hrun'⟩ := ha.run h env
      rw [hrun' _ _ (he.nothing hw init')]
      exact h.mounted.wrote_nil
    have hs' : s' = s := by rw [← hsame env, hfail]
    refine ⟨hs' ▸ .refl s, fun envs => ?_⟩
    rw [foldl_exec_eq hsame]

/-- An empty file system with one free block. -/
def oneFree : FsState := .mount (.format 5)

theorem wf_oneFree : oneFree.WF := FsState.mount_wf (Image.format_wf (by decide) (by decide))

/-- A file is created that exists. -/
theorem undone_create : (Op.create pathA 0o100644).Undone fileA :=
  (undone_iff wf_fileA .create).2 fun ⟨_, _, hl, _⟩ =>
    nomatch (rfl : fileA.img.table.newLeaf pathA = .error .EEXIST).symm.trans hl

/-- There is a single free block for the two of a directory. -/
theorem not_undone_mkdir : oneFree.WF ∧ ¬(Op.mkdir pathA 0o755).Undone oneFree :=
  ⟨wf_oneFree, Op.Adds.mkdir.not_undone wf_oneFree
    ⟨2, [97], rfl, .inl ⟨by decide, by decide⟩⟩⟩

end Calls

/-! ## Writes -/

/-- The call leaves the disk and the copy of the bitmap as they were, if it fails. -/
def Op.AllOrNothing (s : FsState) (op : Op) : Prop :=
  ∀ (env : Env) (e : Errno) (s' : FsState), (op.exec env).run s = (.err e, s') →
    s'.img = s.img ∧ s'.bitmap = s.bitmap

section Writes

variable {s : FsState} {path : FsPath} {buf : List UInt8} {offset : ℤ}

/-- A write that is short of blocks fails, and has marked those that there were. -/
theorem not_allOrNothing_write (h : s.WF) (hop : (Op.write path buf offset).Ok s.img)
    (hw : s.img.WritesShort path offset.toNat buf.length) :
    ¬(Op.write path buf offset).AllOrNothing s := by
  obtain ⟨o, rfl⟩ := Int.eq_ofNat_of_zero_le hop.1
  obtain ⟨i, hi, hne, hlt⟩ := hw
  intro hall
  have hends : (Op.write path buf o).Ends ⟨0, 0, 0⟩ s.img _ _ := .write (.noSpace hi hlt)
  have hrun := exec_run h hop hends
  refine h.img.bitmap_fresh_ne [] List.prefix_rfl (fun w hw => nomatch hw) hne ?_
  rw [List.append_nil]
  exact (hall _ _ _ hrun).2.trans h.bitmap

/-- `fs_write` leaves everything as it was when it fails, unless there are some but not enough free
    blocks for it. -/
theorem allOrNothing_write_iff (h : s.WF)
    (hop : 0 ≤ offset ∧ offset + buf.length ≤ 1019 * 4096) :
    (Op.write path buf offset).AllOrNothing s ↔
      ¬s.img.WritesShort path offset.toNat buf.length := by
  refine ⟨fun hall hw => not_allOrNothing_write h hop hw hall, fun hw env e s' hfail => ?_⟩
  obtain ⟨o, rfl⟩ := Int.eq_ofNat_of_zero_le hop.1
  obtain ⟨r, ws, he⟩ := s.img.exists_writeEnds env path buf o
  have hend := (exec_run h (show (Op.write path buf o).Ok s.img from hop) (.write he)).symm.trans hfail
  suffices hws : ws = [] by
    obtain ⟨_, rfl⟩ := Prod.mk.inj hend
    rw [hws, h.mounted.wrote_nil]
    exact ⟨rfl, rfl⟩
  cases he with
  | refused => rfl
  | @noSpace i hi hlt =>
    have hnil : s.img.free = [] := by
      by_contra hne
      exact hw ⟨i, hi, hne, hlt⟩
    rw [hnil]
    rfl
  | done => cases (Prod.mk.inj hend).1

/-- A byte is written beyond the end of an empty file. -/
theorem allOrNothing_write_fileA : (Op.write pathA [120] 1).AllOrNothing fileA :=
  (allOrNothing_write_iff wf_fileA ⟨by decide, by decide⟩).2 fun ⟨_, hi, _⟩ =>
    nomatch (rfl : fileA.img.table.writable pathA 1 = .error .EINVAL).symm.trans hi

/-- The file system of six blocks with an empty file, and one free block. -/
def fileOneFree : FsState :=
  (((Op.create pathA 0o100644).exec ⟨500, 500, 0⟩).run (.mount (.format 6))).2

theorem wf_fileOneFree : fileOneFree.WF :=
  exec_wf (FsState.mount_wf (Image.format_wf (by decide) (by decide))) _ (show RegMode _ from rfl)

/-- More than a block is written to an empty file, when there is one free block. -/
theorem not_allOrNothing_fileOneFree : fileOneFree.WF ∧
    ¬(Op.write pathA (List.replicate 4097 120) 0).AllOrNothing fileOneFree := by
  refine ⟨wf_fileOneFree, not_allOrNothing_write wf_fileOneFree ?_ ⟨4, rfl, by decide, ?_⟩⟩
  · refine ⟨le_rfl, ?_⟩
    rw [List.length_replicate]
    decide
  · rw [List.length_replicate]
    decide

end Writes

end Cs5600
