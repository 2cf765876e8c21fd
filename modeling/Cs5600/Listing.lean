import Cs5600.Resolution

/-!
# Listings and attributes

`fs_readdir` goes through the entries of a directory, and `fs_getattr` looks up one name after
walking there again. In a well-formed state they agree: the names listed are those that have
attributes, each listed once and with these attributes (`readdir_agrees`). Both do without
entries that are not valid, and the names of the others are distinct.
-/

namespace Cs5600

open LabelledGraph FsM Table

/-- Directories are of one block. -/
def Image.OneBlockDirs (img : Image) : Prop :=
  ∀ {i}, img.table.Live i → (img.table.inode i).isDir = true → (img.table.inode i).size.toInt ≤ 4096

/-- The attributes that an inode has. -/
def FsInode.stat (x : FsInode) : Stat where
  mode := x.mode
  uid := x.uid
  gid := x.gid
  size := x.size.toInt
  nlink := 1
  mtime := x.mtime
  atime := x.mtime
  ctime := x.mtime
  blocks := (x.size.toInt + 4096 - 1).tdiv 4096

/-- A path to a name in a directory. -/
theorem strtok_child {name : List UInt8} (hn : GoodName name) (path : List UInt8) :
    strtok (path ++ slash :: name) = strtok path ++ [name] := by
  rw [strtok_append_slash, strtok_of_slash_notMem hn.slash_notMem hn.ne_nil]

section Listing

variable {s : FsState} (h : s.WF) (hdirs : s.img.OneBlockDirs)
include h hdirs

theorem inodeToStat_live {i : ℕ} (hi : s.img.table.Live i) :
    (inodeToStat (s.img.table.inode i)).run s = (.ok (s.img.table.inode i).stat, s) := by
  have hsize : (s.img.table.inode i).size.toInt ≤ 1019 * 4096 := by
    cases hd : (s.img.table.inode i).isDir with
    | true => exact (hdirs hi hd).trans (by decide)
    | false => exact (h.img.table.size_le hi (h.img.table.isReg hi hd)).2
  rw [inodeToStat, nblocksOf, if_neg (by omega)]
  rfl

/-- The attributes of a path are those of the inode at its end. -/
theorem fsGetattr_run (path : List UInt8) :
    (fsGetattr path).run s = (.ofExcept ((s.img.table.resolve 2 (components path)).map fun i =>
      (s.img.table.inode i).stat), s) := by
  have hrun := translate_resolve h path
  cases hr : s.img.table.resolve 2 (components path) with
  | error e =>
    rw [hr] at hrun
    exact bind_err hrun
  | ok i =>
    have hlive := h.img.table.live_of_walk (resolve_eq_ok.1 hr)
    rw [hr] at hrun
    exact (bind_ok hrun).trans
      ((bind_ok (readInode_run h hlive)).trans (inodeToStat_live h hdirs hlive))

/-- The calls of a filler that never stops, for a directory. -/
theorem fsReaddir_run {path : List UInt8} {i : ℕ}
    (hi : s.img.table.resolve 2 (components path) = .ok i)
    (hd : (s.img.table.inode i).isDir = true) :
    (fsReaddir path fun _ => false).run s =
      (.ok (((List.finRange 128).filter fun k => (s.img.table.dir i k).valid).map fun k =>
        (cstr (s.img.table.dir i k).name, (s.img.table.inode (s.img.table.dir i k).inode).stat)), s) := by
  have hrun := translate_resolve h path
  rw [hi] at hrun
  have hlive := h.img.table.live_of_walk (resolve_eq_ok.1 hi)
  have hstat : ∀ k, (s.img.table.dir i k).valid = true →
      ∃ x, (readInode (s.img.table.dir i k).inode).run s = (.ok x, s) ∧ (inodeToStat x).run s =
        (.ok (s.img.table.inode (s.img.table.dir i k).inode).stat, s) := fun k hv =>
    ⟨_, readInode_run h (hlive.child hd hv), inodeToStat_live h hdirs (hlive.child hd hv)⟩
  rw [fsReaddir, bind_ok hrun, bind_ok (readInode_run h hlive), bind_failIf_false (by rw [hd]; rfl),
    bind_ok (readDir_run h hlive hd), readdirLoop_run hstat,
    List.nil_append]

/-- A directory's listing has the names below its path that have attributes, each once and with
    these. -/
theorem readdir_agrees {path : List UInt8} (hlen : (strtok path).length < maxPathComponents)
    {a : Attrs} (hp : s.img.tree (pathNames path) = some (.dir a)) :
    ∃ calls, (fsReaddir path fun _ => false).run s = (.ok calls, s) ∧ (calls.map Prod.fst).Nodup ∧
      (∀ c ∈ calls, GoodName c.1) ∧
      ∀ name, GoodName name → ∀ path', strtok path' = strtok (path ++ slash :: name) → ∀ st,
        (fsGetattr path').run s = (.ok st, s) ↔ (name, st) ∈ calls := by
  obtain ⟨i, hi, hnode⟩ := Option.map_eq_some_iff.1 hp
  have hd := Image.isDir_of_node hnode
  have hlive := h.img.table.live_of_walk hi
  have hres := resolve_eq_ok.2 hi
  refine ⟨_, fsReaddir_run h hdirs ((components_of_le hlen.le).symm ▸ hres) hd, ?_, ?_, ?_⟩
  · rw [List.map_map]
    refine List.Nodup.map_on (fun k hk l hl hkl => ?_) ((List.nodup_finRange 128).filter _)
    exact h.img.table.distinct hlive hd (List.mem_filter.1 hk).2 (List.mem_filter.1 hl).2 hkl
  · intro c hc
    obtain ⟨k, hk, rfl⟩ := List.mem_map.1 hc
    exact h.img.table.names hlive hd (List.mem_filter.1 hk).2
  · intro name hname path' hpath' st
    rw [strtok_child hname] at hpath'
    have hnames : components path' = pathNames path ++ [name] := by
      have hlen' : (strtok path').length ≤ maxPathComponents := by
        rw [hpath', List.length_append]
        exact hlen
      rw [components_of_le hlen', pathNames, hpath', List.map_append, List.map_singleton,
        List.take_of_length_le hname.length_le]
      rfl
    rw [fsGetattr_run h hdirs, hnames, resolve_append hres, resolve_singleton, entryOf, if_pos hd]
    cases hk : (s.img.table.dir i).find (·.named name) with
    | none =>
      refine iff_of_false (fun he => by cases he) fun hmem => ?_
      obtain ⟨k, hv, hc⟩ := List.mem_map.1 hmem
      -- The entry that is listed would be found.
      have hfound := (h.img.table.find_named hlive hd).2
        ⟨(List.mem_filter.1 hv).2, (Prod.mk.inj hc).1⟩
      rw [hk] at hfound
      cases hfound
    | some k =>
      obtain ⟨hv, hn⟩ := (h.img.table.find_named hlive hd).1 hk
      constructor
      · rintro heq
        obtain rfl := Res.ok.inj (Prod.mk.inj heq).1
        exact List.mem_map.2 ⟨k, List.mem_filter.2 ⟨List.mem_finRange k, hv⟩, by rw [hn]⟩
      · intro hmem
        obtain ⟨l, hvl, hc⟩ := List.mem_map.1 hmem
        obtain ⟨hnl, rfl⟩ := Prod.mk.inj hc
        rw [h.img.table.distinct hlive hd (List.mem_filter.1 hvl).2 hv (hnl.trans hn.symm)]
        rfl

end Listing

/-- The file system with `/a` has a directory of one block. -/
theorem oneBlockDirs_fileA : fileA.img.OneBlockDirs := by
  have hvalid : ∀ k, (fileA.img.table.dir 2 k).valid = true →
      (fileA.img.table.dir 2 k).inode = 4 := by
    decide +kernel
  have hfile : (fileA.img.table.inode 4).isDir = false := by decide +kernel
  have hroot : (fileA.img.table.inode 2).size.toInt = 4096 := by decide +kernel
  intro i hi hd
  have hlive : i = 2 ∨ i = 4 := by
    clear hd
    induction hi with
    | root => exact .inl rfl
    | @step x y k _ hxy ih =>
      obtain ⟨hx, hv, rfl⟩ := slots_eq_some.1 hxy
      rcases ih with rfl | rfl
      · rw [hvalid k hv]
        exact .inr rfl
      · rw [hfile] at hx
        cases hx
  rcases hlive with rfl | rfl
  · exact hroot.le
  · rw [hfile] at hd
    cases hd

/-- The listing of the root directory with `/a` in it. -/
theorem readdir_agrees_fileA :
    ∃ calls, (fsReaddir [slash] fun _ => false).run fileA = (.ok calls, fileA) ∧
      (calls.map Prod.fst).Nodup ∧ (∀ c ∈ calls, GoodName c.1) ∧
      ∀ name, GoodName name → ∀ path', strtok path' = strtok ([slash] ++ slash :: name) → ∀ st,
        (fsGetattr path').run fileA = (.ok st, fileA) ↔ (name, st) ∈ calls :=
  readdir_agrees wf_fileA oneBlockDirs_fileA
    (show (strtok [slash]).length < maxPathComponents by decide)
    (show fileA.img.tree (pathNames [slash]) = some (.dir (fileA.img.table.inode 2).attrs) from
      congrArg some (Image.node_eq_dir (by decide +kernel)))

end Cs5600
