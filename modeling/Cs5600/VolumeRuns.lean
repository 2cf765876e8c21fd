import Cs5600.Refinement

/-!
# Runs of a volume

`fs_getattr` and `fs_readdir` compute the number of blocks of an object from its size, which is
within the bounds of an `int` if directories are of one block (`Volume.SmallDirs`); no call makes
larger ones. With that, every call of the code is a call of the volume (`exec_call`), and every
trace of the code is one of the volume (`traces_refine`).
-/

namespace Cs5600

open LabelledGraph Table FsM Traces

/-! ## What a call does to the tree -/

theorem Names.follow_eq_ok {t : Names} {dir cs : List (List UInt8)} {n : Node}
    (h : t.follow dir cs = .ok n) : t (dir ++ cs) = some n := by
  induction cs generalizing dir with
  | nil =>
    rw [List.append_nil]
    rw [follow] at h
    split at h
    · cases h
    · next hn => rw [hn, Except.ok.inj h]
  | cons c cs ih =>
    rw [follow] at h
    split at h
    · cases h
    · cases h
    · rw [List.append_cons]
      exact ih h

namespace Volume

variable {v v' : Volume} {env : Env} {op : Op} {r : Res Out}

/-- Directories are of one block. -/
def SmallDirs (v : Volume) : Prop := ∀ {ns a}, v.tree ns = some (.dir a) → a.size.toInt ≤ 4096

/-- What a call does to the tree: a node is added or changed, removed or moved. A directory that is
    added is of one block, and one that is changed stays as large. -/
inductive Changes (v : Volume) : Names → Prop
  | same : Changes v v.tree
  | insert {ns : List (List UInt8)} {n : Node} :
      (∀ a, n = .dir a → a.size = 4096 ∨ ∃ a', v.tree ns = some (.dir a') ∧ a.size = a'.size) →
      Changes v (v.tree.insert ns n)
  | remove {ns : List (List UInt8)} : Changes v (v.tree.remove ns)
  | move {src dst : List (List UInt8)} : Changes v (v.tree.move src dst)

/-- What is true of the size of one block, and of those of all directories, stays so. -/
theorem Changes.dirSize {P : Int32 → Prop} (hP : P 4096) (h : v.Changes v'.tree)
    (hd : ∀ {ns a}, v.tree ns = some (.dir a) → P a.size) {ns : List (List UInt8)} {a : Attrs}
    (hns : v'.tree ns = some (.dir a)) : P a.size := by
  generalize v'.tree = t at h hns
  cases h with
  | same => exact hd hns
  | insert hn =>
    rw [Names.insert] at hns
    split_ifs at hns with heq
    · rcases hn a (Option.some.inj hns) with hsize | ⟨a', ha', hsize⟩
      · rw [hsize]
        exact hP
      · rw [hsize]
        exact hd ha'
    · exact hd hns
  | remove =>
    rw [Names.remove] at hns
    split_ifs at hns
    exact hd hns
  | move =>
    rw [Names.move] at hns
    split_ifs at hns
    · exact hd hns
    · exact hd hns

theorem Changes.smallDirs (h : v.Changes v'.tree) (hd : v.SmallDirs) : v'.SmallDirs := fun hns =>
  h.dirSize (P := fun size => size.toInt ≤ 4096) (by decide) hd hns

theorem changes_make (path : FsPath) {n : Node} (hn : ∀ a, n = .dir a → a.size = 4096) :
    v.Changes (v.make path n).2.tree := by
  rw [make]
  split
  · exact .same
  · exact .same
  · split_ifs
    · exact .same
    · exact .same
    · exact .insert fun a ha => .inl (hn a ha)
    · exact .same

theorem changes_remove (path : FsPath) (check : List (List UInt8) → Node → Option Errno) :
    v.Changes (v.remove path check).2.tree := by
  rw [Volume.remove]
  split
  · exact .same
  · split
    · exact .same
    · split
      · exact .same
      · exact .remove

theorem changes_rename (src dst : FsPath) : v.Changes (v.rename src dst).2.tree := by
  rw [rename]
  split
  · exact .same
  · split
    · exact .same
    · split_ifs
      · exact .same
      · exact .same
      · exact .same
      · exact .move

theorem changes_setAttrs (path : FsPath) {g : Attrs → Attrs} (hg : ∀ a, (g a).size = a.size) :
    v.Changes (v.setAttrs path g).2.tree := by
  rw [setAttrs]
  split
  · exact .same
  · next n hn =>
    refine .insert fun a ha => ?_
    cases n with
    | file => cases ha
    | dir a' =>
      refine .inr ⟨a', Names.follow_eq_ok (t := v.tree) hn, ?_⟩
      rw [← Node.dir.inj ha, hg]

theorem changes_truncate (path : FsPath) (len : ℤ) :
    v.Changes (v.truncate env path len).2.tree := by
  rw [truncate]
  split_ifs
  · exact .same
  · split
    · exact .same
    · exact .same
    · exact .insert (by simp)

theorem changes_write (path : FsPath) (buf : List UInt8) (o : ℕ) :
    v.Changes (v.write env path buf o).2.tree := by
  rw [write]
  split
  · exact .same
  · exact .same
  · simp only []
    split_ifs
    · exact .same
    · exact .same
    · exact .insert (by simp)

/-- A call that is allowed changes the tree in one of these ways. -/
theorem Call.changes (h : v.Call env op r v') : v.Changes v'.tree := by
  cases op with
  | getattr => rw [h.2]; exact .same
  | readdir => rw [h.1]; exact .same
  | create => rw [h.2]; exact changes_make _ (by simp [Image.newFileNode])
  | mkdir =>
    rw [h.2]
    refine changes_make _ fun a ha => ?_
    rw [← Node.dir.inj ha]
    rfl
  | unlink => rw [h.2]; exact changes_remove _ _
  | rmdir => rw [h.2]; exact changes_remove _ _
  | rename => rw [h.2]; exact changes_rename _ _
  | chmod => rw [h.2]; exact changes_setAttrs _ fun _ => rfl
  | utime => rw [h.2]; exact changes_setAttrs _ fun _ => rfl
  | truncate => rw [h.2]; exact changes_truncate _ _
  | read => rw [h.2]; exact .same
  | write => rw [h.2]; exact changes_write _ _ _
  | statfs => rw [h.2]; exact .same

end Volume

/-! ## Attributes and listings -/

theorem Image.stat_node (img : Image) (i : ℕ) : (img.node i).attrs.stat = (img.table.inode i).stat := by
  cases hd : (img.table.inode i).isDir with
  | true => rw [node_eq_dir hd]; rfl
  | false => rw [node_eq_file hd]; rfl

/-- The directories of the tree are the live ones. -/
theorem Image.dirSize_volume {img : Image} (h : img.WF) {P : Int32 → Prop} :
    (∀ {ns a}, img.volume.tree ns = some (.dir a) → P a.size) ↔
      ∀ {i}, img.table.Live i → (img.table.inode i).isDir = true → P (img.table.inode i).size := by
  constructor
  · intro htree i hi hd
    obtain ⟨ns, hns⟩ := reach_iff_walk.1 (h.table.reach_children.2 hi)
    refine @htree ns (img.table.inode i).attrs ?_
    change img.tree ns = _
    rw [tree, hns, Option.map_some, node_eq_dir hd]
  · intro hdirs ns a hns
    obtain ⟨i, hi, hnode⟩ := Option.map_eq_some_iff.1 (show img.tree ns = some (.dir a) from hns)
    have hd := isDir_of_node hnode
    rw [node_eq_dir hd] at hnode
    rw [← Node.dir.inj hnode]
    exact hdirs (h.table.live_of_walk hi) hd

theorem Image.smallDirs_volume {img : Image} (h : img.WF) : img.volume.SmallDirs ↔ img.OneBlockDirs :=
  Image.dirSize_volume h (P := fun size => size.toInt ≤ 4096)

/-- A filler is called for the valid entries, in their order, until it stops the listing. -/
theorem readdirLoop_offered {s : FsState} {dir : DirBlock} {st : Fin 128 → Stat}
    (hst : ∀ k, (dir k).valid = true → ∃ x, (readInode (dir k).inode).run s = (.ok x, s) ∧
      (inodeToStat x).run s = (.ok (st k), s)) (filler : Calls → Bool) (calls : Calls)
    (ks : List (Fin 128)) : (readdirLoop dir filler calls ks).run s =
      (.ok (offered filler calls
        ((ks.filter fun k => (dir k).valid).map fun k => (cstr (dir k).name, st k))), s) := by
  induction ks generalizing calls with
  | nil => rfl
  | cons k ks ih =>
    rw [readdirLoop]
    by_cases hv : (dir k).valid = true
    · obtain ⟨x, hx, hxst⟩ := hst k hv
      rw [if_pos hv, bind_ok (attempt_ok hx), List.filter_cons_of_pos (p := fun k => (dir k).valid) hv,
        List.map_cons, offered]
      refine (bind_ok hxst).trans ?_
      simp only []
      split_ifs
      · rfl
      · exact ih _
    · rw [if_neg hv, ih, List.filter_cons_of_neg (p := fun k => (dir k).valid) hv]

section Reads

variable {s : FsState} (h : s.WF) (hdirs : s.img.OneBlockDirs)
include h hdirs

theorem fsGetattr_volume (path : FsPath) : (fsGetattr path.bytes).run s =
    ((Res.ofExcept (s.img.volume.find path)).map fun n => n.attrs.stat, s) := by
  rw [fsGetattr_run h hdirs, path.components_eq, Image.find_volume, Table.translate]
  cases s.img.table.resolve 2 (path.names.take maxPathComponents) with
  | error e => rfl
  | ok i =>
    simp only [Except.map, Res.ofExcept, Res.map, Image.stat_node]

omit hdirs in
/-- The valid entries of a directory are a list of its names. -/
theorem lists_entries {i : ℕ} {dir : List (List UInt8)} (hi : walk s.img.table.children 2 dir = some i)
    (hd : (s.img.table.inode i).isDir = true) : Names.Lists s.img.tree dir
      (((List.finRange 128).filter fun k => (s.img.table.dir i k).valid).map fun k =>
        (cstr (s.img.table.dir i k).name,
          (s.img.table.inode (s.img.table.dir i k).inode).stat)) := by
  have hlive := h.img.table.live_of_walk hi
  refine ⟨?_, fun {name st} => ?_⟩
  · rw [List.map_map]
    refine List.Nodup.map_on (fun k hk l hl hkl => ?_) ((List.nodup_finRange 128).filter _)
    exact h.img.table.distinct hlive hd (List.mem_filter.1 hk).2 (List.mem_filter.1 hl).2 hkl
  · rw [Image.tree_concat hi hd, List.mem_map]
    constructor
    · rintro ⟨k, hk, hkn⟩
      obtain ⟨rfl, rfl⟩ := Prod.mk.inj hkn
      refine ⟨_, ?_, Image.stat_node _ _⟩
      rw [(h.img.table.find_named hlive hd).2 ⟨(List.mem_filter.1 hk).2, rfl⟩, Option.map_some]
    · rintro ⟨n, hn, rfl⟩
      obtain ⟨k, hk, rfl⟩ := Option.map_eq_some_iff.1 hn
      obtain ⟨hv, rfl⟩ := (h.img.table.find_named hlive hd).1 hk
      exact ⟨k, List.mem_filter.2 ⟨List.mem_finRange k, hv⟩, by rw [Image.stat_node]⟩

theorem fsReaddir_volume (path : FsPath) (filler : Calls → Bool) :
    ∃ r, (fsReaddir path.bytes filler).run s = (r, s) ∧
      match s.img.volume.find path with
      | .error e => r = .err e
      | .ok (.file _ _) => r = .err .ENOTDIR
      | .ok (.dir _) => ∃ cs, Names.Lists s.img.tree path.place cs ∧ r = .ok (offered filler [] cs) := by
  rw [Image.find_volume]
  have hrun := translate_run h path
  cases htr : s.img.table.translate path with
  | error e =>
    rw [htr] at hrun
    exact ⟨_, bind_err hrun, rfl⟩
  | ok i =>
    have hlive := h.img.table.live_of_translate htr
    have hi := resolve_eq_ok.1 htr
    rw [htr] at hrun
    rw [Except.map]
    cases hd : (s.img.table.inode i).isDir with
    | false =>
      rw [Image.node_eq_file hd]
      refine ⟨.err .ENOTDIR, ?_, rfl⟩
      rw [fsReaddir, bind_ok hrun, bind_ok (readInode_run h hlive)]
      exact bind_failIf_true (by rw [hd]; rfl)
    | true =>
      have hstat : ∀ k, (s.img.table.dir i k).valid = true →
          ∃ x, (readInode (s.img.table.dir i k).inode).run s = (.ok x, s) ∧ (inodeToStat x).run s =
            (.ok (s.img.table.inode (s.img.table.dir i k).inode).stat, s) := fun k hv =>
        ⟨_, readInode_run h (hlive.child hd hv), inodeToStat_live h hdirs (hlive.child hd hv)⟩
      rw [Image.node_eq_dir hd]
      refine ⟨_, ?_, _, lists_entries h hi hd, rfl⟩
      rw [fsReaddir, bind_ok hrun, bind_ok (readInode_run h hlive),
        bind_failIf_false (by rw [hd]; rfl), bind_ok (readDir_run h hlive hd),
        readdirLoop_offered hstat]

end Reads

/-! ## Calls -/

/-- Arguments that the volume allows are those that the code may be called with. -/
theorem Volume.Allows.ok {img : Image} {op : Op} (hop : img.volume.Allows op) : op.Ok img := by
  have hparent : ∀ {path : FsPath}, (∀ a c leaf, img.volume.leaf path ≠ .ok (.file a c, leaf)) →
      img.table.ParentDir path := by
    intro path hleaf p leaf hl
    by_contra hd
    refine hleaf (img.table.inode p).attrs (img.content (img.table.inode p)) leaf ?_
    rw [Image.leaf_volume, hl, Except.map, Image.node_eq_file (by simpa using hd)]
  cases op with
  | unlink => exact hparent hop
  | rmdir => exact hparent hop
  | rename => exact hparent hop
  | create => exact hop
  | mkdir => exact hop
  | write => exact hop
  | _ => trivial

/-- A call of the code is a call of the volume. -/
theorem exec_call {s s' : FsState} (h : s.WF) (hdirs : s.img.OneBlockDirs) {env : Env} {op : Op}
    (hop : s.img.volume.Allows op) {r : Res Out} (hrun : (op.exec env).run s = (r, s')) :
    s.img.volume.Call env op r s'.img.volume := by
  by_cases hm : op.Modifies
  · obtain ⟨r', ws, he⟩ := Op.exists_ends env hm hop.ok
    obtain ⟨rfl, rfl⟩ := Prod.mk.inj ((exec_run h hop.ok he).symm.trans hrun)
    rw [FsState.wrote_img]
    cases he with
    | create he =>
      refine he.volume (n := Image.newFileNode env _) h.img (Image.makes_newFile h.img hop)
        fun bs hlen hbs => ?_
      obtain ⟨n, rfl⟩ := List.length_eq_one_iff.1 hlen
      exact Image.node_newFile h.img hop hbs
    | mkdir he =>
      refine he.volume (n := Image.newDirNode env _) h.img (Image.makes_newDir h.img hop)
        fun bs hlen hbs => ?_
      obtain ⟨n, b, rfl⟩ := List.length_eq_two.1 hlen
      exact Image.node_newDir h.img hop hbs
    | unlink he =>
      exact he.volume h.img hop.ok Op.unlinkCheck_leaf fun ns i _ => Image.unlinkCheck_node ns i
    | rmdir he =>
      exact he.volume h.img hop.ok Op.rmdirCheck_leaf fun _ _ => Image.rmdirCheck_node
    | rename he => exact he.volume h.img hop.ok
    | chmod he => exact he.volume h.img (Image.chmod_keeps _) fun _ => rfl
    | utime he => exact he.volume h.img (Image.utime_keeps _) fun _ => rfl
    | truncate he => exact he.volume h.img
    | write he => exact he.volume h.img (by have := hop.2; omega)
  · have hs : s' = s := by
      have hidle : ((op.exec env).run s).2 = s := exec_reads hm s
      rwa [hrun] at hidle
    subst hs
    cases op with
    | getattr path =>
      have hstat := map_run Out.stat (fsGetattr_volume h hdirs path)
      refine ⟨(Prod.mk.inj (hrun.symm.trans hstat)).1.trans ?_, rfl⟩
      cases s'.img.volume.find path <;> rfl
    | readdir path filler =>
      obtain ⟨r', hlist, hr'⟩ := fsReaddir_volume h hdirs path filler
      obtain rfl := (Prod.mk.inj (hrun.symm.trans (map_run Out.calls hlist))).1
      refine ⟨rfl, ?_⟩
      revert hr'
      cases s'.img.volume.find path with
      | error e => exact fun hr' => by rw [hr']; rfl
      | ok n =>
        cases n with
        | file => exact fun hr' => by rw [hr']; rfl
        | dir =>
          rintro ⟨cs, hcs, rfl⟩
          exact ⟨cs, hcs, rfl⟩
    | read path len o =>
      obtain ⟨o, rfl⟩ := Int.eq_ofNat_of_zero_le hop.1
      have hread := fsRead_volume h path (by have := hop.2; omega : o + len < 2 ^ 63)
      exact ⟨(Prod.mk.inj (hrun.symm.trans (map_run Out.bytes hread))).1, rfl⟩
    | statfs => exact ⟨(Prod.mk.inj (hrun.symm.trans (map_run _ (fsStatfs_volume h)))).1, rfl⟩
    | _ => exact absurd trivial hm

/-! ## Runs -/

/-- A call that has ended: its surroundings, its arguments and its result. -/
structure Called where
  env : Env
  op : Op
  result : Res Out

/-- A call of the code that is allowed. -/
def FsState.Calls (s : FsState) (c : Called) (s' : FsState) : Prop :=
  s.img.volume.Allows c.op ∧ (c.op.exec c.env).run s = (c.result, s')

/-- A call of a volume that is allowed. -/
def Volume.Calls (v : Volume) (c : Called) (v' : Volume) : Prop :=
  v.Allows c.op ∧ v.Call c.env c.op c.result v'

/-- No call of a volume runs into a fault. -/
theorem Volume.Call.ne_fault {v v' : Volume} {env : Env} {op : Op} {r : Res Out}
    (h : v.Call env op r v') (t : Fault) : r ≠ .fault t := by
  have hends : ∀ {α : Type} {x : Except Errno α × Volume} {f : α → Out}, Ends x f r v' →
      r ≠ .fault t := by
    rintro α ⟨e | a, _⟩ f ⟨rfl, _⟩ <;> simp [Res.ofExcept, Res.map]
  cases op with
  | readdir path filler =>
    have hr := h.2
    split at hr
    · rw [hr]; simp
    · rw [hr]; simp
    · obtain ⟨cs, _, rfl⟩ := hr
      simp
  | _ => exact hends h

/-- The state of the code is well-formed, has small directories, and shows this volume. -/
structure FsState.Shows (s : FsState) (v : Volume) : Prop where
  wf : s.WF
  oneBlockDirs : s.img.OneBlockDirs
  volume : s.img.volume = v

theorem FsState.Shows.calls {s s' : FsState} {v : Volume} {c : Called} (h : s.Shows v)
    (hc : s.Calls c s') : ∃ v', v.Calls c v' ∧ s'.Shows v' := by
  obtain ⟨hop, hrun⟩ := hc
  obtain ⟨hwf, hdirs, rfl⟩ := h
  have hcall := exec_call hwf hdirs hop hrun
  have hwf' := exec_wf hwf c.env hop.ok
  rw [hrun] at hwf'
  exact ⟨_, ⟨hop, hcall⟩, hwf', (Image.smallDirs_volume hwf'.img).1
    (hcall.changes.smallDirs ((Image.smallDirs_volume hwf.img).2 hdirs)), rfl⟩

theorem FsState.Shows.trace {s s' : FsState} {v : Volume} {cs : List Called} (h : s.Shows v)
    (ht : Trace FsState.Calls s cs s') : ∃ v', Trace Volume.Calls v cs v' ∧ s'.Shows v' :=
  ht.simulate (fun _ _ _ _ hs hc => hs.calls hc) h

/-- No call of a trace runs into a fault. -/
theorem Volume.ne_fault_of_trace {v v' : Volume} {cs : List Called} (ht : Trace Volume.Calls v cs v') :
    ∀ c ∈ cs, ∀ t, c.result ≠ .fault t := ht.forall_mem fun _ _ _ hc => hc.2.ne_fault

/-- What calls of the code return is what the volume allows, one call after the other, and none of
    them runs into a fault. -/
theorem traces_refine {s s' : FsState} (h : s.WF) (hdirs : s.img.OneBlockDirs) {cs : List Called}
    (ht : Trace FsState.Calls s cs s') : s'.WF ∧
      Trace Volume.Calls s.img.volume cs s'.img.volume ∧ ∀ c ∈ cs, ∀ t, c.result ≠ .fault t := by
  have hshows : s.Shows s.img.volume := ⟨h, hdirs, rfl⟩
  obtain ⟨v, htrace, hwf, -, rfl⟩ := hshows.trace ht
  exact ⟨hwf, htrace, Volume.ne_fault_of_trace htrace⟩

/-- The empty file system has a directory of one block. -/
theorem oneBlockDirs_emptyFs : emptyFs.img.OneBlockDirs := by
  intro i hi _
  rw [Image.live_format.1 hi]
  decide +kernel

/-- Making `/a` in the empty file system, as a call. -/
theorem calls_fileA : emptyFs.Calls ⟨⟨500, 500, 0⟩, .create pathA 0o100644, .ok .done⟩ fileA :=
  ⟨show RegMode 0o100644 from rfl, rfl⟩

theorem traces_refine_emptyFs : Trace Volume.Calls emptyFs.img.volume
    [⟨⟨500, 500, 0⟩, .create pathA 0o100644, .ok .done⟩] fileA.img.volume :=
  (traces_refine wf_emptyFs oneBlockDirs_emptyFs (.single calls_fileA)).2.1

end Cs5600
