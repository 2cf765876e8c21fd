import Cs5600.Accounting
import Cs5600.ReadsAlike

/-!
# How paths resolve

The walk along all components of a path, from the root (`Table.resolve`), compared with
what the code does with the path:

* `translate` collects ten components and ignores the others, so that it follows the walk
  exactly if there are no more, or no object at the first ten (`resolvesAll_iff`): a longer
  path resolves to an ancestor of what it names, be that there or not;
* `lookup_parent` splits a path on its own, and agrees with `translate` on all paths but
  those of two slashes or more and nothing else (`parentAgrees_iff`).
-/

namespace Cs5600

open LabelledGraph FsM Table

/-- The components of a path, as names: every one of them. -/
def pathNames (path : List UInt8) : List (List UInt8) := (strtok path).map (·.take maxNameLen)

theorem components_eq_take (path : List UInt8) :
    components path = (pathNames path).take maxPathComponents := List.map_take

theorem length_pathNames (path : List UInt8) : (pathNames path).length = (strtok path).length :=
  List.length_map _

/-- Up to ten components are all collected. -/
theorem components_of_le {path : List UInt8} (h : (strtok path).length ≤ maxPathComponents) :
    components path = pathNames path := by
  rw [components_eq_take, List.take_of_length_le (by rwa [length_pathNames])]

/-! ## Walks along more names -/

namespace Table

variable {t : Table} {i j : ℕ} {as bs : List (List UInt8)}

/-- A walk goes on from where its first part ends. -/
theorem resolve_append (h : t.resolve i as = .ok j) : t.resolve i (as ++ bs) = t.resolve j bs := by
  induction as generalizing i with
  | nil => rw [Except.ok.inj h, List.nil_append]
  | cons a as ih =>
    rw [resolve] at h
    rw [List.cons_append, resolve]
    split_ifs at h with hd
    rw [if_pos hd]
    cases hk : (t.dir i).find (·.named a) with
    | none =>
      rw [hk] at h
      cases h
    | some k =>
      rw [hk] at h
      exact ih h

/-- A walk fails as its first part does. -/
theorem resolve_append_error {e : Errno} (h : t.resolve i as = .error e) :
    t.resolve i (as ++ bs) = .error e := by
  induction as generalizing i with
  | nil => cases h
  | cons a as ih =>
    rw [resolve] at h
    rw [List.cons_append, resolve]
    split_ifs at h with hd
    · rw [if_pos hd]
      cases hk : (t.dir i).find (·.named a) with
      | none => rwa [hk] at h
      | some k =>
        rw [hk] at h
        exact ih h
    · rwa [if_neg hd]

/-- Only part of the names leads to the same object if there are no more, or to no object. -/
theorem WF.resolve_take_iff (h : t.WF) {n : ℕ} :
    t.resolve 2 (as.take n) = t.resolve 2 as ↔ as.length ≤ n ∨ walk t.children 2 (as.take n) = none := by
  constructor
  · intro heq
    cases hw : walk t.children 2 (as.take n) with
    | none => exact .inr rfl
    | some j =>
      refine .inl ?_
      rw [resolve_eq_ok.2 hw] at heq
      -- In a tree, no other list of names leads there.
      have hsame := h.children_tree.walk_injective hw (resolve_eq_ok.1 heq.symm)
      rw [← hsame]
      exact List.length_take_le n as
  · rintro (hlen | hnone)
    · rw [List.take_of_length_le hlen]
    · cases hr : t.resolve 2 (as.take n) with
      | ok j =>
        rw [resolve_eq_ok.1 hr] at hnone
        cases hnone
      | error e =>
        conv_rhs => rw [← List.take_append_drop n as, resolve_append_error hr]

end Table

/-! ## `translate` -/

section Translate

variable {s : FsState}

/-- `translate` follows the first ten components. -/
theorem translate_resolve (h : s.WF) (path : List UInt8) :
    (translate path).run s = (.ofExcept (s.img.table.resolve 2 (components path)), s) := by
  rw [translate_eq]
  exact walkFrom_run h live_root _

theorem Res.ofExcept_injective {α : Type} : Function.Injective (Res.ofExcept (α := α)) := by
  rintro (e | a) (e' | a') heq
  · rw [Res.err.inj heq]
  · cases heq
  · cases heq
  · rw [Res.ok.inj heq]

/-- `translate` ends as the walk along all components of a path does. -/
structure ResolvesAll (s : FsState) (path : List UInt8) : Prop where
  eq : (translate path).run s = (.ofExcept (s.img.table.resolve 2 (pathNames path)), s)
  found : ∀ i, ((translate path).run s).1 = .ok i →
    walk s.img.table.children 2 (pathNames path) = some i

/-- Paths resolve as all of their components say, unless there are more than ten and the first ten
    are found. -/
theorem resolvesAll_iff (h : s.WF) (path : List UInt8) :
    ResolvesAll s path ↔ (strtok path).length ≤ maxPathComponents ∨
      s.img.tree ((pathNames path).take maxPathComponents) = none := by
  have hrun := translate_resolve h path
  have hall : s.img.table.resolve 2 (components path) = s.img.table.resolve 2 (pathNames path) ↔
      (strtok path).length ≤ maxPathComponents ∨
        s.img.tree ((pathNames path).take maxPathComponents) = none := by
    rw [components_eq_take, h.img.table.resolve_take_iff, length_pathNames, Image.tree,
      Option.map_eq_none_iff]
  rw [← hall]
  constructor
  · rintro ⟨heq, -⟩
    rw [hrun] at heq
    exact Res.ofExcept_injective (Prod.mk.inj heq).1
  · intro heq
    rw [heq] at hrun
    refine ⟨hrun, fun i hi => ?_⟩
    rw [hrun] at hi
    have hok : s.img.table.resolve 2 (pathNames path) = .ok i := Res.ofExcept_injective hi
    exact resolve_eq_ok.1 hok

/-- `/a` has one component. -/
theorem resolvesAll_fileA : ResolvesAll fileA pathA.bytes :=
  (resolvesAll_iff wf_fileA pathA.bytes).2 (.inl (by decide))

end Translate

/-! ### Eleven components -/

/-- So many components `a`. -/
def namesAs (n : ℕ) : List (List UInt8) := List.replicate n [97]

/-- The path of so many components `a`. -/
def pathAs (n : ℕ) : FsPath :=
  .ofNames (namesAs n) fun _ hc => by
    rw [(List.mem_replicate.1 hc).2]
    exact ⟨by decide, by decide, by decide, by decide⟩

theorem names_pathAs (n : ℕ) : (pathAs n).names = namesAs n := FsPath.names_ofNames _

/-- A file system of 64 blocks, after so many calls of `fs_mkdir`: of `/a`, of `/a/a` and so on. -/
def deep : ℕ → FsState
  | 0 => .mount (.format 64)
  | n + 1 => (((Op.mkdir (pathAs (n + 1)) 0o755).exec ⟨500, 500, 0⟩).run (deep n)).2

/-- The innermost directory is empty, and there are so many free blocks. -/
structure Deep (n : ℕ) (s : FsState) : Prop where
  wf : s.WF
  exact : s.img.Exact
  bfree : s.bfree = 60 - 2 * n
  dir : ∃ a, s.img.tree (namesAs n) = some (.dir a)
  empty : ∀ name, s.img.tree (namesAs n ++ [name]) = none

theorem deep_zero : Deep 0 (deep 0) := by
  obtain ⟨hdir, hempty⟩ : (∃ a, (deep 0).img.tree [] = some (.dir a)) ∧
      ∀ name, (deep 0).img.tree ([] ++ [name]) = none := by
    refine Image.rmdirCheck_iff.1 ⟨2, rfl, ?_⟩
    rw [Table.rmdirCheck, show (deep 0).img = .format 64 from rfl, Image.format_inode,
      if_pos Image.isDir_rootInode, if_neg]
    rw [DirBlock.find_isSome]
    rintro ⟨k, hk⟩
    rw [Image.format_dir] at hk
    cases hk
  exact ⟨FsState.mount_wf (Image.format_wf (by decide) (by decide)), Image.exact_format, rfl, hdir,
    hempty⟩

/-- An empty directory has a free entry. -/
theorem Image.entryCount_lt_of_empty {img : Image} {path : FsPath} (hp : img.HasParent path)
    (hempty : ∀ name, img.tree (path.names.dropLast ++ [name]) = none) :
    img.entryCount path.names.dropLast < 128 := by
  obtain ⟨i, hi, hc⟩ := Image.rmdirCheck_iff.2 ⟨hp.parent, hempty⟩
  obtain ⟨a, ha⟩ := hp.parent
  have hd : (img.table.inode i).isDir = true := by
    rw [Image.tree, hi] at ha
    exact Image.isDir_of_node (Option.some.inj ha)
  refine (Image.entryCount_lt hi).2 (Option.isSome_iff_exists.1 (DirBlock.find_isSome.2 ⟨0, ?_⟩))
  rw [Op.rmdirCheck_leaf i hc hd 0]
  rfl

theorem Deep.succ {n : ℕ} (hn : n < 10) (h : Deep n (deep n)) : Deep (n + 1) (deep (n + 1)) := by
  have hsucc : namesAs (n + 1) = namesAs n ++ [[97]] := List.replicate_succ'
  have hnames : (pathAs (n + 1)).names = namesAs n ++ [[97]] := by rw [names_pathAs, hsucc]
  have hlast : (pathAs (n + 1)).names.dropLast = namesAs n := by rw [hnames, List.dropLast_concat]
  have hparent : (deep n).img.HasParent (pathAs (n + 1)) := by
    refine ⟨?_, ?_, by rw [hlast]; exact h.dir⟩
    · rw [hnames]
      exact List.concat_ne_nil _ _
    · rw [names_pathAs, namesAs, List.length_replicate]
      exact hn
  have hop : (Op.mkdir (pathAs (n + 1)) 0o755).Ok (deep n).img := show PlainMode 0o755 from rfl
  obtain ⟨r, s', hrun, -, hok, htree, -⟩ := performs_mkdir h.wf ⟨500, 500, 0⟩ hparent
    (show PlainMode 0o755 from rfl)
  have hfree : 2 ≤ (deep n).img.free.length := by
    have hb := bfree_eq h.wf
    rw [h.bfree] at hb
    omega
  obtain rfl : r = .ok () := hok.2 ⟨by rw [hnames]; exact h.empty _,
    Image.entryCount_lt_of_empty hparent (by rw [hlast]; exact h.empty), hfree⟩
  have hexec : ((Op.mkdir (pathAs (n + 1)) 0o755).exec ⟨500, 500, 0⟩).run (deep n) =
      (.ok .done, s') := map_run (fun _ => Out.done) hrun
  have hs' : deep (n + 1) = s' := congrArg Prod.snd hexec
  have hinsert := htree rfl
  rw [hnames] at hinsert
  obtain ⟨hexact, hbfree⟩ := (accounting h.wf h.exact .init).2 ⟨500, 500, 0⟩ _ _ _ hop hexec
  rw [hs']
  refine ⟨?_, hexact, ?_, ?_, fun name => ?_⟩
  · have hwf := exec_wf h.wf ⟨500, 500, 0⟩ hop
    rwa [hexec] at hwf
  · rw [hbfree, h.bfree, Op.gain]
    push_cast
    omega
  · rw [hsucc, hinsert]
    exact ⟨_, if_pos rfl⟩
  · -- Below the new directory, nothing was there before.
    rw [hsucc, hinsert]
    refine (if_neg fun he => ?_).trans ?_
    · have hlen := congrArg List.length he
      simp [namesAs] at hlen
    · have hw := Option.map_eq_none_iff.1 (h.empty [97])
      rw [Image.tree, walk_append]
      change ((walk _ 2 (namesAs n ++ [[97]])).bind _).map _ = none
      rw [hw]
      rfl

theorem deep_ten : Deep 10 (deep 10) := by
  have hall : ∀ n ≤ 10, Deep n (deep n) := by
    intro n
    induction n with
    | zero => exact fun _ => deep_zero
    | succ n ih => exact fun hn => (ih (by omega)).succ (by omega)
  exact hall 10 le_rfl

/-- The directory with ten names is empty, but `translate` finds it under the eleventh name. -/
theorem not_resolvesAll_deep : (deep 10).WF ∧ (pathAs 11).bytes.head? = some slash ∧ ∃ i,
    (translate (pathAs 11).bytes).run (deep 10) = (.ok i, deep 10) ∧
      (deep 10).img.table.resolve 2 (pathNames (pathAs 11).bytes) = .error .ENOENT := by
  obtain ⟨a, ha⟩ := deep_ten.dir
  obtain ⟨i, hi, hnode⟩ := Option.map_eq_some_iff.1 ha
  have hnames : pathNames (pathAs 11).bytes = namesAs 10 ++ [[97]] := names_pathAs 11
  have htake : components (pathAs 11).bytes = namesAs 10 := by
    rw [components_eq_take, hnames]
    rfl
  refine ⟨deep_ten.wf, (pathAs 11).absolute, i, ?_, ?_⟩
  · rw [translate_resolve deep_ten.wf, htake, resolve_eq_ok.2 hi]
    rfl
  · have hd := Image.isDir_of_node hnode
    have hnone := Option.map_eq_none_iff.1 (deep_ten.empty [97])
    rw [walk_concat, hi, Option.bind_some, children, if_pos hd, Option.map_eq_none_iff] at hnone
    rw [hnames, resolve_append (resolve_eq_ok.2 hi), resolve, if_pos hd, hnone]

/-! ## `lookup_parent` -/

section LookupParent

variable {s : FsState}

/-- The object of the first entry of a directory with a given name. -/
def Table.entryOf (t : Table) (p : ℕ) (leaf : List UInt8) : Except Errno ℕ :=
  if (t.inode p).isDir then
    match (t.dir p).find (·.named leaf) with
    | none => .error .ENOENT
    | some k => .ok (t.dir p k).inode
  else .error .ENOTDIR

theorem Table.resolve_singleton (t : Table) (p : ℕ) (leaf : List UInt8) :
    t.resolve p [leaf] = t.entryOf p leaf := by
  rw [resolve, entryOf]
  cases (t.dir p).find (·.named leaf) <;> rfl

/-- `lookup_parent` and `translate` take a path apart alike: into `dir` and a last component. -/
def SplitAgrees (s : FsState) (path dir last : List UInt8) : Prop :=
  (∃ e, (translate dir).run s = (.err e, s) ∧ (lookupParent path).run s = (.err e, s)) ∨
  ∃ p, (translate dir).run s = (.ok p, s) ∧
    (lookupParent path).run s = (.ok (p, last.take maxNameLen), s) ∧
    (translate path).run s = (.ofExcept (s.img.table.entryOf p (last.take maxNameLen)), s)

/-- `lookup_parent` does with a path what `translate` does with its parts, and refuses the root. -/
structure ParentAgrees (s : FsState) (path : List UInt8) : Prop where
  root : strtok path = [] → (lookupParent path).run s = (.err .EINVAL, s)
  split : strtok path ≠ [] → ∃ pre last k, last ≠ [] ∧ slash ∉ last ∧
    path = pre ++ slash :: last ++ List.replicate k slash ∧ SplitAgrees s path (pre ++ [slash]) last

/-- Slashes only, but more than one: without the last, the path is that of the root. -/
theorem lookupParent_replicate (k : ℕ) :
    lookupParent (List.replicate (k + 2) slash) = pure (2, [slash]) := by
  have hrstrip : rstrip (List.replicate (k + 1) slash) = [] := rstrip_append_replicate [] (k + 1)
  have hbase : basename (List.replicate (k + 1) slash) = [slash] := by
    rw [basename, if_neg (by simp), if_pos hrstrip]
  have hdir : dirname (List.replicate (k + 1) slash) = [slash] := by
    rw [dirname, if_neg (by simp), if_pos hrstrip]
  have hroot : List.replicate (k + 2) slash ≠ [slash] := fun h => by
    simpa using congrArg List.length h
  have hlast : (List.replicate (k + 2) slash).getLast? = some slash := by
    rw [List.replicate_succ', List.getLast?_concat]
  have hdup : (List.replicate (k + 2) slash).dropLast = List.replicate (k + 1) slash := by
    rw [List.replicate_succ', List.dropLast_concat]
  rw [lookupParent, beq_eq_false_iff_ne.2 hroot, if_neg (by simp)]
  simp only [hlast, if_true, hdup, hbase, hdir]
  rfl

theorem lookupParent_splitAgrees (h : s.WF) {pre last : List UInt8} (k : ℕ) (hlast : last ≠ [])
    (hs : slash ∉ last)
    (hlen : (strtok (pre ++ slash :: last ++ List.replicate k slash)).length ≤ maxPathComponents) :
    SplitAgrees s (pre ++ slash :: last ++ List.replicate k slash) (pre ++ [slash]) last := by
  have hnames : components (pre ++ slash :: last ++ List.replicate k slash) =
      components (pre ++ [slash]) ++ [last.take maxNameLen] := by
    have hpre : (strtok (pre ++ [slash])).length ≤ maxPathComponents := by
      rw [strtok_append k hlast hs, List.length_append, List.length_singleton] at hlen
      rw [strtok_concat_slash]
      omega
    rw [components_of_le hlen, components_of_le hpre, pathNames, pathNames, strtok_append k hlast hs,
      strtok_concat_slash, List.map_append, List.map_singleton]
  have hdir := translate_resolve h (pre ++ [slash])
  have hpath := translate_resolve h (pre ++ slash :: last ++ List.replicate k slash)
  rw [hnames] at hpath
  rw [SplitAgrees, lookupParent_append k hlast hs, hpath]
  cases hr : s.img.table.resolve 2 (components (pre ++ [slash])) with
  | error e =>
    rw [hr] at hdir
    exact .inl ⟨e, hdir, bind_err hdir⟩
  | ok p =>
    rw [hr] at hdir
    rw [resolve_append hr, resolve_singleton]
    exact .inr ⟨p, hdir, bind_ok hdir, rfl⟩

/-- `lookup_parent` agrees with `translate` but on paths of several slashes and nothing else: there
    it succeeds, with the root as the parent of itself. -/
theorem parentAgrees_iff (h : s.WF) {path : List UInt8} (habs : path.head? = some slash)
    (hlen : (strtok path).length ≤ maxPathComponents) :
    ParentAgrees s path ↔ path = [slash] ∨ strtok path ≠ [] := by
  constructor
  · intro hp
    by_contra hno
    obtain ⟨hroot, hcomps⟩ := not_or.1 hno
    replace hcomps := not_not.1 hcomps
    obtain ⟨k, rfl⟩ := eq_replicate_of_strtok_eq_nil habs hcomps
    have hrun := hp.root hcomps
    cases k with
    | zero => exact hroot rfl
    | succ k =>
      rw [lookupParent_replicate] at hrun
      cases congrArg Prod.fst hrun
  · rintro (rfl | hcomps)
    · exact ⟨fun _ => bind_failIf_true rfl, fun hne => absurd strtok_slash hne⟩
    · refine ⟨fun hnil => absurd hnil hcomps, fun _ => ?_⟩
      obtain ⟨pre, last, k, hlast, hs, rfl⟩ := exists_eq_append habs hcomps
      exact ⟨pre, last, k, hlast, hs, rfl, lookupParent_splitAgrees h k hlast hs hlen⟩

/-- The path `///a`. -/
theorem parentAgrees_slashA : ParentAgrees fileA (slash :: slash :: pathA.bytes) :=
  (parentAgrees_iff wf_fileA rfl (by decide)).2 (.inr (by decide))

/-- `//` has no component, but it does have a parent. -/
theorem not_parentAgrees_slashes : emptyFs.WF ∧ strtok [slash, slash] = [] ∧
    (lookupParent [slash, slash]).run emptyFs = (.ok (2, [slash]), emptyFs) :=
  ⟨wf_emptyFs, by decide, rfl⟩

end LookupParent

end Cs5600
