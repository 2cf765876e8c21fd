import Cs5600.Namespace
import Cs5600.ReadsAlike

/-!
# Removing large directories

`fs_rmdir` looks for entries in the first block of a directory only, and only frees that block.
In an image that is a tree of directories of any length, a call that succeeds gives back all
blocks of the directory, and of one without entries, unless it removes a directory of several
blocks (`rmdirFreesAll_iff`, and `rmdirFreesAll_iff_pages` in terms of the image).
-/

namespace Cs5600

open LabelledGraph FsM

/-! ## Objects along names -/

namespace Image

variable {img : Image} {i j : ℕ} {as bs : List (List UInt8)}

theorem leads_append : img.Leads i (as ++ bs) j ↔ ∃ m, img.Leads i as m ∧ img.Leads m bs j := by
  induction as generalizing i with
  | nil =>
    constructor
    · exact fun hl => ⟨i, rfl, hl⟩
    · rintro ⟨m, rfl, hl⟩
      exact hl
  | cons c as ih =>
    constructor
    · rintro ⟨a, k, hk, hc, hl⟩
      obtain ⟨m, hm, hl⟩ := ih.1 hl
      exact ⟨m, ⟨a, k, hk, hc, hm⟩, hl⟩
    · rintro ⟨m, ⟨a, k, hk, hc, hm⟩, hl⟩
      exact ⟨a, k, hk, hc, ih.2 ⟨m, hm, hl⟩⟩

/-- Names lead to one object only. -/
theorem SpreadWF.leads_unique (h : img.SpreadWF) (hi : Reach img.entries 2 i) {j' : ℕ}
    (hl : img.Leads i as j) (hl' : img.Leads i as j') : j = j' := by
  induction as generalizing i with
  | nil => exact hl.symm.trans hl'
  | cons c as ih =>
    obtain ⟨a, k, hk, hc, hl⟩ := hl
    obtain ⟨a', k', hk', hc', hl'⟩ := hl'
    obtain rfl := h.distinct hi (Option.isSome_of_eq_some hk) (Option.isSome_of_eq_some hk')
      (hc.trans hc'.symm)
    obtain rfl := Option.some.inj (hk.symm.trans hk')
    exact ih (hi.step hk) hl hl'

variable (img) in
/-- Names lead through an entry that is not in the first block of its directory. -/
def Strays : ℕ → List (List UInt8) → Prop
  | _, [] => False
  | i, c :: cs =>
    ∃ a k, img.entries i a = some k ∧ img.entryName i a = c ∧ (a.1 ≠ 0 ∨ Strays k cs)

end Image

/-- The file system finds what names lead to, unless they stray from the first blocks. -/
theorem FsState.walk_eq_iff {s : FsState} (h : s.img.SpreadWF) {i j : ℕ}
    (hi : Reach s.img.entries 2 i) {cs : List (List UInt8)} (hl : s.img.Leads i cs j) :
    walk s.img.table.children i cs = some j ↔ ¬ s.img.Strays i cs := by
  induction cs generalizing i with
  | nil => exact iff_of_true (congrArg some hl) not_false
  | cons c cs ih =>
    obtain ⟨a, k, hk, hc, hl⟩ := hl
    -- The entry that the names lead through is the only one of its name.
    have honly : ∀ {a' k'}, s.img.entries i a' = some k' → s.img.entryName i a' = c →
        a' = a ∧ k' = k := by
      intro a' k' hk' hc'
      obtain rfl := h.distinct hi (Option.isSome_of_eq_some hk') (Option.isSome_of_eq_some hk)
        (hc'.trans hc.symm)
      exact ⟨rfl, Option.some.inj (hk'.symm.trans hk)⟩
    rw [walk, Option.bind_eq_some_iff]
    constructor
    · rintro ⟨k', hchild, hw⟩ ⟨a', k'', hk'', hc'', hstrays⟩
      obtain ⟨l, hl0, hname⟩ := (children_spread h hi).1 hchild
      obtain ⟨rfl, rfl⟩ := honly hl0 hname
      obtain ⟨rfl, rfl⟩ := honly hk'' hc''
      rcases hstrays with hne | hstrays
      · exact hne rfl
      · exact (ih (hi.step hk) hl).1 hw hstrays
    · intro hnot
      obtain ⟨b, l⟩ := a
      obtain rfl : b = 0 := by
        by_contra hne
        exact hnot ⟨(b, l), k, hk, hc, .inl hne⟩
      refine ⟨k, (children_spread h hi).2 ⟨l, hk, hc⟩, (ih (hi.step hk) hl).2 fun hstrays => ?_⟩
      exact hnot ⟨(0, l), k, hk, hc, .inr hstrays⟩

/-! ## What `fs_rmdir` frees -/

/-- `fs_rmdir` succeeds only if no block of the directory `d` has a valid entry, and then it frees
    the blocks of `d`, all of them and no others. -/
def RmdirFreesAll (s : FsState) (path : FsPath) (d : ℕ) : Prop :=
  ∀ s', (fsRmdir path.bytes).run s = (.ok (), s') →
    (∀ a, s.img.entries d a = none) ∧
    ∀ b, bitTest s'.bitmap b = true ↔ bitTest s.bitmap b = true ∧ ¬∃ r, s.img.Uses d r b

section Rmdir

variable {s : FsState} (hs : s.Mounted) (h : s.img.SpreadWF) {path : FsPath} {d : ℕ}
  (hl : s.img.Leads 2 path.names d)
include h hl

/-- The parent of an object that entries lead to is a directory. -/
theorem parentDir_of_leads : s.img.table.ParentDir path := by
  intro parent leaf hp
  obtain ⟨hleaf, hw⟩ := Table.lookupParent_eq_ok.1 hp
  have hne := List.ne_nil_of_mem (List.mem_of_getLast? hleaf)
  -- The names of the parent are followed by another name.
  obtain ⟨c, cs, hcs⟩ : ∃ c cs,
      path.names = path.names.dropLast.take maxPathComponents ++ c :: cs := by
    have hsplit := List.take_append_drop maxPathComponents path.names.dropLast
    have hlast := List.dropLast_append_getLast hne
    rw [← hsplit, List.append_assoc] at hlast
    obtain ⟨c, cs, hcs⟩ := List.exists_cons_of_ne_nil
      (List.concat_ne_nil (path.names.getLast hne) (path.names.dropLast.drop maxPathComponents))
    rw [hcs] at hlast
    exact ⟨c, cs, hlast.symm⟩
  rw [hcs] at hl
  obtain ⟨m, hm, a, k, hk, -, -⟩ := Image.leads_append.1 hl
  obtain rfl := h.leads_unique .root hm (FsState.leads_of_walk h hw)
  exact (Image.entries_eq_some.1 hk).1

include hs

/-- The bitmap after a directory is removed. -/
theorem bitTest_rmdir {p : ℕ} {k : Fin 128} {s' : FsState}
    (hold : s.img.table.oldLeaf path = .ok (p, k))
    (hcheck : s.img.table.rmdirCheck (s.img.table.dir p k).inode = none)
    (hrun : (fsRmdir path.bytes).run s = (.ok (), s')) (b : ℕ) :
    bitTest s'.bitmap b = true ↔ bitTest s.bitmap b = true ∧
      b ≠ (s.img.table.dir p k).inode ∧ b ≠ s.img.dirPtr (s.img.table.dir p k).inode := by
  have hw := FsState.walks_spread hs h
  obtain ⟨hp, hd, -, hi⟩ := hw.oldLeaf_mem (parentDir_of_leads h hl) hold
  have hx := Table.isDir_of_rmdirCheck hcheck
  obtain ⟨-, hm, hmap⟩ := hw.wrote_dir hp hd ((s.img.table.dir p).invalidate k)
  rw [hw.fsRmdir_run (parentDir_of_leads h hl), hold] at hrun
  simp only [hcheck] at hrun
  rw [← (Prod.mk.inj hrun).2, ← List.singleton_append, ← FsState.wrote_wrote, FsState.wrote_bitmap,
    ← hmap, Image.bitmap_puts_bitWrites hm.one_lt, hmap, ← hs.bitmap, bitTest_foldl_bitClear]
  · simp only [Bool.and_eq_true, Bool.not_eq_true', decide_eq_false_iff_not, List.mem_cons,
      List.not_mem_nil, or_false, not_or]
    exact and_comm
  · intro c hc
    refine lt_of_lt_of_le ?_ hs.le_cap
    rcases List.mem_cons.1 hc with rfl | hc
    · exact (hw.lt hi).2
    · rw [List.mem_singleton.1 hc]
      exact (hw.dir_lt hi hx).2

/-- A block that `fs_rmdir` frees is one of two. -/
theorem eq_or_eq_of_freed (hfree : RmdirFreesAll s path d) {p : ℕ} {k : Fin 128}
    (hold : s.img.table.oldLeaf path = .ok (p, k))
    (hcheck : s.img.table.rmdirCheck (s.img.table.dir p k).inode = none) {r : Role} {b : ℕ}
    (hb : s.img.Uses d r b) :
    b = (s.img.table.dir p k).inode ∨ b = s.img.dirPtr (s.img.table.dir p k).inode := by
  have hw := FsState.walks_spread hs h
  obtain ⟨s', hrun⟩ : ∃ s', (fsRmdir path.bytes).run s = (.ok (), s') := by
    rw [hw.fsRmdir_run (parentDir_of_leads h hl), hold]
    simp only [hcheck]
    exact ⟨_, rfl⟩
  have hmarked : bitTest s.bitmap b = true := by
    rw [hs.bitmap]
    exact (h.used hl.reach hb).2.2
  by_contra hne
  rw [not_or] at hne
  have hkept := (bitTest_rmdir hs h hl hold hcheck hrun b).2 ⟨hmarked, hne⟩
  exact (((hfree s' hrun).2 b).1 hkept).2 ⟨r, hb⟩

/-- If `fs_rmdir` gives back what it should, the directory that it finds is that of the path, and
    has one block. -/
theorem RmdirFreesAll.pages_eq (hd : (s.img.table.inode d).isDir = true)
    (hfree : RmdirFreesAll s path d) {p : ℕ} {k : Fin 128}
    (hold : s.img.table.oldLeaf path = .ok (p, k))
    (hcheck : s.img.table.rmdirCheck (s.img.table.dir p k).inode = none) :
    (s.img.table.dir p k).inode = d ∧ (s.img.table.inode d).pages = 1 := by
  have hpos := FsState.pages_pos h hl.reach hd
  obtain ⟨-, -, hv, hi⟩ := (FsState.walks_spread hs h).oldLeaf_mem (parentDir_of_leads h hl) hold
  have hx := Table.isDir_of_rmdirCheck hcheck
  have hptr : s.img.Uses (s.img.table.dir p k).inode (.ptr 0)
      (s.img.dirPtr (s.img.table.dir p k).inode) := ⟨FsState.pages_pos h hi hx, rfl⟩
  have hself : s.img.Uses d .inode d := rfl
  -- The inode of the directory is freed, as an inode.
  have heq : (s.img.table.dir p k).inode = d := by
    rcases eq_or_eq_of_freed hs h hl hfree hold hcheck hself with he | he
    · exact he.symm
    · cases (h.disjoint hl.reach hi hself (he ▸ hptr)).2
  rw [heq] at hptr
  refine ⟨heq, ?_⟩
  by_contra hne
  -- Its second block is freed as well.
  have hsecond : s.img.Uses d (.ptr 1) ((s.img.table.inode d).ptrs 1).toNat :=
    ⟨show 1 < _ by omega, rfl⟩
  rcases eq_or_eq_of_freed hs h hl hfree hold hcheck hsecond with he | he
  · rw [he, heq] at hsecond
    cases (h.disjoint hl.reach hl.reach hsecond hself).2
  · rw [he, heq] at hsecond
    cases (h.disjoint hl.reach hl.reach hsecond hptr).2

/-- An empty directory of one block is given back. -/
theorem rmdirFreesAll_of_pages (hd : (s.img.table.inode d).isDir = true)
    (hcond : ∀ p k, s.img.table.oldLeaf path = .ok (p, k) →
      s.img.table.rmdirCheck (s.img.table.dir p k).inode = none →
      (s.img.table.dir p k).inode = d ∧ (s.img.table.inode d).pages = 1) :
    RmdirFreesAll s path d := by
  intro s' hrun
  have hrun' := hrun
  rw [(FsState.walks_spread hs h).fsRmdir_run (parentDir_of_leads h hl)] at hrun'
  cases hold : s.img.table.oldLeaf path with
  | error e =>
    rw [hold] at hrun'
    cases congrArg Prod.fst hrun'
  | ok pk =>
    obtain ⟨p, k⟩ := pk
    rw [hold] at hrun'
    cases hcheck : s.img.table.rmdirCheck (s.img.table.dir p k).inode with
    | some e =>
      simp only [hcheck] at hrun'
      cases congrArg Prod.fst hrun'
    | none =>
      obtain ⟨heq, hpages⟩ := hcond p k hold hcheck
      have hbits := bitTest_rmdir hs h hl hold hcheck hrun
      rw [heq] at hcheck hbits
      refine ⟨fun a => Option.eq_none_iff_forall_ne_some.2 fun j hj => ?_, fun b => ?_⟩
      · -- The one block of the directory is the one that was looked at.
        obtain ⟨b, l⟩ := a
        obtain ⟨-, hlt, hv, -⟩ := Image.entries_eq_some.1 hj
        obtain rfl : b = 0 := by omega
        have hnot := Op.rmdirCheck_leaf d hcheck hd l
        rw [show (s.img.table.dir d l).valid = true from hv] at hnot
        cases hnot
      · rw [hbits]
        refine and_congr_right fun _ => ?_
        constructor
        · rintro ⟨hi, hp⟩ ⟨r, hr⟩
          cases r with
          | inode => exact hi hr
          | ptr l =>
            obtain ⟨hlt, rfl⟩ := hr
            obtain rfl : l = 0 := Fin.ext (by omega)
            exact hp rfl
        · intro hnone
          refine ⟨fun hb => hnone ⟨.inode, hb⟩, fun hb => hnone ⟨.ptr 0, ?_, hb⟩⟩
          exact FsState.pages_pos h hl.reach hd

/-- `fs_rmdir` gives back what it should if, and only if, it does not find a directory whose first
    block has no valid entry, or that is the directory of the path and has one block. -/
theorem rmdirFreesAll_iff (hd : (s.img.table.inode d).isDir = true) :
    RmdirFreesAll s path d ↔ ∀ p k, s.img.table.oldLeaf path = .ok (p, k) →
      s.img.table.rmdirCheck (s.img.table.dir p k).inode = none →
      (s.img.table.dir p k).inode = d ∧ (s.img.table.inode d).pages = 1 :=
  ⟨fun hfree _ _ => hfree.pages_eq hs h hl hd, rmdirFreesAll_of_pages hs h hl hd⟩

omit hs in
/-- For paths that it follows to the end, `fs_rmdir` finds an entry if, and only if, the first blocks
    lead to it. -/
theorem exists_oldLeaf_iff (hlen : path.names.length ≤ maxPathComponents + 1)
    (hne : path.names ≠ []) {j : ℕ} :
    (∃ p k, s.img.table.oldLeaf path = .ok (p, k) ∧ (s.img.table.dir p k).inode = j) ↔
      walk s.img.table.children 2 path.names = some j := by
  have htake : path.names.dropLast.take maxPathComponents = path.names.dropLast :=
    List.take_of_length_le (by rw [List.length_dropLast]; omega)
  have hlast := List.dropLast_append_getLast hne
  have hdir := parentDir_of_leads h hl
  constructor
  · rintro ⟨p, k, hold, rfl⟩
    obtain ⟨leaf, hparent, hk⟩ := Table.oldLeaf_eq_ok.1 hold
    obtain ⟨hleaf, hw⟩ := Table.lookupParent_eq_ok.1 hparent
    rw [htake] at hw
    rw [List.getLast?_eq_some_getLast hne] at hleaf
    rw [← hlast, walk_concat, hw, Option.bind_some, Option.some.inj hleaf, Table.children,
      if_pos (hdir p leaf hparent), hk]
    rfl
  · intro hwalk
    rw [← hlast, walk_concat] at hwalk
    obtain ⟨p, hw, hchild⟩ := Option.bind_eq_some_iff.1 hwalk
    have hparent : s.img.table.lookupParent path = .ok (p, path.names.getLast hne) :=
      Table.lookupParent_eq_ok.2 ⟨List.getLast?_eq_some_getLast hne, by rwa [htake]⟩
    rw [Table.children, if_pos (hdir p _ hparent)] at hchild
    obtain ⟨k, hk, hj⟩ := Option.map_eq_some_iff.1 hchild
    exact ⟨p, k, Table.oldLeaf_eq_ok.2 ⟨_, hparent, hk⟩, hj⟩

/-- For paths of at most eleven components, `fs_rmdir` gives back what it should if, and only if, it
    refuses the path (that of the root, one that strays from the first blocks, or one of a directory
    with a valid entry in its first block), or the directory has one block. -/
theorem rmdirFreesAll_iff_pages (hd : (s.img.table.inode d).isDir = true)
    (hlen : path.names.length ≤ maxPathComponents + 1) :
    RmdirFreesAll s path d ↔ path.names = [] ∨ s.img.Strays 2 path.names ∨
      (∃ k, (s.img.table.dir d k).valid = true) ∨ (s.img.table.inode d).pages = 1 := by
  have hwalk := FsState.walk_eq_iff h .root hl
  constructor
  · intro hfree
    by_contra hnot
    obtain ⟨hne, hstay, hempty, hpages⟩ := by simpa only [not_or] using hnot
    -- The directory of the path is found, and no entry is seen in it.
    obtain ⟨p, k, hold, heq⟩ := (exists_oldLeaf_iff h hl hlen hne).2 (hwalk.2 hstay)
    have hnone : (s.img.table.dir d).find (·.valid) = none :=
      DirBlock.find_eq_none.2 fun k => Bool.eq_false_iff.2 fun hv => hempty ⟨k, hv⟩
    have hcheck : s.img.table.rmdirCheck (s.img.table.dir p k).inode = none := by
      rw [heq, Table.rmdirCheck, if_pos hd, hnone]
      rfl
    exact hpages (hfree.pages_eq hs h hl hd hold hcheck).2
  · intro hcond
    refine rmdirFreesAll_of_pages hs h hl hd fun p k hold hcheck => ?_
    obtain ⟨leaf, hparent, -⟩ := Table.oldLeaf_eq_ok.1 hold
    have hne := List.ne_nil_of_mem (List.mem_of_getLast? (Table.lookupParent_eq_ok.1 hparent).1)
    have hw := (exists_oldLeaf_iff h hl hlen hne).1 ⟨p, k, hold, rfl⟩
    have heq := h.leads_unique .root (FsState.leads_of_walk h hw) hl
    rw [heq] at hw hcheck
    refine ⟨heq, ?_⟩
    rcases hcond with hnil | hstrays | ⟨l, hv⟩ | hpages
    · exact absurd hnil hne
    · exact absurd hstrays (hwalk.1 hw)
    · rw [Op.rmdirCheck_leaf d hcheck hd l] at hv
      cases hv
    · exact hpages

end Rmdir

/-! ## A directory of two blocks -/

/-- The inode of a directory of so many blocks. -/
def pagesInode (n : ℕ) : FsInode :=
  { rootInode with
    size := Int32.ofNat (n * 4096), ptrs := fun k => if k.1 < n then UInt32.ofNat (5 + k) else 0 }

/-- A block of directory entries, the first of which names the object 4 `a`. -/
def pageDirA : DirBlock := (DirBlock.decode Block.zero).add 0 4 [97]

/-- An image with a directory `/a` of so many blocks, without entries. -/
def Image.dirOf (n : ℕ) : Image where
  nblocks := 7
  block
    | 0 => (formatSuper 7).encode
    | 1 => (List.range 7).foldl bitSet Block.zero
    | 2 => rootInode.encode
    | 3 => pageDirA.encode
    | 4 => (pagesInode n).encode
    | _ => Block.zero

namespace Image

variable {n i j : ℕ} {a : ℕ × Fin 128}

theorem dirOf_root : (dirOf n).table.inode 2 = rootInode := FsInode.decode_encode _

theorem dirOf_dir : (dirOf n).table.inode 4 = pagesInode n := FsInode.decode_encode _

theorem pages_rootInode : rootInode.pages = 1 := by decide

/-- What is used of the inode of the directory. -/
theorem pagesInode_eq (hn : n = 1 ∨ n = 2) : (pagesInode n).isDir = true ∧ (pagesInode n).pages = n ∧
    (pagesInode n).size.toInt = n * 4096 := by
  rcases hn with rfl | rfl
  · decide
  · decide

theorem ptr_pagesInode {k : Fin 1019} (hk : k.1 < n) :
    ((pagesInode n).ptrs k).toNat = 5 + k := by
  have hptr : (pagesInode n).ptrs k = UInt32.ofNat (5 + k) := if_pos hk
  rw [hptr, UInt32.toNat_ofNat', Nat.mod_eq_of_lt (by omega)]

theorem ptrAt_pagesInode (hn : n = 1 ∨ n = 2) {k : ℕ} (hk : k < n) :
    (pagesInode n).ptrAt k = 5 + k := by
  have hfin : (Fin.ofNat 1019 k).1 = k := Nat.mod_eq_of_lt (by omega)
  rw [FsInode.ptrAt, ptr_pagesInode (by rwa [hfin]), hfin]

theorem dirOf_page_root : (dirOf n).page 2 0 = pageDirA := by
  rw [page, dirOf_root]
  exact DirBlock.decode_encode _

/-- The only entry of the root. -/
theorem dirOf_entries_root : (dirOf n).entries 2 a = some j ↔ a = (0, 0) ∧ j = 4 := by
  obtain ⟨b, l⟩ := a
  rw [entries_eq_some, dirOf_root, pages_rootInode, and_iff_right isDir_rootInode]
  simp only []
  constructor
  · rintro ⟨hb, hv, hj⟩
    obtain rfl : b = 0 := by omega
    rw [dirOf_page_root] at hv hj
    obtain rfl := valid_add_decode_zero.1 hv
    exact ⟨rfl, hj.symm⟩
  · rintro ⟨ha, rfl⟩
    obtain ⟨rfl, rfl⟩ := Prod.mk.inj ha
    rw [dirOf_page_root]
    exact ⟨Nat.one_pos, valid_add_decode_zero.2 rfl, rfl⟩

theorem dirOf_entryName : (dirOf n).entryName 2 (0, 0) = [97] := by
  rw [entryName, dirOf_page_root]
  exact cstr_strncpy (by decide) (by decide)

/-- The directory has no entries. -/
theorem dirOf_entries_dir (hn : n = 1 ∨ n = 2) : (dirOf n).entries 4 a = none := by
  refine if_neg fun ⟨_, hb, hv⟩ => ?_
  rw [dirOf_dir, (pagesInode_eq hn).2.1] at hb
  have hpage : (dirOf n).page 4 a.1 = .decode Block.zero := by
    have hblock : ∀ k, (dirOf n).block (5 + k) = Block.zero := fun k => by
      rw [Nat.add_comm]
      rfl
    rw [page, dirOf_dir, ptrAt_pagesInode hn hb, hblock]
  rw [hpage, valid_decode_zero] at hv
  cases hv

/-- The root and the directory are the only objects. -/
theorem reach_dirOf (hn : n = 1 ∨ n = 2) : Reach (dirOf n).entries 2 i ↔ i = 2 ∨ i = 4 := by
  constructor
  · intro hi
    induction hi with
    | root => exact .inl rfl
    | step _ hj ih =>
      rcases ih with rfl | rfl
      · exact .inr (dirOf_entries_root.1 hj).2
      · rw [dirOf_entries_dir hn] at hj
        cases hj
  · rintro (rfl | rfl)
    · exact .root
    · exact Reach.root.step (dirOf_entries_root.2 ⟨rfl, rfl⟩)

/-- The only entry of the image. -/
theorem dirOf_entries (hn : n = 1 ∨ n = 2) (hi : Reach (dirOf n).entries 2 i) :
    (dirOf n).entries i a = some j ↔ i = 2 ∧ a = (0, 0) ∧ j = 4 := by
  rcases (reach_dirOf hn).1 hi with rfl | rfl
  · rw [dirOf_entries_root]
    exact (and_iff_right rfl).symm
  · rw [dirOf_entries_dir hn]
    exact iff_of_false nofun fun h => absurd h.1 (by decide)

/-- The number of an object and what it uses a block for, by the block. -/
theorem dirOf_uses (hn : n = 1 ∨ n = 2) (hi : Reach (dirOf n).entries 2 i) {r : Role} {c : ℕ}
    (hu : (dirOf n).Uses i r c) :
    (i = 2 ∧ r = .inode ∧ c = 2) ∨ (i = 2 ∧ r = .ptr 0 ∧ c = 3) ∨ (i = 4 ∧ r = .inode ∧ c = 4) ∨
      (i = 4 ∧ ∃ k, r = .ptr k ∧ k.1 < n ∧ c = 5 + k) := by
  rcases (reach_dirOf hn).1 hi with rfl | rfl
  · cases r with
    | inode => exact .inl ⟨rfl, rfl, hu⟩
    | ptr k =>
      rw [Uses, dirOf_root, pages_rootInode] at hu
      obtain rfl : k = 0 := Fin.ext (Nat.lt_one_iff.1 hu.1)
      exact .inr (.inl ⟨rfl, rfl, hu.2⟩)
  · cases r with
    | inode => exact .inr (.inr (.inl ⟨rfl, rfl, hu⟩))
    | ptr k =>
      rw [Uses, dirOf_dir, (pagesInode_eq hn).2.1] at hu
      exact .inr (.inr (.inr ⟨rfl, k, rfl, hu.1, hu.2.trans (ptr_pagesInode hu.1)⟩))

theorem dirOf_spreadWF (hn : n = 1 ∨ n = 2) : (dirOf n).SpreadWF where
  root := by rw [dirOf_root, isDir_rootInode]
  tree :=
    { root_ne := fun hx h => absurd ((dirOf_entries hn hx).1 h).2.2 (by decide)
      unique := fun hx hy h h' => by
        obtain ⟨rfl, rfl, -⟩ := (dirOf_entries hn hx).1 h
        obtain ⟨rfl, rfl, -⟩ := (dirOf_entries hn hy).1 h'
        exact ⟨rfl, rfl⟩ }
  file := fun hi hd => by
    rcases (reach_dirOf hn).1 hi with rfl | rfl
    · rw [dirOf_root, isDir_rootInode] at hd
      cases hd
    · rw [dirOf_dir, (pagesInode_eq hn).1] at hd
      cases hd
  dir := fun hi hd => by
    rcases (reach_dirOf hn).1 hi with rfl | rfl
    · rw [dirOf_root]
      exact ⟨1, by decide⟩
    · rw [dirOf_dir]
      exact ⟨n, by omega, by omega, (pagesInode_eq hn).2.2⟩
  used := fun hi hu => by
    have hc : ∀ {c}, 2 ≤ c → c < 7 → 2 ≤ c ∧ c < (dirOf n).nblocks ∧
        (dirOf n).table.marked c = true := by
      intro c h2 hc
      refine ⟨h2, hc, ?_⟩
      change bitTest ((List.range 7).foldl bitSet Block.zero) c = true
      rw [bitTest_foldl_bitSet (by decide), decide_eq_true (List.mem_range.2 hc), Bool.true_or]
    rcases dirOf_uses hn hi hu with ⟨-, -, rfl⟩ | ⟨-, -, rfl⟩ | ⟨-, -, rfl⟩ | ⟨-, k, -, hk, rfl⟩
    · exact hc (by decide) (by decide)
    · exact hc (by decide) (by decide)
    · exact hc (by decide) (by decide)
    · exact hc (by omega) (by omega)
  disjoint := fun hi hj hu hu' => by
    rcases dirOf_uses hn hi hu with ⟨rfl, rfl, rfl⟩ | ⟨rfl, rfl, rfl⟩ | ⟨rfl, rfl, rfl⟩ |
        ⟨rfl, k, rfl, hk, rfl⟩ <;>
      rcases dirOf_uses hn hj hu' with ⟨rfl, rfl, hc⟩ | ⟨rfl, rfl, hc⟩ | ⟨rfl, rfl, hc⟩ |
        ⟨rfl, l, rfl, hl, hc⟩ <;>
      -- Blocks of different uses have different numbers.
      first
        | exact ⟨rfl, rfl⟩
        | exact ⟨rfl, congrArg _ (Fin.ext (by omega))⟩
        | omega
  names := fun hi ha => by
    obtain ⟨j, hj⟩ := Option.isSome_iff_exists.1 ha
    obtain ⟨rfl, rfl, -⟩ := (dirOf_entries hn hi).1 hj
    rw [dirOf_entryName]
    exact ⟨by decide, by decide, by decide, by decide⟩
  distinct := fun hi ha ha' _ => by
    obtain ⟨j, hj⟩ := Option.isSome_iff_exists.1 ha
    obtain ⟨j', hj'⟩ := Option.isSome_iff_exists.1 ha'
    rw [((dirOf_entries hn hi).1 hj).2.1, ((dirOf_entries hn hi).1 hj').2.1]

end Image

/-- The file system with an empty directory `/a` of so many blocks. -/
def dirFs (n : ℕ) : FsState := .mount (.dirOf n)

section DirFs

variable {n : ℕ}

theorem mounted_dirFs : (dirFs n).Mounted :=
  FsState.mount_mounted (congrArg (·.diskSize.toNat) (FsSuper.decode_encode (formatSuper 7)))
    (show 3 ≤ 7 by decide) (show 7 ≤ 32768 by decide)

theorem dirFs_spreadWF (hn : n = 1 ∨ n = 2) : (dirFs n).img.SpreadWF := Image.dirOf_spreadWF hn

theorem dirFs_inode : (dirFs n).img.table.inode 4 = pagesInode n := Image.dirOf_dir

theorem isDir_dirFs (hn : n = 1 ∨ n = 2) : ((dirFs n).img.table.inode 4).isDir = true := by
  rw [dirFs_inode]
  exact (Image.pagesInode_eq hn).1

/-- The entry leads to the directory. -/
theorem leads_dirFs : (dirFs n).img.Leads 2 pathA.names 4 := by
  rw [show pathA.names = [[97]] by decide]
  exact ⟨(0, 0), 4, Image.dirOf_entries_root.2 ⟨rfl, rfl⟩, Image.dirOf_entryName, rfl⟩

end DirFs

/-- A directory of one block is given back. -/
theorem rmdirFreesAll_dirFs : RmdirFreesAll (dirFs 1) pathA 4 := by
  have hn : 1 = 1 ∨ 1 = 2 := .inl rfl
  refine (rmdirFreesAll_iff mounted_dirFs (dirFs_spreadWF hn) leads_dirFs (isDir_dirFs hn)).2
    fun p k hold _ => ?_
  have hroot : (dirFs 1).img.table.oldLeaf pathA = .ok (2, 0) := rfl
  obtain ⟨rfl, rfl⟩ := Prod.mk.inj (Except.ok.inj (hroot.symm.trans hold))
  rw [dirFs_inode]
  exact ⟨by decide +kernel, (Image.pagesInode_eq hn).2.1⟩

/-- One of two blocks is not given back. -/
theorem not_rmdirFreesAll_dirFs : (dirFs 2).Mounted ∧ (dirFs 2).img.SpreadWF ∧
    (dirFs 2).img.Leads 2 pathA.names 4 ∧ ((dirFs 2).img.table.inode 4).isDir = true ∧
      ¬RmdirFreesAll (dirFs 2) pathA 4 := by
  have hn : 2 = 1 ∨ 2 = 2 := .inr rfl
  refine ⟨mounted_dirFs, dirFs_spreadWF hn, leads_dirFs, isDir_dirFs hn, fun hfree => ?_⟩
  have hroot : (dirFs 2).img.table.oldLeaf pathA = .ok (2, 0) := rfl
  have hpages := (hfree.pages_eq mounted_dirFs (dirFs_spreadWF hn) leads_dirFs (isDir_dirFs hn) hroot
    (by decide +kernel)).2
  rw [dirFs_inode, (Image.pagesInode_eq hn).2.1] at hpages
  cases hpages

end Cs5600
