import Cs5600.Format
import Cs5600.ReadImg

/-!
# What the script and the file system find

In an image that is a tree of directories of any length (`Image.SpreadWF`), what
`read-img.py` visits along a path of at most ten components is what `translate` finds
and `fs_readdir` lists if, and only if, the directories that such paths lead through have their
valid entries in the first block, and all names are ASCII (`readsAlike_iff`).
-/

namespace Cs5600

open LabelledGraph FsM

/-! ## The file system on directories of several blocks -/

namespace FsState

variable {s : FsState} (hs : s.Mounted) (h : s.img.SpreadWF) {i : ℕ}
include hs h

omit hs in
/-- A directory has a first block. -/
theorem pages_pos (hi : Reach s.img.entries 2 i) (hd : (s.img.table.inode i).isDir = true) :
    0 < (s.img.table.inode i).pages := by
  obtain ⟨k, hk, -, hsize⟩ := h.dir hi hd
  rw [FsInode.pages]
  omega

omit hs in
/-- An entry in the first block. -/
theorem entries_zero (hi : Reach s.img.entries 2 i) {k : Fin 128} {j : ℕ} :
    s.img.entries i (0, k) = some j ↔ (s.img.table.inode i).isDir = true ∧
      (s.img.table.dir i k).valid = true ∧ (s.img.table.dir i k).inode.1 = j := by
  rw [Image.entries_eq_some]
  exact and_congr_right fun hd => and_iff_right (pages_pos h hi hd)

theorem walks_spread : s.Walks (Reach s.img.entries 2) where
  mounted := hs
  root := .root
  lt hi := ⟨(h.used (r := .inode) hi rfl).1, (h.used (r := .inode) hi rfl).2.1⟩
  dir_lt hi hd := by
    have hused := h.used (r := .ptr 0) hi ⟨pages_pos h hi hd, rfl⟩
    exact ⟨hused.1, hused.2.1⟩
  child hi hd hv := hi.step ((entries_zero h hi).2 ⟨hd, hv, rfl⟩)

omit hs in
/-- The child that the file system finds under a name is that of an entry in the first block. -/
theorem children_spread (hi : Reach s.img.entries 2 i) {c : List UInt8} {j : ℕ} :
    s.img.table.children i c = some j ↔
      ∃ k, s.img.entries i (0, k) = some j ∧ s.img.entryName i (0, k) = c := by
  rw [Table.children]
  split_ifs with hd
  · rw [Option.map_eq_some_iff]
    refine exists_congr fun k => ?_
    rw [entries_zero h hi]
    constructor
    · rintro ⟨hk, rfl⟩
      obtain ⟨hv, hc⟩ := FsDirent.named_iff.1 (DirBlock.of_find_eq_some hk)
      exact ⟨⟨hd, hv, rfl⟩, hc⟩
    · rintro ⟨⟨-, hv, rfl⟩, hc⟩
      refine ⟨?_, rfl⟩
      -- The first entry of that name is this one.
      cases hl : (s.img.table.dir i).find (·.named c) with
      | none =>
        have hnot := DirBlock.find_eq_none.1 hl k
        rw [FsDirent.named_iff.2 ⟨hv, hc⟩] at hnot
        cases hnot
      | some l =>
        obtain ⟨hv', hc'⟩ := FsDirent.named_iff.1 (DirBlock.of_find_eq_some hl)
        have hsome : ∀ {k}, (s.img.table.dir i k).valid = true → (s.img.entries i (0, k)).isSome :=
          fun hv => Option.isSome_of_eq_some ((entries_zero h hi).2 ⟨hd, hv, rfl⟩)
        have heq := h.distinct hi (hsome hv') (hsome hv) (hc'.trans hc.symm)
        rw [(Prod.mk.inj heq).2]
  · refine iff_of_false (by simp) ?_
    rintro ⟨k, hk, -⟩
    exact hd ((entries_zero h hi).1 hk).1

omit hs in
/-- What the file system finds, entries lead to. -/
theorem leads_of_walk {ns : List (List UInt8)} {j : ℕ}
    (hw : walk s.img.table.children 2 ns = some j) : s.img.Leads 2 ns j := by
  induction ns using List.reverseRecOn generalizing j with
  | nil => exact Option.some.inj hw
  | append_singleton ns c ih =>
    rw [walk_concat] at hw
    obtain ⟨i, hi, hj⟩ := Option.bind_eq_some_iff.1 hw
    obtain ⟨k, hk, hc⟩ := (children_spread h (ih hi).reach).1 hj
    exact Image.leads_concat.2 ⟨i, (0, k), ih hi, hk, hc⟩

omit hs in
/-- If entries are in first blocks, the file system finds what they lead to. -/
theorem walk_of_leads (hfirst : s.img.FirstBlocks) {ns : List (List UInt8)} {j : ℕ}
    (hl : s.img.Leads 2 ns j) (hlen : ns.length ≤ maxPathComponents) :
    walk s.img.table.children 2 ns = some j := by
  induction ns using List.reverseRecOn generalizing j with
  | nil => exact congrArg some hl
  | append_singleton ns c ih =>
    rw [List.length_append, List.length_singleton] at hlen
    obtain ⟨i, ⟨b, k⟩, hl, hk, hc⟩ := Image.leads_concat.1 hl
    obtain ⟨as, has, hslen⟩ := Image.exists_walk_of_leads hl
    obtain rfl : b = 0 := hfirst as i (b, k) has (by omega) (Option.isSome_of_eq_some hk)
    rw [walk_concat, ih hl (by omega)]
    exact (children_spread h hl.reach).2 ⟨k, hk, hc⟩

end FsState

/-! ## The paths that names spell -/

namespace ReadImg

variable {img : Image} {i : ℕ}

/-- The components of a path that the script spells are its names. -/
theorem strtok_append_joinPath {ns : List (List UInt8)} (h : ∀ c ∈ ns, GoodName c)
    (p : List UInt8) : strtok (p ++ joinPath ns) = strtok p ++ ns := by
  induction ns generalizing p with
  | nil => rw [joinPath, List.flatMap_nil, List.append_nil, List.append_nil]
  | cons c ns ih =>
    have hc := h c List.mem_cons_self
    rw [joinPath_cons, List.cons_append, strtok_append_slash,
      ih fun c hc => h c (List.mem_cons_of_mem _ hc), strtok_of_slash_notMem hc.slash_notMem hc.ne_nil,
      List.singleton_append]

theorem strtok_joinPath {ns : List (List UInt8)} (h : ∀ c ∈ ns, GoodName c) :
    strtok (joinPath ns) = ns := by
  have happ := strtok_append_joinPath h []
  rwa [strtok_nil] at happ

/-- The names that entries lead along. -/
theorem goodName_of_leads (h : img.SpreadWF) {ns : List (List UInt8)} (hl : img.Leads 2 ns i)
    {c : List UInt8} (hc : c ∈ ns) : GoodName c := by
  induction ns using List.reverseRecOn generalizing i with
  | nil => exact absurd hc List.not_mem_nil
  | append_singleton ns c' ih =>
    obtain ⟨k, a, hlead, hk, rfl⟩ := Image.leads_concat.1 hl
    rcases List.mem_append.1 hc with hc | hc
    · exact ih hlead hc
    · rw [List.mem_singleton.1 hc]
      exact h.names hlead.reach (Option.isSome_of_eq_some hk)

end ReadImg

/-- The path that names spell. -/
def FsPath.ofNames (ns : List (List UInt8)) (h : ∀ c ∈ ns, GoodName c) : FsPath where
  bytes := if ns = [] then [slash] else ReadImg.joinPath ns
  absolute := by
    cases ns with
    | nil => rfl
    | cons c ns => rfl
  nul_free := by
    split_ifs with hn
    · decide
    · intro h0
      obtain ⟨c, hc, h0⟩ := List.mem_flatMap.1 h0
      rcases List.mem_cons.1 h0 with h0 | h0
      · cases h0
      · exact (h c hc).nul_notMem h0
  root := by
    split_ifs with hn
    · exact fun _ => rfl
    · intro hstr
      rw [ReadImg.strtok_joinPath h] at hstr
      exact absurd hstr hn

theorem FsPath.comps_ofNames {ns : List (List UInt8)} (h : ∀ c ∈ ns, GoodName c) :
    (ofNames ns h).comps = ns := by
  have hbytes : (ofNames ns h).bytes = if ns = [] then [slash] else ReadImg.joinPath ns := rfl
  rw [comps, hbytes]
  split_ifs with hn
  · rw [hn, strtok_slash]
  · exact ReadImg.strtok_joinPath h

theorem FsPath.names_ofNames {ns : List (List UInt8)} (h : ∀ c ∈ ns, GoodName c) :
    (ofNames ns h).names = ns := by
  rw [names, comps_ofNames]
  refine (List.map_congr_left fun c hc => ?_).trans (List.map_id ns)
  exact List.take_of_length_le (h c hc).length_le

/-! ## What the file system finds -/

namespace FsState

variable {s : FsState} (hs : s.Mounted) (h : s.img.SpreadWF) {i : ℕ}
include hs h

/-- The object that the file system finds along a path. -/
theorem translate_eq_ok {path : FsPath} (hlen : path.comps.length ≤ maxPathComponents) :
    ((translate path.bytes).run s).1 = .ok i ↔ walk s.img.table.children 2 path.names = some i := by
  rw [(walks_spread hs h).translate_run, Table.translate, FsPath.take_names hlen, ← Table.resolve_eq_ok]
  cases s.img.table.resolve 2 path.names with
  | error e => exact iff_of_false nofun nofun
  | ok j => exact ⟨fun hj => congrArg Except.ok (Res.ok.inj hj),
      fun hj => congrArg Res.ok (Except.ok.inj hj)⟩

omit hs in
/-- The attributes of any object can be given. -/
theorem inodeToStat_spread (hi : Reach s.img.entries 2 i) :
    ∃ st, (inodeToStat (s.img.table.inode i)).run s = (.ok st, s) := by
  have hsize : (s.img.table.inode i).size.toInt ≤ 1019 * 4096 := by
    by_cases hd : (s.img.table.inode i).isDir = true
    · obtain ⟨k, -, hk, hsize⟩ := h.dir hi hd
      omega
    · exact (h.file hi (by simpa using hd)).2.2
  rw [inodeToStat, nblocksOf, if_neg (by omega)]
  exact ⟨_, rfl⟩

/-- The listing of a directory. -/
theorem fsReaddir_spread {path : List UInt8} {leaf : List UInt8} :
    (∃ calls, ((fsReaddir path fun _ => false).run s).1 = .ok calls ∧ ∃ st, (leaf, st) ∈ calls) ↔
      ∃ j, walk s.img.table.children 2 (components path ++ [leaf]) = some j := by
  have hwalk : ∀ {i}, walk s.img.table.children 2 (components path) = some i →
      Reach s.img.entries 2 i := fun hw => (leads_of_walk h hw).reach
  have htrans := (walks_spread hs h).walkFrom_run .root (components path)
  rw [← translate_eq] at htrans
  simp only [walk_concat]
  cases hr : s.img.table.resolve 2 (components path) with
  | error e =>
    rw [hr] at htrans
    have hnone : walk s.img.table.children 2 (components path) = none :=
      Option.eq_none_iff_forall_ne_some.2 fun j hj => by
        rw [Table.resolve_eq_ok.2 hj] at hr
        cases hr
    have herr : ((fsReaddir path fun _ => false).run s).1 = .err e :=
      congrArg Prod.fst (bind_err htrans)
    rw [herr, hnone]
    exact iff_of_false (by simp) (by simp)
  | ok i =>
    rw [hr] at htrans
    have hw := Table.resolve_eq_ok.1 hr
    have hi := hwalk hw
    rw [hw, Option.bind_some, Table.children, fsReaddir, bind_ok htrans,
      bind_ok ((walks_spread hs h).readInode_run hi)]
    by_cases hd : (s.img.table.inode i).isDir = true
    · -- The attributes of the entries can be given.
      have hst : ∀ k, ∃ st, (s.img.table.dir i k).valid = true → ∃ x,
          (readInode (s.img.table.dir i k).inode).run s = (.ok x, s) ∧
            (inodeToStat x).run s = (.ok st, s) := by
        intro k
        by_cases hv : (s.img.table.dir i k).valid = true
        · have hchild := hi.step ((entries_zero h hi).2 ⟨hd, hv, rfl⟩)
          obtain ⟨st, hst⟩ := inodeToStat_spread h hchild
          exact ⟨st, fun _ => ⟨_, (walks_spread hs h).readInode_run hchild, hst⟩⟩
        · exact ⟨⟨0, 0, 0, 0, 0, 0, 0, 0, 0⟩, fun h => absurd h hv⟩
      choose st hst using hst
      rw [bind_failIf_false (by rw [hd]; rfl), bind_ok ((walks_spread hs h).readDir_run hi hd),
        readdirLoop_run hst, if_pos hd]
      have hcalls : (∃ calls, Res.ok ([] ++ ((List.finRange 128).filter fun k =>
          (s.img.table.dir i k).valid).map fun k => (cstr (s.img.table.dir i k).name, st k)) =
            .ok calls ∧ ∃ st, (leaf, st) ∈ calls) ↔
          ∃ k, (s.img.table.dir i k).named leaf = true := by
        simp only [Res.ok.injEq, List.nil_append, exists_eq_left', List.mem_map, List.mem_filter,
          List.mem_finRange, true_and, Prod.mk.injEq, FsDirent.named_iff]
        constructor
        · rintro ⟨_, k, hv, hn, _⟩
          exact ⟨k, hv, hn⟩
        · rintro ⟨k, hv, hn⟩
          exact ⟨st k, k, hv, hn, rfl⟩
      have hfind : ((s.img.table.dir i).find (·.named leaf)).isSome = true ↔
          ∃ k, (s.img.table.dir i k).named leaf = true := DirBlock.find_isSome
      rw [hcalls, ← hfind, ← Option.isSome_iff_exists, Option.isSome_map]
    · rw [bind_failIf_true (by simpa using hd), if_neg hd]
      exact iff_of_false (by rintro ⟨_, ⟨⟩, _⟩) (by simp)

end FsState

/-! ## The agreement of the two -/

/-- Along every path of at most ten components the script visits what `translate` finds, and it visits
    something there if, and only if, `fs_readdir` lists the name in the directory of the path. Names
    longer than those of entries are cut off, as the file system does. -/
structure ReadsAlike (s : FsState) : Prop where
  resolve : ∀ (path : FsPath) (i : ℕ), path.comps.length ≤ maxPathComponents →
    (ReadImg.Visits s.img (ReadImg.joinPath path.names) i ↔ ((translate path.bytes).run s).1 = .ok i)
  list : ∀ (path : FsPath) (leaf : List UInt8), path.comps.length ≤ maxPathComponents →
    path.names.getLast? = some leaf →
    ((∃ i, ReadImg.Visits s.img (ReadImg.joinPath path.names) i) ↔
      ∃ calls, ((fsReaddir (dirname path.bytes) fun _ => false).run s).1 = .ok calls ∧
        ∃ st, (leaf, st) ∈ calls)

/-- The components of the directory of a path. -/
theorem FsPath.components_dirname {path : FsPath} {leaf : List UInt8}
    (hleaf : path.names.getLast? = some leaf) (hlen : path.comps.length ≤ maxPathComponents) :
    components (dirname path.bytes) ++ [leaf] = path.names := by
  have hne : path.comps ≠ [] := by
    intro hnil
    rw [names, hnil] at hleaf
    cases hleaf
  obtain ⟨pre, last, k, hlast, hs, hb⟩ := exists_eq_append path.absolute hne
  have hcomps : path.comps = strtok pre ++ [last] := by rw [comps, hb, strtok_append k hlast hs]
  rw [hcomps, List.length_append, List.length_singleton] at hlen
  rw [names, hcomps, List.map_append, List.map_singleton, List.getLast?_concat] at hleaf
  rw [components, hb, strtok_dirname k hlast hs, List.take_of_length_le (by omega), names, hcomps,
    List.map_append, List.map_singleton, Option.some.inj hleaf]

section Alike

variable {s : FsState} (hs : s.Mounted) (h : s.img.SpreadWF)
include hs h

/-- It is enough that the script visits what `translate` finds. -/
theorem ReadsAlike.of_resolve
    (hres : ∀ (path : FsPath) (i : ℕ), path.comps.length ≤ maxPathComponents →
      (ReadImg.Visits s.img (ReadImg.joinPath path.names) i ↔
        ((translate path.bytes).run s).1 = .ok i)) : ReadsAlike s := by
  refine ⟨hres, fun path leaf hlen hleaf => ?_⟩
  rw [FsState.fsReaddir_spread hs h, FsPath.components_dirname hleaf hlen]
  exact exists_congr fun i => (hres path i hlen).trans (FsState.translate_eq_ok hs h hlen)

/-- The script and the file system agree if entries are in first blocks and names are ASCII. -/
theorem ReadsAlike.of_first (hfirst : s.img.FirstBlocks) (hascii : s.img.AsciiNames) :
    ReadsAlike s := by
  refine .of_resolve hs h fun path i hlen => ?_
  have hlen' : path.names.length ≤ maxPathComponents := (List.length_map _).trans_le hlen
  rw [FsState.translate_eq_ok hs h hlen, ReadImg.visits_iff h hs.le_cap hascii]
  constructor
  · rintro ⟨ns, hl, heq⟩
    -- Paths that are spelled alike have the same names.
    have hns : path.names = ns := by
      have hgood : ∀ c ∈ path.names, GoodName c := fun _ => FsPath.goodName
      rw [← ReadImg.strtok_joinPath hgood, heq,
        ReadImg.strtok_joinPath fun _ => ReadImg.goodName_of_leads h hl]
    exact FsState.walk_of_leads h hfirst (hns ▸ hl) hlen'
  · exact fun hw => ⟨path.names, FsState.leads_of_walk h hw, rfl⟩

/-- If they agree, the script raises no exception. -/
theorem ReadsAlike.exists_iter (hr : ReadsAlike s) :
    ∃ depth visited, ReadImg.iter s.img depth [] 2 = .ok visited := by
  have hgood : ∀ c ∈ ([] : List (List UInt8)), GoodName c := fun _ hc => absurd hc List.not_mem_nil
  have hlen : (FsPath.ofNames [] hgood).comps.length ≤ maxPathComponents := by
    rw [FsPath.comps_ofNames]
    exact Nat.zero_le _
  have hwalk : walk s.img.table.children 2 (FsPath.ofNames [] hgood).names = some 2 := by
    rw [FsPath.names_ofNames]
    rfl
  obtain ⟨depth, visited, hiter, -⟩ :=
    (hr.resolve _ 2 hlen).2 ((FsState.translate_eq_ok hs h hlen).2 hwalk)
  exact ⟨depth, visited, hiter⟩

/-- If they agree, entries that paths lead to are found. -/
theorem ReadsAlike.walk_of_leads (hr : ReadsAlike s) {ns : List (List UInt8)} {j : ℕ}
    (hl : s.img.Leads 2 ns j) (hlen : ns.length ≤ maxPathComponents) :
    walk s.img.table.children 2 ns = some j := by
  obtain ⟨depth, visited, hiter⟩ := hr.exists_iter hs h
  have hgood : ∀ c ∈ ns, GoodName c := fun _ => ReadImg.goodName_of_leads h hl
  have hvisits : ReadImg.Visits s.img (ReadImg.joinPath ns) j :=
    ⟨depth, visited, hiter, ((ReadImg.iter_ok hiter).1 _ j).2 ⟨ns, hl, rfl⟩⟩
  have hlen' : (FsPath.ofNames ns hgood).comps.length ≤ maxPathComponents := by
    rwa [FsPath.comps_ofNames]
  have hres := hr.resolve (FsPath.ofNames ns hgood) j hlen'
  rw [FsState.translate_eq_ok hs h hlen', FsPath.names_ofNames] at hres
  exact hres.1 hvisits

/-- The script and the file system agree if, and only if, entries are in first blocks and names are
    ASCII. -/
theorem readsAlike_iff : ReadsAlike s ↔ s.img.FirstBlocks ∧ s.img.AsciiNames := by
  refine ⟨fun hr => ⟨fun as i a hw hlen ha => ?_, fun i a hi ha => ?_⟩,
    fun hr => .of_first hs h hr.1 hr.2⟩
  · obtain ⟨ns, hl, hns⟩ := Image.exists_leads_of_walk hw
    obtain ⟨j, hj⟩ := Option.isSome_iff_exists.1 ha
    have hl' : s.img.Leads 2 (ns ++ [s.img.entryName i a]) j :=
      Image.leads_concat.2 ⟨i, a, hl, hj, rfl⟩
    -- The file system finds the object of the entry, in the directory.
    have hwi := hr.walk_of_leads hs h hl (by omega)
    have hwj := hr.walk_of_leads hs h hl' (by
      rw [List.length_append, List.length_singleton]
      omega)
    rw [walk_concat, hwi] at hwj
    obtain ⟨k, hk, hname⟩ := (FsState.children_spread h hl.reach).1 hwj
    rw [← h.distinct hl.reach (Option.isSome_of_eq_some hk) ha hname]
  · obtain ⟨as, hw⟩ := reach_iff_walk.1 hi
    obtain ⟨ns, hl, -⟩ := Image.exists_leads_of_walk hw
    obtain ⟨depth, visited, hiter⟩ := hr.exists_iter hs h
    exact (ReadImg.iter_ok hiter).2 ns i a hl ha

end Alike

/-! ## A root directory of two blocks -/

/-- The inode of a root directory of two blocks. -/
def twoPageRoot : FsInode :=
  { rootInode with size := 8192, ptrs := fun k => if k.1 < 2 then UInt32.ofNat (3 + k) else 0 }

/-- The inode of an empty file. -/
def emptyFileInode : FsInode :=
  { rootInode with mode := 0o100666, size := 0, ptrs := fun _ => 0 }

/-- A block of directory entries with an entry of the name `a`. -/
def pageA : DirBlock := (DirBlock.decode Block.zero).add 0 5 [97]

/-- An image of a root directory of two blocks, with the empty file `/a` in the block `b` of it. -/
def Image.twoPages (b : ℕ) : Image where
  nblocks := 6
  block
    | 0 => (formatSuper 6).encode
    | 1 => (List.range 6).foldl bitSet Block.zero
    | 2 => twoPageRoot.encode
    | 3 => if b = 0 then pageA.encode else Block.zero
    | 4 => if b = 1 then pageA.encode else Block.zero
    | 5 => emptyFileInode.encode
    | _ => Block.zero

namespace Image

variable {b i j : ℕ} {a : ℕ × Fin 128}

theorem twoPages_inode_root : (twoPages b).table.inode 2 = twoPageRoot := FsInode.decode_encode _

theorem twoPages_inode_file : (twoPages b).table.inode 5 = emptyFileInode := FsInode.decode_encode _

theorem isDir_twoPageRoot : twoPageRoot.isDir = true := by decide

theorem pages_twoPageRoot : twoPageRoot.pages = 2 := by decide

theorem ptrAt_twoPageRoot {k : ℕ} (hk : k < 2) : twoPageRoot.ptrAt k = 3 + k := by
  obtain rfl | rfl : k = 0 ∨ k = 1 := by omega
  · rfl
  · rfl

theorem twoPages_page {k : ℕ} (hk : k < 2) :
    (twoPages b).page 2 k = if b = k then pageA else .decode Block.zero := by
  rw [page, twoPages_inode_root, ptrAt_twoPageRoot hk]
  have hblock : (twoPages b).block (3 + k) = if b = k then pageA.encode else Block.zero := by
    obtain rfl | rfl : k = 0 ∨ k = 1 := by omega
    · rfl
    · rfl
  rw [hblock]
  split_ifs with hb
  · exact DirBlock.decode_encode _
  · rfl

/-- The only entry of the root. -/
theorem twoPages_entries_root (hb : b < 2) :
    (twoPages b).entries 2 a = some j ↔ a = (b, 0) ∧ j = 5 := by
  obtain ⟨k, l⟩ := a
  rw [entries_eq_some, twoPages_inode_root, pages_twoPageRoot, and_iff_right isDir_twoPageRoot]
  constructor
  · rintro ⟨hk, hv, hj⟩
    rw [twoPages_page hk] at hv hj
    split_ifs at hv hj with hbk
    · obtain rfl := valid_add_decode_zero.1 hv
      exact ⟨congrArg (·, 0) hbk.symm, hj.symm⟩
    · rw [valid_decode_zero] at hv
      cases hv
  · rintro ⟨ha, rfl⟩
    obtain ⟨rfl, rfl⟩ := Prod.mk.inj ha
    rw [twoPages_page hb, if_pos rfl]
    exact ⟨hb, valid_add_decode_zero.2 rfl, rfl⟩

theorem twoPages_entryName (hb : b < 2) : (twoPages b).entryName 2 (b, 0) = [97] := by
  rw [entryName, twoPages_page hb, if_pos rfl]
  exact cstr_strncpy (by decide) (by decide)

theorem twoPages_entries_file : (twoPages b).entries 5 a = none :=
  if_neg fun h => by
    rw [twoPages_inode_file] at h
    exact absurd h.1 (by decide)

/-- The root and the file are the only objects. -/
theorem reach_twoPages (hb : b < 2) : Reach (twoPages b).entries 2 i ↔ i = 2 ∨ i = 5 := by
  constructor
  · intro hi
    induction hi with
    | root => exact .inl rfl
    | step _ hj ih =>
      rcases ih with rfl | rfl
      · exact .inr ((twoPages_entries_root hb).1 hj).2
      · rw [twoPages_entries_file] at hj
        cases hj
  · rintro (rfl | rfl)
    · exact .root
    · exact Reach.root.step ((twoPages_entries_root hb).2 ⟨rfl, rfl⟩)

/-- The only entry of the image. -/
theorem twoPages_entries (hb : b < 2) (hi : Reach (twoPages b).entries 2 i) :
    (twoPages b).entries i a = some j ↔ i = 2 ∧ a = (b, 0) ∧ j = 5 := by
  rcases (reach_twoPages hb).1 hi with rfl | rfl
  · rw [twoPages_entries_root hb]
    exact (and_iff_right rfl).symm
  · rw [twoPages_entries_file]
    exact iff_of_false nofun fun h => absurd h.1 (by decide)

/-- The blocks of the image, each with what uses it. -/
theorem twoPages_uses (hb : b < 2) (hi : Reach (twoPages b).entries 2 i) {r : Role} {c : ℕ}
    (hu : (twoPages b).Uses i r c) :
    (i = 2 ∧ r = .inode ∧ c = 2) ∨ (i = 2 ∧ ∃ k, r = .ptr k ∧ k.1 < 2 ∧ c = 3 + k) ∨
      (i = 5 ∧ r = .inode ∧ c = 5) := by
  rcases (reach_twoPages hb).1 hi with rfl | rfl
  · cases r with
    | inode => exact .inl ⟨rfl, rfl, hu⟩
    | ptr k =>
      rw [Uses, twoPages_inode_root, pages_twoPageRoot] at hu
      have hptr : twoPageRoot.ptrs k = UInt32.ofNat (3 + k) := if_pos hu.1
      refine .inr (.inl ⟨rfl, k, rfl, hu.1, hu.2.trans ?_⟩)
      rw [hptr, UInt32.toNat_ofNat', Nat.mod_eq_of_lt (by omega)]
  · cases r with
    | inode => exact .inr (.inr ⟨rfl, rfl, hu⟩)
    | ptr k =>
      rw [Uses, twoPages_inode_file] at hu
      have hpages : emptyFileInode.pages = 0 := by decide
      omega

theorem twoPages_lt {c : ℕ} (hc : c < 6) : c < (twoPages b).nblocks := hc

theorem twoPages_spreadWF (hb : b < 2) : (twoPages b).SpreadWF where
  root := by rw [twoPages_inode_root, isDir_twoPageRoot]
  tree :=
    { root_ne := fun hx h => absurd ((twoPages_entries hb hx).1 h).2.2 (by decide)
      unique := fun hx hy h h' => by
        obtain ⟨rfl, rfl, -⟩ := (twoPages_entries hb hx).1 h
        obtain ⟨rfl, rfl, -⟩ := (twoPages_entries hb hy).1 h'
        exact ⟨rfl, rfl⟩ }
  file := fun hi hd => by
    rcases (reach_twoPages hb).1 hi with rfl | rfl
    · rw [twoPages_inode_root, isDir_twoPageRoot] at hd
      cases hd
    · rw [twoPages_inode_file]
      decide
  dir := fun hi hd => by
    rcases (reach_twoPages hb).1 hi with rfl | rfl
    · rw [twoPages_inode_root]
      exact ⟨2, by decide⟩
    · rw [twoPages_inode_file] at hd
      cases hd
  used := fun hi hu => by
    -- All of its blocks are marked.
    have hmarked : ∀ {c}, c < 6 → (twoPages b).table.marked c = true := by
      intro c hc
      change bitTest ((List.range 6).foldl bitSet Block.zero) c = true
      rw [bitTest_foldl_bitSet (by decide), decide_eq_true (List.mem_range.2 hc), Bool.true_or]
    rcases twoPages_uses hb hi hu with ⟨-, -, rfl⟩ | ⟨-, k, -, hk, rfl⟩ | ⟨-, -, rfl⟩
    · exact ⟨le_rfl, twoPages_lt (by decide), hmarked (by decide)⟩
    · have hlt : 3 + k.1 < 6 := by omega
      exact ⟨by omega, hlt, hmarked hlt⟩
    · exact ⟨by decide, twoPages_lt (by decide), hmarked (by decide)⟩
  disjoint := fun hi hj hu hu' => by
    rcases twoPages_uses hb hi hu with ⟨rfl, rfl, rfl⟩ | ⟨rfl, k, rfl, hk, rfl⟩ | ⟨rfl, rfl, rfl⟩ <;>
      rcases twoPages_uses hb hj hu' with ⟨rfl, rfl, hc⟩ | ⟨rfl, l, rfl, hl, hc⟩ | ⟨rfl, rfl, hc⟩
    · exact ⟨rfl, rfl⟩
    · omega
    · omega
    · omega
    · exact ⟨rfl, congrArg _ (Fin.ext (by omega))⟩
    · omega
    · omega
    · omega
    · exact ⟨rfl, rfl⟩
  names := fun hi ha => by
    obtain ⟨j, hj⟩ := Option.isSome_iff_exists.1 ha
    obtain ⟨rfl, rfl, -⟩ := (twoPages_entries hb hi).1 hj
    rw [twoPages_entryName hb]
    exact ⟨by decide, by decide, by decide, by decide⟩
  distinct := fun hi ha ha' _ => by
    obtain ⟨j, hj⟩ := Option.isSome_iff_exists.1 ha
    obtain ⟨j', hj'⟩ := Option.isSome_iff_exists.1 ha'
    rw [((twoPages_entries hb hi).1 hj).2.1, ((twoPages_entries hb hi).1 hj').2.1]

end Image

theorem FsState.mount_mounted {img : Image}
    (hsize : (FsSuper.decode (img.block 0)).diskSize.toNat = img.nblocks) (h3 : 3 ≤ img.nblocks)
    (hcap : img.nblocks ≤ 32768) : (mount img).Mounted := ⟨rfl, rfl, hsize, h3, hcap⟩

theorem Image.mounted_twoPages (b : ℕ) : (FsState.mount (twoPages b)).Mounted :=
  FsState.mount_mounted (congrArg (·.diskSize.toNat) (FsSuper.decode_encode (formatSuper 6)))
    (twoPages_lt (by decide)).le (by change 6 ≤ 32768; decide)

/-- With the entry in the first block, the script and the file system agree. -/
theorem readsAlike_twoPages : ReadsAlike (.mount (Image.twoPages 0)) := by
  have h0 : 0 < 2 := Nat.two_pos
  refine (readsAlike_iff (Image.mounted_twoPages 0) (Image.twoPages_spreadWF h0)).2
    ⟨fun as i a hw _ ha => ?_, fun i a hi ha => ?_⟩
  · obtain ⟨j, hj⟩ := Option.isSome_iff_exists.1 ha
    rw [((Image.twoPages_entries h0 (Reach.root.walk hw)).1 hj).2.1]
  · obtain ⟨j, hj⟩ := Option.isSome_iff_exists.1 ha
    obtain ⟨rfl, rfl, -⟩ := (Image.twoPages_entries h0 hi).1 hj
    change Ascii ((Image.twoPages 0).entryName 2 (0, 0))
    rw [Image.twoPages_entryName h0]
    exact fun c hc => List.mem_singleton.1 hc ▸ by decide

/-- With the entry in the second block, the script finds a file that the file system does not find. -/
theorem not_readsAlike_twoPages : (FsState.mount (Image.twoPages 1)).Mounted ∧
    (Image.twoPages 1).SpreadWF ∧ ¬ReadsAlike (.mount (Image.twoPages 1)) := by
  have h1 : 1 < 2 := Nat.one_lt_two
  have hs := Image.mounted_twoPages 1
  have h := Image.twoPages_spreadWF h1
  refine ⟨hs, h, fun hr => ?_⟩
  have hentry : (Image.twoPages 1).entries 2 (1, 0) = some 5 :=
    (Image.twoPages_entries_root h1).2 ⟨rfl, rfl⟩
  have hleads : (Image.twoPages 1).Leads 2 [[97]] 5 :=
    ⟨(1, 0), 5, hentry, Image.twoPages_entryName h1, rfl⟩
  have hwalk := hr.walk_of_leads hs h hleads (by decide)
  obtain ⟨j, hj, -⟩ := Option.bind_eq_some_iff.1 hwalk
  obtain ⟨k, hk, -⟩ := (FsState.children_spread h .root).1 hj
  exact absurd (Prod.mk.inj ((Image.twoPages_entries_root h1).1 hk).1).1 (by decide)

end Cs5600
