import Cs5600.Described
import Cs5600.Report

/-!
# From descriptions to reports

Three programs work on images: `gen-disk.py` makes one of a description, the file system loads it and
works on it, and `read-img.py` shows what is in it. They agree on what an image means: the image of a
description is the volume that is described (`Written.volume_eq`), calls on it are calls of that
volume, and what is reported in the end is the volume that the calls lead to
(`described_reported`).
-/

namespace Cs5600

open LabelledGraph Py DiskFmt Traces

namespace GenDisk

/-! ## The volume of a description -/

variable (x : Script) (content : ℤ → ℕ → Block)

/-- What is described of an object. -/
def Item.node (f : Item) : Node :=
  match f.kind with
  | .file => .file f.fsInode.attrs (f.data content)
  | .dir _ => .dir f.fsInode.attrs

open Classical in
/-- The volume that is described: what names lead to along the entries, and the blocks of no object. -/
noncomputable def Script.volume : Volume where
  tree ns := if h : ∃ f, x.Describes ns f then some (h.choose.node content) else none
  free := x.nblocks.toNat - 2 - x.numbers.length
  blocks := x.nblocks.toNat

/-- All directories are of one block. -/
def Script.PageDirs : Prop := ∀ f ∈ x.items, f.kind ≠ .file → f.size = 4096

namespace Written

variable {x} {content} {img : Image} (hw : Written x content img) (hv : x.Valid)
include hw hv

/-- Names lead to what is described, and to nothing else. -/
theorem walk_iff {ns : List (List UInt8)} {i : ℕ} : walk img.table.children 2 ns = some i ↔
    ∃ f, x.Describes ns f ∧ f.inum.toNat = i := by
  refine ⟨fun h => ?_, fun ⟨f, hd, hi⟩ => hi ▸ walk_describes (s := .mount img) hw hv hd⟩
  have hwf := (hw.wf hv).table
  induction ns using List.reverseRecOn generalizing i with
  | nil =>
    obtain ⟨f, hf, h2, -⟩ := hv.root
    refine ⟨f, .root hf h2, ?_⟩
    rw [h2]
    exact Option.some.inj h
  | append_singleton ns c ih =>
    rw [walk_concat] at h
    obtain ⟨j, hj, hchild⟩ := Option.bind_eq_some_iff.1 h
    obtain ⟨f, hd, rfl⟩ := ih hj
    obtain ⟨k, hk, rfl⟩ := (hwf.children_eq_some (hwf.live_of_walk hj)).1 hchild
    obtain ⟨e, g, he, hev, hg, heg, rfl⟩ := (hw.slots_eq_some hv hd.mem).1 hk
    -- The entry in that slot is the described one, with its name.
    obtain ⟨hdir, hvalid, -⟩ := Table.slots_eq_some.1 hk
    obtain ⟨e', he', -, hs⟩ := hw.exists_entry hv hd.mem hdir hvalid
    obtain rfl := Option.some.inj (he.symm.trans he')
    have hmem := List.mem_of_getElem? he
    rw [hs.name ((hv.good f hd.mem).names e hmem hev).nul_notMem]
    exact ⟨g, .child hd hmem hev hg heg, rfl⟩

theorem node_item {f : Item} (hf : f ∈ x.items) : img.node f.inum.toNat = f.node content := by
  have hdir := isDir_iff (hv.good f hf)
  rw [Image.node, Image.nodeOf, hw.table_inode hv hf, Item.node]
  cases hk : f.kind with
  | file =>
    rw [if_neg (by rw [hdir, hk]; exact fun h => h rfl)]
    exact congrArg _ (content_fsInode (s := .mount img) hw hv hf hk)
  | dir es => exact if_pos (hdir.2 (by rw [hk]; exact Kind.noConfusion))

omit hw in
/-- The numbers of the described blocks are not negative. -/
theorem mem_toNat {b : ℕ} : b ∈ x.numbers.map Int.toNat ↔ (b : ℤ) ∈ x.numbers := by
  rw [List.mem_map]
  constructor
  · rintro ⟨c, hc, rfl⟩
    have hr := hv.range c hc
    rwa [Int.toNat_of_nonneg (by omega)]
  · exact fun hb => ⟨b, hb, Int.toNat_natCast b⟩

omit hw in
theorem nodup_marked : (0 :: 1 :: x.numbers.map Int.toNat).Nodup := by
  have hge : ∀ b ∈ x.numbers.map Int.toNat, 2 ≤ b := by
    intro b hb
    have hr := hv.range b ((mem_toNat hv).1 hb)
    omega
  refine List.nodup_cons.2 ⟨fun h0 => ?_, List.nodup_cons.2 ⟨fun h1 => ?_, hv.nodup_toNat⟩⟩
  · rcases List.mem_cons.1 h0 with h0 | h0
    · cases h0
    · exact absurd (hge 0 h0) (by decide)
  · exact absurd (hge 1 h1) (by decide)

/-- The marked blocks are the first two, and those that are described. -/
theorem length_marked : ((List.range img.nblocks).filter (bitTest (img.block 1))).length =
    x.numbers.length + 2 := by
  have hn := hw.nblocks
  have h3 := hv.three_le
  have hcap := hv.le
  have hperm : ((List.range img.nblocks).filter (bitTest (img.block 1))).Perm
      (0 :: 1 :: x.numbers.map Int.toNat) := by
    refine (List.perm_ext_iff_of_nodup (List.nodup_range.filter _) (nodup_marked hv)).2 fun b => ?_
    rw [List.mem_filter, List.mem_range, List.mem_cons, List.mem_cons, mem_toNat hv]
    constructor
    · rintro ⟨hlt, hb⟩
      exact (hw.marked b (by omega)).1 hb
    · intro hb
      have hlt : b < img.nblocks := by
        rcases hb with rfl | rfl | hb
        · omega
        · omega
        · have hr := hv.range b hb
          omega
      exact ⟨hlt, (hw.marked b (by omega)).2 hb⟩
  rw [hperm.length_eq, List.length_cons, List.length_cons, List.length_map]

/-- The image of a description is the volume that is described. -/
theorem volume_eq : img.volume = x.volume content := by
  have hn : img.nblocks = x.nblocks.toNat := by
    have := hw.nblocks
    omega
  have htree : img.tree = (x.volume content).tree := by
    funext ns
    by_cases h : ∃ f, x.Describes ns f
    · refine Eq.trans ?_ (dif_pos h).symm
      rw [Image.tree, (hw.walk_iff hv).2 ⟨_, h.choose_spec, rfl⟩]
      exact congrArg some (hw.node_item hv h.choose_spec.mem)
    · refine Eq.trans ?_ (dif_neg h).symm
      rw [Image.tree, Option.map_eq_none_iff, Option.eq_none_iff_forall_ne_some]
      intro i hi
      obtain ⟨f, hd, -⟩ := (hw.walk_iff hv).1 hi
      exact h ⟨f, hd⟩
  have hused := hw.length_marked hv
  have hlen := Image.length_marked (hw.wf hv)
  refine Volume.ext htree ?_ hn
  change img.free.length = x.nblocks.toNat - 2 - x.numbers.length
  omega

/-- The directories of the image have the described sizes. -/
theorem pageDirs (hp : x.PageDirs) : img.PageDirs := by
  intro i hi hd
  obtain ⟨f, hf, rfl⟩ := hw.exists_item hv hi
  rw [hw.table_inode hv hf] at hd ⊢
  rw [toInt_size hv hf, hp f hf ((isDir_iff (hv.good f hf)).1 hd)]

/-- The names of the image are the described ones. -/
theorem asciiTree : img.AsciiTree := by
  refine Image.asciiTree_of_nameAt (hw.wf hv) fun {i j k} hi hk => ?_
  obtain ⟨f, hf, rfl⟩ := hw.exists_item hv hi
  obtain ⟨hd, hvalid, -⟩ := Table.slots_eq_some.1 hk
  obtain ⟨e, he, hev, hs⟩ := hw.exists_entry hv hf hd hvalid
  have hmem := List.mem_of_getElem? he
  rw [Image.nameAt, hs.name ((hv.good f hf).names e hmem hev).nul_notMem]
  intro b hb
  obtain ⟨c, hc, rfl⟩ := List.mem_map.1 hb
  have hlt := ((hv.good f hf).ascii e hmem).2 c hc
  rw [UInt8.lt_iff_toNat_lt, UInt8.toNat_ofNat', Nat.mod_eq_of_lt (by omega)]
  exact hlt

end Written

/-- The superblock has the magic number. -/
theorem magic_genDisk {lines : List (List Char)} {bs : List Block}
    (h : genDisk content lines = .ok bs) :
    (FsSuper.decode ((toImage bs).block 0)).magic = ReadImg.magicNumber := by
  obtain ⟨x, -, h⟩ := Py.bind_eq_ok.1 h
  obtain ⟨m, -, h⟩ := Py.bind_eq_ok.1 h
  obtain ⟨m', -, h⟩ := Py.bind_eq_ok.1 h
  obtain ⟨rest, -, h⟩ := Py.bind_eq_ok.1 h
  rw [← Except.ok.inj h]
  exact congrArg FsSuper.magic (decode_super ⟨0x30303635, x.nblocks⟩)

/-! ## All three programs -/

/-- What is described is what the calls work on, and what they make of it is what is reported. -/
theorem described_reported (content : ℤ → ℕ → Block) {lines : List (List Char)} {x : Script}
    (hparse : parse lines = .ok x) (hv : x.Valid) (hp : x.PageDirs) :
    ∃ bs, genDisk content lines = .ok bs ∧ ∀ s : FsState, s.img = toImage bs →
      (fsInit.run s).1 = .ok () ∧ ∀ {cs s'}, Trace FsState.Calls (fsInit.run s).2 cs s' →
        (Trace Volume.Calls (x.volume content) cs s'.img.volume ∧ ∀ c ∈ cs, ∀ t, c.result ≠ .fault t) ∧
          (s'.img.AsciiTree → ∀ depth (hdepth : s'.img.nblocks ≤ depth), ∃ hwf : s'.img.WF,
            ReadImg.script s'.img depth = .ok (s'.img.report hwf depth hdepth).lines) := by
  obtain ⟨bs, hbs, hw⟩ := exists_genDisk content hparse hv
  refine ⟨bs, hbs, fun s himg => ?_⟩
  have hmagic := magic_genDisk content hbs
  rw [← himg] at hw hmagic
  have hwf := hw.wf hv
  have hinit := FsState.fsInit_run (le_trans (by decide) hwf.table.three_le)
  have hloaded := wf_fsInit hwf
  refine ⟨congrArg Prod.fst hinit, fun {cs s'} ht => ?_⟩
  rw [hinit] at ht hloaded
  have hdirs := hw.pageDirs hv hp
  have hshows : FsState.Shows _ (x.volume content) :=
    ⟨hloaded, fun hi hd => (hdirs _ hi hd).le, hw.volume_eq hv⟩
  obtain ⟨v, htrace, -, -, rfl⟩ := hshows.trace ht
  refine ⟨⟨htrace, Volume.ne_fault_of_trace htrace⟩, fun hascii depth hdepth => ?_⟩
  obtain ⟨hwf', hblock, hdirs'⟩ := reportable_trace hloaded hdirs ht
  exact ⟨hwf'.img, Image.script_eq hwf'.img (by rw [hblock]; exact hmagic) hdirs' hascii hdepth⟩

/-- The description with a file, from which a call goes on, and its report. -/
theorem described_reported_wideUid : ∃ x bs, parse wideUid = .ok x ∧
    genDisk (fun _ _ => Block.zero) wideUid = .ok bs ∧
      (∃ r s', Trace Volume.Calls (x.volume fun _ _ => Block.zero)
        [⟨⟨500, 500, 0⟩, .chmod pathA 0o600, r⟩] (FsState.img s').volume) ∧
      ∃ (hwf : (toImage bs).WF) (hdepth : (toImage bs).nblocks ≤ 6),
        ReadImg.script (toImage bs) 6 = .ok ((toImage bs).report hwf 6 hdepth).lines := by
  obtain ⟨x, hparse, hn, hi⟩ := parse_wideUid
  have hv := valid_wideUid hn hi
  have hp : x.PageDirs := by
    intro f hf hk
    rw [hi] at hf
    rcases List.mem_pair.1 hf with rfl | rfl
    · exact absurd rfl hk
    · rfl
  obtain ⟨bs, hbs, hend⟩ := described_reported (fun _ _ => Block.zero) hparse hv hp
  obtain ⟨bs', hbs', hw⟩ := exists_genDisk (fun _ _ => Block.zero) hparse hv
  obtain rfl := Except.ok.inj (hbs.symm.trans hbs')
  obtain ⟨-, hruns⟩ := hend (.mount (toImage bs)) rfl
  have hallows : ∀ v : Volume, v.Allows (.chmod pathA 0o600) := fun _ => trivial
  refine ⟨x, bs, hparse, hbs, ⟨_, _, (hruns (.single ⟨hallows _, rfl⟩)).1.1⟩, ?_⟩
  have himg : (fsInit.run (FsState.mount (toImage bs))).2.img = toImage bs := by
    rw [FsState.fsInit_run (le_trans (by decide) (hw.wf hv).table.three_le)]
    rfl
  have hreport := (hruns .nil).2
  rw [himg] at hreport
  have hnblocks := hw.nblocks
  obtain ⟨hwf, h⟩ := hreport (hw.asciiTree hv) 6 (by omega)
  exact ⟨hwf, _, h⟩

end GenDisk

end Cs5600
