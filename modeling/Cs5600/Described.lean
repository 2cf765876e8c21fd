import Cs5600.GenDisk
import Cs5600.Remount

/-!
# What images mean

An image that `gen-disk.py` makes of a description means to the file system what the
description says, once `fs_init` has loaded it (`genDisk_means`): the blocks of the objects are
marked, next to those of the superblock and the bitmap, and along every path of names the
operations find the attributes, the entries and the bytes that are described. Numbers count as far as
the fields of inodes hold them.

The script writes what it has noted for each block (`Written`), as far as that can be made
(`encodes_iff`). From that the objects of the image are read back one by one
(`Written.table_inode`, `Written.table_dir`, `Written.block_data`), so that the image is
well-formed (`Written.wf`).
-/

namespace Cs5600

open LabelledGraph FsM Py DiskFmt

namespace GenDisk

/-! ## Descriptions -/

/-- The number of a field, if it is one. -/
def Field.val : Field → ℤ
  | num v => v
  | str _ => 0

/-- The bytes of the name of an entry. -/
def Entry.bytes (e : Entry) : List UInt8 := e.name.map fun c => UInt8.ofNat c.toNat

/-- The entries of an object: those of a directory. -/
def Item.entries (f : Item) : List Entry :=
  match f.kind with
  | .file => []
  | .dir es => es

/-- The inode of an object. Numbers are as the fields of inodes are. -/
def Item.fsInode (f : Item) : FsInode where
  uid := UInt16.ofInt f.uid.val
  gid := UInt16.ofInt f.gid.val
  mode := UInt32.ofInt f.mode.val
  ctime := UInt32.ofInt f.ctime.val
  mtime := UInt32.ofInt f.mtime.val
  size := Int32.ofInt f.size
  ptrs k := UInt32.ofInt (f.blocks.getD k 0)

/-- All objects. -/
def Script.items (x : Script) : List Item := x.files ++ x.dirs

/-- The blocks of all objects. -/
def Script.numbers (x : Script) : List ℤ := x.items.flatMap Item.numbers

/-- What is supposed of a file or a directory by itself. -/
structure Item.Good (f : Item) : Prop where
  /-- The attributes are given through symbols. -/
  attrs : ∀ a ∈ [f.uid, f.gid, f.mode, f.ctime, f.mtime], a = .num a.val
  file : f.kind = .file → f.fsInode.isReg = true ∧ 0 ≤ f.size ∧
    f.blocks.length = max 1 ((f.size + 4095) / 4096).toNat
  dir : f.kind ≠ .file → f.fsInode.isDir = true ∧ -2 ^ 31 ≤ f.size ∧ f.size + 4096 < 2 ^ 31 ∧
    f.blocks.length = 1
  entries : f.entries.length ≤ 128
  ascii : ∀ e ∈ f.entries, e.name.length ≤ maxNameLen ∧ ∀ c ∈ e.name, c.toNat < 128
  names : ∀ e ∈ f.entries, e.valid = true → GoodName e.bytes
  distinct : ∀ {k l : ℕ} {e e' : Entry}, f.entries[k]? = some e → f.entries[l]? = some e' →
    e.valid = true → e'.valid = true → e.bytes = e'.bytes → k = l

/-- What is supposed of a description. -/
structure Script.Valid (x : Script) : Prop where
  three_le : 3 ≤ x.nblocks
  le : x.nblocks ≤ 400
  nodup : x.numbers.Nodup
  range : ∀ b ∈ x.numbers, 2 ≤ b ∧ b < x.nblocks
  root : ∃ f ∈ x.items, f.inum = 2 ∧ f.kind ≠ .file
  good : ∀ f ∈ x.items, f.Good
  object : ∀ f ∈ x.items, ∀ e ∈ f.entries, e.valid = true →
    e.inum ≠ 2 ∧ ∃ g ∈ x.items, g.inum = e.inum
  once : ∀ f ∈ x.items, ∀ g ∈ x.items, ∀ {k l : ℕ} {e e' : Entry}, f.entries[k]? = some e →
    g.entries[l]? = some e' → e.valid = true → e'.valid = true → e.inum = e'.inum → f = g ∧ k = l

/-! ## The blocks of objects -/

/-- A directory entry that is as described. -/
structure Entry.Shown (e : Entry) (d : FsDirent) : Prop where
  valid : d.valid = e.valid
  inode : d.inode.1 = (e.inum % 2 ^ 31).toNat
  name : 0 ∉ e.bytes → cstr d.name = e.bytes

theorem exists_inode {f : Item} (hattrs : ∀ a ∈ [f.uid, f.gid, f.mode, f.ctime, f.mtime], a = .num a.val)
    (hlen : f.blocks.length ≤ 1019) : ∃ b, f.inode = .ok b ∧ FsInode.decode b = f.fsInode := by
  simp only [List.forall_mem_cons] at hattrs
  obtain ⟨huid, hgid, hmode, hctime, hmtime, -⟩ := hattrs
  rw [Item.inode, huid, hgid, hmode, hctime, hmtime]
  exact ⟨_, if_neg (Nat.not_lt.2 hlen), decode_inode _⟩

/-- The directory entries are filled in one after the other. -/
theorem exists_putEntry {es : List Entry} (st : Block × Dirent × ℕ) {i : ℕ}
    (hes : ∀ e ∈ es, e.name.length ≤ maxNameLen ∧ ∀ c ∈ e.name, c.toNat < 128)
    (hst : st.2.2 = 32 * i) (hlen : i + es.length ≤ 128) :
    ∃ st', es.foldlM putEntry st = .ok st' ∧
      (∀ k : Fin 128, k.1 < i ∨ i + es.length ≤ k.1 →
        DirBlock.decode st'.1 k = DirBlock.decode st.1 k) ∧
      ∀ (k : Fin 128) (e : Entry), i ≤ k.1 → es[k.1 - i]? = some e →
        e.Shown (DirBlock.decode st'.1 k) := by
  induction es generalizing st i with
  | nil => exact ⟨st, rfl, fun _ _ => rfl, fun k e _ he => by simp at he⟩
  | cons e es ih =>
    rw [List.length_cons] at hlen
    obtain ⟨hshort, hascii⟩ := hes e List.mem_cons_self
    have henc : encodeAscii e.name = .ok e.bytes :=
      if_pos (List.all_eq_true.2 fun c hc => decide_eq_true (hascii c hc))
    obtain ⟨name, hname, hcstr⟩ := exists_setName st.2.1.name
      (show e.bytes.length ≤ maxNameLen from (List.length_map _).trans_le hshort)
    -- The entry is put into the slot `i`.
    let de : Dirent := ⟨e.valid, e.inum, name⟩
    have hput : putEntry st e = .ok (st.1.patch (32 * i) de.bytes, de, 32 * (i + 1)) := by
      rw [putEntry, henc]
      change (do let name ← setName st.2.1.name e.bytes; _) = _
      rw [hname, Nat.mul_succ, ← hst]
      rfl
    have hslot := decode_patch st.1 ⟨i, by omega⟩ de
    -- The entries after it are put into the slots after it.
    obtain ⟨st', hrun, hrest, hshown⟩ := ih (i := i + 1) (st.1.patch (32 * i) de.bytes, de, 32 * (i + 1))
      (fun e he => hes e (List.mem_cons_of_mem _ he)) rfl (by omega)
    refine ⟨st', ?_, fun k hk => ?_, fun k e' hik he' => ?_⟩
    · rw [List.foldlM_cons, hput]
      exact hrun
    · rw [List.length_cons] at hk
      rw [hrest k (by omega)]
      refine (congrFun hslot k).trans (Function.update_of_ne (fun h => ?_) _ _)
      have := congrArg Fin.val h
      simp only at this
      omega
    · by_cases hki : k.1 = i
      · have hk : k = ⟨i, by omega⟩ := Fin.ext hki
        rw [hki, Nat.sub_self, List.getElem?_cons_zero, Option.some.injEq] at he'
        subst he'
        rw [hrest k (by omega)]
        have hd : DirBlock.decode (st.1.patch (32 * i) de.bytes) k = de.toFs := by
          rw [hk]
          exact (congrFun hslot _).trans (Function.update_self ..)
        rw [hd]
        exact ⟨rfl, rfl, hcstr⟩
      · refine hshown k e' (by omega) ?_
        have hsub : k.1 - i = k.1 - (i + 1) + 1 := by omega
        rwa [hsub, List.getElem?_cons_succ] at he'

/-- The entries of a directory. -/
theorem exists_dirBlock {f : Item} (hf : f.Good) : ∃ b, dirBlock f.entries 0 = .ok b ∧
    (∀ k : Fin 128, f.entries.length ≤ k.1 → (DirBlock.decode b k).valid = false) ∧
      ∀ (k : Fin 128) (e : Entry), f.entries[k.1]? = some e → e.Shown (DirBlock.decode b k) := by
  have htake : (f.entries.drop (0 * 128)).take 128 = f.entries := by
    rw [Nat.zero_mul, List.drop_zero, List.take_of_length_le hf.entries]
  obtain ⟨st, hrun, hrest, hshown⟩ := exists_putEntry (i := 0) (Block.zero, .new, 0)
    hf.ascii rfl ((Nat.zero_add _).trans_le hf.entries)
  refine ⟨st.1, ?_, fun k hk => ?_, fun k e he => hshown k e (Nat.zero_le _) he⟩
  · rw [dirBlock, htake, hrun]
    rfl
  · rw [hrest k (.inr ((Nat.zero_add _).trans_le hk)), Image.valid_decode_zero]

/-! ## What can be written -/

/-- The name of an entry fits into its field. -/
def Entry.Encodes (e : Entry) : Prop :=
  (∀ c ∈ e.name, c.toNat < 128) ∧ (e.bytes.takeWhile (· ≠ 0)).length ≤ 28

/-- The script can make the inode and the blocks of an object. -/
structure Item.Encodes (f : Item) : Prop where
  attrs : ∀ a ∈ [f.uid, f.gid, f.mode, f.ctime, f.mtime], a = .num a.val
  length_le : f.blocks.length ≤ 1019
  entries : ∀ k < f.blocks.length, ∀ e ∈ (f.entries.drop (k * 128)).take 128, e.Encodes

theorem Item.Good.encodes {f : Item} (hf : f.Good) (hlen : f.blocks.length ≤ 1019) : f.Encodes where
  attrs := hf.attrs
  length_le := hlen
  entries k _ e he := by
    obtain ⟨hshort, hascii⟩ := hf.ascii e (List.mem_of_mem_drop (List.mem_of_mem_take he))
    have hle := (List.takeWhile_prefix (l := e.bytes) (· ≠ 0)).length_le
    have hbytes : e.bytes.length = e.name.length := List.length_map _
    refine ⟨hascii, hle.trans (hbytes.trans_le (hshort.trans (by decide)))⟩

theorem exists_putEntry_iff {st : Block × Dirent × ℕ} {e : Entry} :
    (∃ st', putEntry st e = .ok st') ↔ e.Encodes := by
  constructor
  · rintro ⟨st', h⟩
    obtain ⟨name, hname, h⟩ := bind_eq_ok.1 h
    obtain ⟨field, hfield, -⟩ := bind_eq_ok.1 h
    rw [encodeAscii] at hname
    split_ifs at hname with hascii
    obtain rfl := Except.ok.inj hname
    rw [setName] at hfield
    split_ifs at hfield with hlen
    exact ⟨fun c hc => of_decide_eq_true (List.all_eq_true.1 hascii c hc), Nat.not_lt.1 hlen⟩
  · rintro ⟨hascii, hlen⟩
    have henc : encodeAscii e.name = .ok e.bytes :=
      if_pos (List.all_eq_true.2 fun c hc => decide_eq_true (hascii c hc))
    exact ⟨_, bind_eq_ok.2 ⟨_, henc, bind_eq_ok.2 ⟨_, if_neg (Nat.not_lt.2 hlen), rfl⟩⟩⟩

theorem exists_foldlM_putEntry {es : List Entry} {st : Block × Dirent × ℕ} :
    (∃ st', es.foldlM putEntry st = .ok st') ↔ ∀ e ∈ es, e.Encodes := by
  induction es generalizing st with
  | nil => exact iff_of_true ⟨st, rfl⟩ fun _ he => absurd he List.not_mem_nil
  | cons e es ih =>
    rw [List.foldlM_cons, List.forall_mem_cons]
    constructor
    · rintro ⟨st', h⟩
      obtain ⟨st₁, h₁, h⟩ := bind_eq_ok.1 h
      exact ⟨exists_putEntry_iff.1 ⟨st₁, h₁⟩, ih.1 ⟨st', h⟩⟩
    · rintro ⟨he, hes⟩
      obtain ⟨st₁, h₁⟩ := exists_putEntry_iff.2 he
      obtain ⟨st', h⟩ := ih.2 hes
      exact ⟨st', bind_eq_ok.2 ⟨st₁, h₁, h⟩⟩

theorem exists_inode_iff {f : Item} : (∃ b, f.inode = .ok b) ↔
    (∀ a ∈ [f.uid, f.gid, f.mode, f.ctime, f.mtime], a = .num a.val) ∧ f.blocks.length ≤ 1019 := by
  constructor
  · have hnum : ∀ {a : Field} {v : ℤ}, a.cint = .ok v → a = .num a.val := by
      intro a v h
      cases a with
      | str s => cases h
      | num w => rfl
    rintro ⟨b, h⟩
    obtain ⟨uid, huid, h⟩ := bind_eq_ok.1 h
    obtain ⟨gid, hgid, h⟩ := bind_eq_ok.1 h
    obtain ⟨mode, hmode, h⟩ := bind_eq_ok.1 h
    obtain ⟨ctime, hctime, h⟩ := bind_eq_ok.1 h
    obtain ⟨mtime, hmtime, h⟩ := bind_eq_ok.1 h
    split_ifs at h with hlen
    simp only [List.forall_mem_cons]
    exact ⟨⟨hnum huid, hnum hgid, hnum hmode, hnum hctime, hnum hmtime,
      fun _ ha => absurd ha List.not_mem_nil⟩, Nat.not_lt.1 hlen⟩
  · rintro ⟨hattrs, hlen⟩
    obtain ⟨b, hb, -⟩ := exists_inode hattrs hlen
    exact ⟨b, hb⟩

theorem exists_writeBlock_iff {content : ℤ → ℕ → Block} {f : Item} {k : ℕ} :
    (∃ b, (Slot.block f k).write content = .ok b) ↔
      ∀ e ∈ (f.entries.drop (k * 128)).take 128, e.Encodes := by
  rw [Slot.write, Item.entries]
  cases f.kind with
  | file =>
    refine iff_of_true ⟨_, rfl⟩ fun e he => ?_
    exact absurd (List.mem_of_mem_drop (List.mem_of_mem_take he)) List.not_mem_nil
  | dir es =>
    rw [← @exists_foldlM_putEntry _ (Block.zero, .new, 0)]
    constructor
    · rintro ⟨b, h⟩
      obtain ⟨st, hst, -⟩ := bind_eq_ok.1 h
      exact ⟨st, hst⟩
    · rintro ⟨st, hst⟩
      exact ⟨st.1, bind_eq_ok.2 ⟨st, hst, rfl⟩⟩

/-! ## The image -/

/-- The image that a file of blocks is. -/
def toImage (bs : List Block) : Image := ⟨bs.length, fun i => bs.getD i Block.zero⟩

/-- An image that is written as described. -/
structure Written (x : Script) (content : ℤ → ℕ → Block) (img : Image) : Prop where
  nblocks : (img.nblocks : ℤ) = x.nblocks
  diskSize : (FsSuper.decode (img.block 0)).diskSize.toNat = img.nblocks
  marked : ∀ b < 32768, (bitTest (img.block 1) b = true ↔ b = 0 ∨ b = 1 ∨ (b : ℤ) ∈ x.numbers)
  write : ∀ f ∈ x.items, ∀ p ∈ f.placements, p.2.write content = .ok (img.block p.1.toNat)

theorem mem_placements {f : Item} {p : ℤ × Slot} : p ∈ f.placements ↔
    p = (f.inum, .inode f) ∨ ∃ k b, f.blocks[k]? = some b ∧ p = (b, .block f k) := by
  rw [Item.placements, List.mem_cons, List.mem_map]
  refine or_congr_right ?_
  constructor
  · rintro ⟨⟨b, k⟩, hb, rfl⟩
    exact ⟨k, b, List.mem_zipIdx_iff_getElem?.1 hb, rfl⟩
  · rintro ⟨k, b, hb, rfl⟩
    exact ⟨(b, k), List.mem_zipIdx_iff_getElem?.2 hb, rfl⟩

/-- What is noted for an object can be written if and only if the script can make it. -/
theorem encodes_iff (content : ℤ → ℕ → Block) {f : Item} :
    f.Encodes ↔ ∀ p ∈ f.placements, ∃ b, p.2.write content = .ok b := by
  constructor
  · rintro ⟨hattrs, hlen, hentries⟩ p hp
    rcases mem_placements.1 hp with rfl | ⟨k, b, hk, rfl⟩
    · exact exists_inode_iff.2 ⟨hattrs, hlen⟩
    · exact exists_writeBlock_iff.2 (hentries k (List.getElem?_eq_some_iff.1 hk).1)
  · intro h
    obtain ⟨hattrs, hlen⟩ := exists_inode_iff.1 (h _ (mem_placements.2 (.inl rfl)))
    refine ⟨hattrs, hlen, fun k hk => exists_writeBlock_iff.1 (h (f.blocks[k], .block f k) ?_)⟩
    exact mem_placements.2 (.inr ⟨k, _, List.getElem?_eq_getElem hk, rfl⟩)

theorem Script.map_placements (x : Script) :
    (x.items.flatMap Item.placements).map (·.1.toNat) = x.numbers.map Int.toNat := by
  change List.map (Int.toNat ∘ Prod.fst) _ = _
  rw [← List.map_map, List.map_flatMap]
  exact congrArg _ (congrArg (x.items.flatMap ·) (funext Item.numbers_eq))

section Write

variable {x : Script} (hv : x.Valid) {f : Item} (hf : f ∈ x.items)
include hv

theorem Script.Valid.inRange {b : ℤ} (hb : b ∈ x.numbers) : Marks.InRange b := by
  have hr := hv.range b hb
  have hle := hv.le
  exact ⟨by omega, by omega⟩

theorem Script.Valid.toNat_inj {a b : ℤ} (ha : a ∈ x.numbers) (hb : b ∈ x.numbers)
    (h : a.toNat = b.toNat) : a = b := by
  have h₁ := hv.range a ha
  have h₂ := hv.range b hb
  omega

theorem Script.Valid.nodup_toNat : (x.numbers.map Int.toNat).Nodup :=
  hv.nodup.map_on fun _ ha _ hb => hv.toNat_inj ha hb

include hf

omit hv in
theorem mem_numbers {b : ℤ} (hb : b ∈ f.numbers) : b ∈ x.numbers :=
  List.mem_flatMap.2 ⟨f, hf, hb⟩

/-- An object has no more blocks than the image. -/
theorem Script.Valid.length_le : f.blocks.length ≤ 400 := by
  have hsub : (f.blocks.map Int.toNat).Subperm (List.range 400) := by
    refine List.subperm_of_subset ?_ fun b hb => ?_
    · have hnd : f.numbers.Nodup := (List.nodup_flatMap.1 hv.nodup).1 f hf
      have hmem : ∀ {b}, b ∈ f.blocks → b ∈ x.numbers :=
        fun hb => mem_numbers hf (List.mem_cons_of_mem _ hb)
      exact hnd.of_cons.map_on fun _ ha _ hb => hv.toNat_inj (hmem ha) (hmem hb)
    · obtain ⟨c, hc, rfl⟩ := List.mem_map.1 hb
      have hr := hv.inRange (mem_numbers hf (List.mem_cons_of_mem _ hc))
      have hlt := hr.2
      rw [List.mem_range]
      omega
  have hle := hsub.length_le
  rwa [List.length_map, List.length_range] at hle

/-- What is noted for the blocks of an object can be written. -/
theorem exists_write (content : ℤ → ℕ → Block) {p : ℤ × Slot} (hp : p ∈ f.placements) :
    ∃ b, p.2.write content = .ok b := by
  have hlen := (hv.length_le hf).trans (by decide : 400 ≤ 1019)
  exact (encodes_iff content).1 ((hv.good f hf).encodes hlen) p hp

end Write

/-- The script raises no exception, and writes what the description says. -/
theorem exists_genDisk (content : ℤ → ℕ → Block) {lines : List (List Char)} {x : Script}
    (hparse : parse lines = .ok x) (hv : x.Valid) :
    ∃ bs, genDisk content lines = .ok bs ∧ Written x content (toImage bs) := by
  have h3 := hv.three_le
  have hle := hv.le
  -- What is noted before and after the objects.
  obtain ⟨m₀, hstart, hbit₀, hblocks₀⟩ := Marks.exists_start
  let ps := x.items.flatMap Item.placements
  let m := ps.foldl Marks.put m₀
  have hitems : (x.files ++ x.dirs).foldlM Marks.item m₀ = .ok m :=
    Marks.items_eq fun f hf b hb => hv.inRange (mem_numbers hf hb)
  have hnumbers := x.map_placements
  have hnoted : ∀ p ∈ ps, m.blocks p.1.toNat = some p.2 := fun p hp =>
    Marks.blocks_foldl_put_of_mem (hnumbers ▸ hv.nodup_toNat) hp
  have hwrites : ∀ p ∈ ps, ∃ b, p.2.write content = .ok b := fun p hp => by
    obtain ⟨f, hf, hp⟩ := List.mem_flatMap.1 hp
    exact exists_write hv hf content hp
  obtain ⟨rest, hrest⟩ := Marks.exists_writes content hblocks₀ hwrites
    (show 2 + (x.nblocks.toNat - 2) ≤ 400 by omega)
  obtain ⟨hlen, hwrite⟩ := mapM_range'_eq_ok hrest
  obtain ⟨sb, hsb⟩ : ∃ b, b = ofBytes (bytes (Super.fields ⟨0x30303635, x.nblocks⟩)) := ⟨_, rfl⟩
  obtain ⟨map, hmap⟩ : ∃ b, b = ofBytes (bytes m.map.fields) := ⟨_, rfl⟩
  have hn : (toImage (sb :: map :: rest)).nblocks = x.nblocks.toNat := by
    change rest.length + 1 + 1 = _
    omega
  refine ⟨sb :: map :: rest, ?_, ?_, ?_, fun b hb => ?_, fun f hf p hp => ?_⟩
  · rw [hsb, hmap]
    exact bind_eq_ok.2 ⟨_, hparse, bind_eq_ok.2 ⟨_, hstart, bind_eq_ok.2 ⟨_, hitems,
      bind_eq_ok.2 ⟨_, hrest, rfl⟩⟩⟩⟩
  · rw [hn]
    omega
  · rw [hn]
    have hsize : (UInt32.ofInt x.nblocks).toNat = x.nblocks.toNat :=
      toNat_ofInt (by omega) (by omega)
    change (FsSuper.decode sb).diskSize.toNat = _
    rw [hsb, decode_super, hsize]
  · change bitTest map b = true ↔ _
    rw [hmap, Bitmap.bitTest_bytes hb, Marks.bit_foldl_put, hbit₀, hnumbers]
    have hmem : b ∈ x.numbers.map Int.toNat ↔ (b : ℤ) ∈ x.numbers := by
      rw [List.mem_map]
      constructor
      · rintro ⟨c, hc, hcb⟩
        have hr := hv.range c hc
        have hcast : c = b := by omega
        exact hcast ▸ hc
      · intro hb
        exact ⟨b, hb, Int.toNat_natCast b⟩
    simp only [Bool.or_eq_true, decide_eq_true_eq, hmem, eq_comm (b := b)]
    tauto
  · have hp' := List.mem_flatMap.2 ⟨f, hf, hp⟩
    have hr := hv.range p.1 (mem_numbers hf (f.numbers_eq ▸ List.mem_map_of_mem hp))
    obtain ⟨i, hi⟩ : ∃ i, p.1.toNat = i + 2 := ⟨p.1.toNat - 2, by omega⟩
    obtain ⟨b, hb, hget⟩ := hwrite i (by omega)
    rw [Nat.add_comm, ← hi, Marks.write, if_neg (by omega), hnoted p hp'] at hget
    have hblock : (toImage (sb :: map :: rest)).block p.1.toNat = b := by
      rw [hi]
      exact (List.getD_eq_getElem?_getD ..).trans (congrArg (·.getD Block.zero) hb)
    rw [hblock]
    exact hget

/-! ## The objects of the image -/

/-- Entries and slots, in the same order, with only those kept that are valid. -/
theorem forall₂_filter_finRange {α β : Type} {n : ℕ} {es : List α} {p : α → Bool} {q : Fin n → Bool}
    {R : α → β → Prop} {g : Fin n → β} (hlen : es.length ≤ n)
    (hrest : ∀ k : Fin n, es.length ≤ k.1 → q k = false)
    (hes : ∀ (k : Fin n) (e : α), es[k.1]? = some e → q k = p e ∧ (p e = true → R e (g k))) :
    List.Forall₂ R (es.filter p) (((List.finRange n).filter q).map g) := by
  induction es generalizing n with
  | nil =>
    -- No entries are left, and the slots that are left are not valid.
    have hnil : (List.finRange n).filter q = [] := List.filter_eq_nil_iff.2 fun k _ => by
      rw [hrest k (Nat.zero_le _)]
      exact Bool.false_ne_true
    rw [hnil]
    exact .nil
  | cons e es ih =>
    cases n with
    | zero => exact absurd hlen (Nat.not_succ_le_zero _)
    | succ n =>
      have htail := ih (q := q ∘ Fin.succ) (g := g ∘ Fin.succ) (Nat.le_of_succ_le_succ hlen)
        (fun k hk => hrest k.succ (Nat.succ_le_succ hk)) fun k e he => hes k.succ e he
      obtain ⟨hq, hR⟩ := hes 0 e rfl
      rw [List.finRange_succ]
      by_cases hp : p e = true
      · rw [List.filter_cons_of_pos hp, List.filter_cons_of_pos (hq.trans hp), List.map_cons,
          List.filter_map, List.map_map]
        exact .cons (hR hp) htail
      · rw [List.filter_cons_of_neg hp, List.filter_cons_of_neg (by rwa [hq]), List.filter_map,
          List.map_map]
        exact htail

/-- What an object uses a block for, as a slot. -/
def Item.slot (f : Item) : Role → Slot
  | .inode => .inode f
  | .ptr k => .block f k

theorem slot_inj {f g : Item} {r r' : Role} (h : f.slot r = g.slot r') : f = g ∧ r = r' := by
  cases r with
  | inode =>
    cases r' with
    | inode => exact ⟨Slot.inode.inj h, rfl⟩
    | ptr l => cases h
  | ptr k =>
    cases r' with
    | inode => cases h
    | ptr l =>
      obtain ⟨rfl, hk⟩ := Slot.block.inj h
      exact ⟨rfl, congrArg _ (Fin.ext hk)⟩

namespace Written

variable {x : Script} {content : ℤ → ℕ → Block} {img : Image} (hw : Written x content img)
  (hv : x.Valid) {f : Item} (hf : f ∈ x.items)
include hw hv hf

omit hw in
/-- The inode number of an object. -/
theorem toNat_inum : ((f.inum.toNat : ℕ) : ℤ) = f.inum := by
  have hr := hv.range f.inum (mem_numbers hf List.mem_cons_self)
  omega

theorem table_inode : img.table.inode f.inum.toNat = f.fsInode := by
  obtain ⟨b, hb, hdec⟩ := exists_inode (hv.good f hf).attrs ((hv.length_le hf).trans (by decide))
  have hwrite := hw.write f hf _ (mem_placements.2 (.inl rfl))
  rw [Slot.write, hb] at hwrite
  rw [Image.table_inode, ← Except.ok.inj hwrite, hdec]

omit hw hv hf in
theorem isDir_iff (hgood : f.Good) : f.fsInode.isDir = true ↔ f.kind ≠ .file := by
  refine ⟨fun hd hk => ?_, fun hk => (hgood.dir hk).1⟩
  rw [FsInode.isDir_of_isReg (hgood.file hk).1] at hd
  cases hd

omit hw in
/-- The pointers of an object lead to its blocks. -/
theorem toNat_ptr {k : Fin 1019} {b : ℤ} (hb : f.blocks[k.1]? = some b) :
    (f.fsInode.ptrs k).toNat = b.toNat := by
  have hr := hv.inRange (mem_numbers hf (List.mem_cons_of_mem _ (List.mem_of_getElem? hb)))
  have hptr : f.fsInode.ptrs k = UInt32.ofInt b := by
    change UInt32.ofInt (f.blocks.getD k 0) = _
    rw [List.getD_eq_getElem?_getD, hb]
    rfl
  rw [hptr, toNat_ofInt hr.1 (lt_trans hr.2 (by decide))]

/-- The entries of a directory. -/
theorem table_dir (hk : f.kind ≠ .file) :
    (∀ k : Fin 128, f.entries.length ≤ k.1 → (img.table.dir f.inum.toNat k).valid = false) ∧
      ∀ (k : Fin 128) (e : Entry), f.entries[k.1]? = some e →
        e.Shown (img.table.dir f.inum.toNat k) := by
  obtain ⟨b, hb, hshown⟩ := exists_dirBlock (hv.good f hf)
  have hlen := ((hv.good f hf).dir hk).2.2.2
  obtain ⟨c, hc⟩ := List.length_eq_one_iff.1 hlen
  have hget : f.blocks[0]? = some c := by rw [hc]; rfl
  have hwrite := hw.write f hf _ (mem_placements.2 (.inr ⟨0, c, hget, rfl⟩))
  -- The one block of a directory is what its first pointer leads to.
  have hdir : img.table.dir f.inum.toNat = .decode b := by
    rw [Image.table_dir, hw.table_inode hv hf, toNat_ptr hv hf hget]
    cases hkind : f.kind with
    | file => exact absurd hkind hk
    | dir es =>
      rw [Item.entries, hkind] at hb
      simp only [Slot.write, hkind] at hwrite
      rw [hb] at hwrite
      rw [Except.ok.inj hwrite]
  rw [hdir]
  exact hshown

omit hv in
/-- The content of a block of a file. -/
theorem block_data (hk : f.kind = .file) {k : ℕ} {b : ℤ} (hb : f.blocks[k]? = some b) :
    img.block b.toNat = content f.inum k := by
  have hwrite := hw.write f hf _ (mem_placements.2 (.inr ⟨k, b, hb, rfl⟩))
  simp only [Slot.write, hk] at hwrite
  exact (Except.ok.inj hwrite).symm

omit hw in
/-- The inode number of an object that an entry names. -/
theorem inode_of_shown {e : Entry} (he : e.inum = f.inum) {d : FsDirent} (hd : e.Shown d) :
    d.inode.1 = f.inum.toNat := by
  have hr := hv.inRange (mem_numbers hf List.mem_cons_self)
  rw [hd.inode, he, Int.emod_eq_of_lt hr.1 (lt_trans hr.2 (by decide))]

/-- A valid entry is described. -/
theorem exists_entry {k : Fin 128} (hd : (img.table.inode f.inum.toNat).isDir = true)
    (hvalid : (img.table.dir f.inum.toNat k).valid = true) :
    ∃ e, f.entries[k.1]? = some e ∧ e.valid = true ∧ e.Shown (img.table.dir f.inum.toNat k) := by
  rw [hw.table_inode hv hf, isDir_iff (hv.good f hf)] at hd
  obtain ⟨hrest, hshown⟩ := hw.table_dir hv hf hd
  cases he : f.entries[k.1]? with
  | none =>
    rw [hrest k (List.getElem?_eq_none_iff.1 he)] at hvalid
    cases hvalid
  | some e => exact ⟨e, rfl, (hshown k e he).valid ▸ hvalid, hshown k e he⟩

/-- The valid entries that lead on from an object. -/
theorem slots_eq_some {k : Fin 128} {j : ℕ} : img.table.slots f.inum.toNat k = some j ↔
    ∃ e g, f.entries[k.1]? = some e ∧ e.valid = true ∧ g ∈ x.items ∧ e.inum = g.inum ∧
      j = g.inum.toNat := by
  rw [Table.slots_eq_some]
  constructor
  · rintro ⟨hd, hvalid, rfl⟩
    obtain ⟨e, he, hev, hs⟩ := hw.exists_entry hv hf hd hvalid
    obtain ⟨-, g, hg, hge⟩ := hv.object f hf e (List.mem_of_getElem? he) hev
    exact ⟨e, g, he, hev, hg, hge.symm, inode_of_shown hv hg hge.symm hs⟩
  · rintro ⟨e, g, he, hev, hg, heg, rfl⟩
    have hk : f.kind ≠ .file := by
      intro hkind
      rw [Item.entries, hkind] at he
      cases he
    have hs := (hw.table_dir hv hf hk).2 k e he
    refine ⟨?_, hs.valid.trans hev, inode_of_shown hv hg heg hs⟩
    rw [hw.table_inode hv hf, isDir_iff (hv.good f hf)]
    exact hk

omit hf

/-- The live objects are described ones. -/
theorem exists_item {i : ℕ} (hi : img.table.Live i) : ∃ f ∈ x.items, f.inum.toNat = i := by
  induction hi with
  | root =>
    obtain ⟨f, hf, h2, -⟩ := hv.root
    exact ⟨f, hf, by rw [h2]; rfl⟩
  | step _ hk ih =>
    obtain ⟨f, hf, rfl⟩ := ih
    obtain ⟨-, g, -, -, hg, -, rfl⟩ := (hw.slots_eq_some hv hf).1 hk
    exact ⟨g, hg, rfl⟩

omit hw in
/-- An inode number is that of one object only. -/
theorem item_inj {g : Item} (hf : f ∈ x.items) (hg : g ∈ x.items)
    (h : f.inum.toNat = g.inum.toNat) : f = g := by
  have hnd := x.map_placements ▸ hv.nodup_toNat
  have hmem : ∀ {f}, f ∈ x.items → (f.inum, Slot.inode f) ∈ x.items.flatMap Item.placements :=
    fun hf => List.mem_flatMap.2 ⟨_, hf, mem_placements.2 (.inl rfl)⟩
  have heq := List.inj_on_of_nodup_map hnd (hmem hf) (hmem hg) h
  exact Slot.inode.inj (Prod.mk.inj heq).2

omit hw in
/-- The size of an object fits, and can be rounded up to blocks. -/
theorem size_bounds (hf : f ∈ x.items) : -2 ^ 31 ≤ f.size ∧ f.size + 4096 < 2 ^ 31 := by
  have hgood := hv.good f hf
  have hlen := hv.length_le hf
  by_cases hkind : f.kind = .file
  · obtain ⟨-, h0, hblocks⟩ := hgood.file hkind
    omega
  · obtain ⟨-, hlo, hhi, -⟩ := hgood.dir hkind
    exact ⟨hlo, hhi⟩

omit hw in
theorem toInt_size (hf : f ∈ x.items) : f.fsInode.size.toInt = f.size := by
  have hb := size_bounds hv hf
  exact Int32.toInt_ofInt_of_le hb.1 (by omega)

omit hw in
/-- A file has a block for every block of its size. -/
theorem nptrs_le (hf : f ∈ x.items) : f.fsInode.nptrs ≤ f.blocks.length := by
  have hgood := hv.good f hf
  by_cases hkind : f.kind = .file
  · obtain ⟨hreg, h0, hblocks⟩ := hgood.file hkind
    rw [FsInode.nptrs, FsInode.isDir_of_isReg hreg, if_neg Bool.false_ne_true, toInt_size hv hf]
    omega
  · obtain ⟨hd, -, -, hlen⟩ := hgood.dir hkind
    rw [FsInode.nptrs, if_pos hd, hlen]

/-- The blocks that an object owns are described ones. -/
theorem exists_placement (hf : f ∈ x.items) {r : Role} {b : ℕ}
    (ho : img.table.Owns f.inum.toNat r b) :
    ∃ c : ℤ, (c, f.slot r) ∈ f.placements ∧ c.toNat = b := by
  cases r with
  | inode => exact ⟨f.inum, mem_placements.2 (.inl rfl), ho.symm⟩
  | ptr k =>
    obtain ⟨hk, rfl⟩ := ho
    rw [hw.table_inode hv hf] at hk ⊢
    have hb := List.getElem?_eq_getElem (lt_of_lt_of_le hk (nptrs_le hv hf))
    exact ⟨_, mem_placements.2 (.inr ⟨k, _, hb, rfl⟩), (toNat_ptr hv hf hb).symm⟩

/-- The image is well-formed. -/
theorem wf : img.WF where
  diskSize := hw.diskSize
  table :=
    { three_le := by
        have h3 := hv.three_le
        have hn := hw.nblocks
        change 3 ≤ img.nblocks
        omega
      le_cap := by
        have hle := hv.le
        have hn := hw.nblocks
        change img.nblocks ≤ 32768
        omega
      reserved := ⟨(hw.marked 0 (by decide)).2 (.inl rfl),
        (hw.marked 1 (by decide)).2 (.inr (.inl rfl))⟩
      root := by
        obtain ⟨f, hf, h2, hk⟩ := hv.root
        have hinode := hw.table_inode hv hf
        rw [h2] at hinode
        exact (congrArg FsInode.isDir hinode).trans ((isDir_iff (hv.good f hf)).2 hk)
      tree :=
        { root_ne := fun hi h => by
            obtain ⟨f, hf, rfl⟩ := hw.exists_item hv hi
            obtain ⟨e, g, he, hev, hg, heg, h2⟩ := (hw.slots_eq_some hv hf).1 h
            have hcast := toNat_inum hv hg
            have hne := (hv.object f hf e (List.mem_of_getElem? he) hev).1
            omega
          unique := fun hi hj h h' => by
            obtain ⟨f, hf, rfl⟩ := hw.exists_item hv hi
            obtain ⟨f', hf', rfl⟩ := hw.exists_item hv hj
            obtain ⟨e, g, he, hev, hg, heg, hz⟩ := (hw.slots_eq_some hv hf).1 h
            obtain ⟨e', g', he', hev', hg', heg', hz'⟩ := (hw.slots_eq_some hv hf').1 h'
            -- Both entries name the same object, and there is only one such entry.
            obtain rfl := item_inj hv hg hg' (hz.symm.trans hz')
            obtain ⟨rfl, hk⟩ := hv.once f hf f' hf' he he' hev hev' (heg.trans heg'.symm)
            exact ⟨rfl, Fin.ext hk⟩ }
      object := fun hi => by
        obtain ⟨f, hf, rfl⟩ := hw.exists_item hv hi
        have hgood := hv.good f hf
        have hlen := hv.length_le hf
        rw [hw.table_inode hv hf]
        by_cases hkind : f.kind = .file
        · obtain ⟨hreg, h0, hblocks⟩ := hgood.file hkind
          rw [Table.GoodInode, toInt_size hv hf]
          exact .inr ⟨hreg, h0, by omega⟩
        · exact .inl (hgood.dir hkind).1
      owned := fun hi ho => by
        obtain ⟨f, hf, rfl⟩ := hw.exists_item hv hi
        obtain ⟨c, hc, rfl⟩ := hw.exists_placement hv hf ho
        have hmem := mem_numbers hf (f.numbers_eq ▸ List.mem_map_of_mem hc)
        have hr := hv.range c hmem
        have hle := hv.le
        have hn := hw.nblocks
        -- The number is described, so it is in the image and marked.
        have hcast : ((c.toNat : ℕ) : ℤ) = c := by omega
        refine ⟨by omega, show c.toNat < img.nblocks by omega, ?_⟩
        exact (hw.marked _ (by omega)).2 (.inr (.inr (hcast.symm ▸ hmem)))
      disjoint := fun hi hj ho ho' => by
        obtain ⟨f, hf, rfl⟩ := hw.exists_item hv hi
        obtain ⟨g, hg, rfl⟩ := hw.exists_item hv hj
        obtain ⟨c, hc, rfl⟩ := hw.exists_placement hv hf ho
        obtain ⟨c', hc', heq⟩ := hw.exists_placement hv hg ho'
        -- A number is that of one block only, so it is used for one thing.
        have hsame := List.inj_on_of_nodup_map (x.map_placements ▸ hv.nodup_toNat)
          (List.mem_flatMap.2 ⟨f, hf, hc⟩) (List.mem_flatMap.2 ⟨g, hg, hc'⟩) heq.symm
        obtain ⟨rfl, hr⟩ := slot_inj (Prod.mk.inj hsame).2
        exact ⟨rfl, hr⟩
      names := fun hi hd hvalid => by
        obtain ⟨f, hf, rfl⟩ := hw.exists_item hv hi
        obtain ⟨e, he, hev, hs⟩ := hw.exists_entry hv hf hd hvalid
        have hgood := (hv.good f hf).names e (List.mem_of_getElem? he) hev
        -- The name in the entry ends where the described one does, as that has no NUL.
        rwa [hs.name hgood.nul_notMem]
      distinct := fun hi hd hvalid hvalid' hname => by
        obtain ⟨f, hf, rfl⟩ := hw.exists_item hv hi
        obtain ⟨e, he, hev, hs⟩ := hw.exists_entry hv hf hd hvalid
        obtain ⟨e', he', hev', hs'⟩ := hw.exists_entry hv hf hd hvalid'
        have hnames := (hv.good f hf).names
        rw [hs.name (hnames e (List.mem_of_getElem? he) hev).nul_notMem,
          hs'.name (hnames e' (List.mem_of_getElem? he') hev').nul_notMem] at hname
        exact Fin.ext ((hv.good f hf).distinct he he' hev hev' hname) }

end Written

/-! ## What the file system finds -/

/-- A path of names leads from the root to an object, along valid entries. -/
inductive Script.Describes (x : Script) : List (List UInt8) → Item → Prop
  | root {f : Item} : f ∈ x.items → f.inum = 2 → Describes x [] f
  | child {ns : List (List UInt8)} {f g : Item} {e : Entry} : Describes x ns f → e ∈ f.entries →
    e.valid = true → g ∈ x.items → e.inum = g.inum → Describes x (ns ++ [e.bytes]) g

/-- The described attributes of an object. -/
def Item.stat (f : Item) : Stat where
  mode := UInt32.ofInt f.mode.val
  uid := UInt16.ofInt f.uid.val
  gid := UInt16.ofInt f.gid.val
  size := f.size
  nlink := 1
  mtime := UInt32.ofInt f.mtime.val
  atime := UInt32.ofInt f.mtime.val
  ctime := UInt32.ofInt f.mtime.val
  blocks := (f.size + 4096 - 1).tdiv 4096

/-- The bytes of a file. -/
def Item.data (content : ℤ → ℕ → Block) (f : Item) : List UInt8 :=
  (List.range f.size.toNat).map fun o => (content f.inum (o / 4096)).byte (o % 4096)

/-- What a description means to the file system. -/
structure Means (x : Script) (content : ℤ → ℕ → Block) (s : FsState) : Prop where
  marked : ∀ b < 32768, (bitTest s.bitmap b = true ↔ b = 0 ∨ b = 1 ∨ (b : ℤ) ∈ x.numbers)
  getattr : ∀ {path : FsPath} {f : Item}, path.comps.length ≤ maxPathComponents →
    x.Describes path.names f → (fsGetattr path.bytes).run s = (.ok f.stat, s)
  readdir : ∀ {path : FsPath} {f : Item}, path.comps.length ≤ maxPathComponents →
    x.Describes path.names f → f.kind ≠ .file →
    ∃ calls, (fsReaddir path.bytes fun _ => false).run s = (.ok calls, s) ∧
      List.Forall₂ (fun (e : Entry) c => c.1 = e.bytes ∧ ∃ g ∈ x.items, e.inum = g.inum ∧ c.2 = g.stat)
        (f.entries.filter (·.valid)) calls
  read : ∀ {path : FsPath} {f : Item} {len o : ℕ}, path.comps.length ≤ maxPathComponents →
    x.Describes path.names f → f.kind = .file → o + len < 2 ^ 63 →
    (fsRead path.bytes len o).run s = (.ok (((f.data content).drop o).take len), s)

theorem Script.Describes.mem {x : Script} {ns : List (List UInt8)} {f : Item}
    (hd : x.Describes ns f) : f ∈ x.items := by
  cases hd with
  | root hf _ => exact hf
  | child _ _ _ hg _ => exact hg

namespace Written

variable {x : Script} {content : ℤ → ℕ → Block} {s : FsState} (hw : Written x content s.img)
  (hv : x.Valid) {f : Item}
include hw hv

theorem walk_describes {ns : List (List UInt8)} (hd : x.Describes ns f) :
    walk s.img.table.children 2 ns = some f.inum.toNat := by
  have hwf := (hw.wf hv).table
  induction hd with
  | root hf h2 =>
    rw [h2]
    rfl
  | @child ns f g e hd he hev hg heg ih =>
    have hlive := hwf.live_of_walk ih
    obtain ⟨k, hk⟩ := List.mem_iff_getElem?.1 he
    have hf := hd.mem
    have hlt : k < 128 := lt_of_lt_of_le (List.getElem?_eq_some_iff.1 hk).1 (hv.good f hf).entries
    have hslot := (hw.slots_eq_some hv hf (k := ⟨k, hlt⟩)).2 ⟨e, g, hk, hev, hg, heg, rfl⟩
    obtain ⟨hdir, hvalid, -⟩ := Table.slots_eq_some.1 hslot
    -- The entry in that slot is the described one, with its name.
    obtain ⟨e', he', -, hs⟩ := hw.exists_entry hv hf hdir hvalid
    obtain rfl := Option.some.inj (hk.symm.trans he')
    rw [walk_concat, ih]
    refine (hwf.children_eq_some hlive).2 ⟨⟨k, hlt⟩, hslot, hs.name ?_⟩
    exact ((hv.good f hf).names e he hev).nul_notMem

theorem translate_eq {path : FsPath} (hlen : path.comps.length ≤ maxPathComponents)
    (hd : x.Describes path.names f) : s.img.table.translate path = .ok f.inum.toNat := by
  rw [Table.translate, FsPath.take_names hlen, Table.resolve_eq_ok]
  exact hw.walk_describes hv hd

omit hw in
theorem inodeToStat_run (hf : f ∈ x.items) : (inodeToStat f.fsInode).run s = (.ok f.stat, s) := by
  have hsize := toInt_size hv hf
  have hb := size_bounds hv hf
  rw [inodeToStat, nblocksOf, hsize, if_neg (by omega)]
  rfl

/-- `fs_getattr` gives the described attributes. -/
theorem fsGetattr_run (hs : s.WF) {path : FsPath} (hlen : path.comps.length ≤ maxPathComponents)
    (hd : x.Describes path.names f) : (fsGetattr path.bytes).run s = (.ok f.stat, s) := by
  have htrans := hw.translate_eq hv hlen hd
  have hlive := (hw.wf hv).table.live_of_translate htrans
  have hrun := translate_run hs path
  rw [htrans] at hrun
  rw [fsGetattr, bind_ok hrun, bind_ok (readInode_run hs hlive), hw.table_inode hv hd.mem]
  exact inodeToStat_run hv hd.mem

/-- `fs_readdir` lists the described valid entries, in their order. -/
theorem fsReaddir_run (hs : s.WF) {path : FsPath} (hlen : path.comps.length ≤ maxPathComponents)
    (hd : x.Describes path.names f) (hk : f.kind ≠ .file) :
    ∃ calls, (fsReaddir path.bytes fun _ => false).run s = (.ok calls, s) ∧
      List.Forall₂ (fun (e : Entry) c => c.1 = e.bytes ∧ ∃ g ∈ x.items, e.inum = g.inum ∧ c.2 = g.stat)
        (f.entries.filter (·.valid)) calls := by
  have hf := hd.mem
  have htrans := hw.translate_eq hv hlen hd
  have hlive := (hw.wf hv).table.live_of_translate htrans
  have hrun := translate_run hs path
  rw [htrans] at hrun
  have hdir : (s.img.table.inode f.inum.toNat).isDir = true := by
    rw [hw.table_inode hv hf]
    exact (isDir_iff (hv.good f hf)).2 hk
  -- A valid entry names an object, whose attributes are those described.
  have hst : ∀ k, ∃ st, (s.img.table.dir f.inum.toNat k).valid = true →
      (∃ y, (readInode (s.img.table.dir f.inum.toNat k).inode).run s = (.ok y, s) ∧
        (inodeToStat y).run s = (.ok st, s)) ∧
      ∃ e g, f.entries[k.1]? = some e ∧ g ∈ x.items ∧ e.inum = g.inum ∧ st = g.stat := by
    intro k
    by_cases hvalid : (s.img.table.dir f.inum.toNat k).valid = true
    · obtain ⟨e, he, hev, hshown⟩ := hw.exists_entry hv hf hdir hvalid
      obtain ⟨-, g, hg, hge⟩ := hv.object f hf e (List.mem_of_getElem? he) hev
      have hinum := inode_of_shown hv hg hge.symm hshown
      have hchild := hlive.child hdir hvalid
      refine ⟨g.stat, fun _ => ⟨⟨_, readInode_run hs hchild, ?_⟩, e, g, he, hg, hge.symm, rfl⟩⟩
      rw [hinum, hw.table_inode hv hg]
      exact inodeToStat_run hv hg
    · exact ⟨f.stat, fun h => absurd h hvalid⟩
  choose st hst using hst
  rw [fsReaddir, bind_ok hrun, bind_ok (readInode_run hs hlive), bind_failIf_false (by rw [hdir]; rfl),
    bind_ok (readDir_run hs hlive hdir), readdirLoop_run fun k hk => (hst k hk).1]
  refine ⟨_, rfl, ?_⟩
  obtain ⟨hrest, hshown⟩ := hw.table_dir hv hf hk
  refine forall₂_filter_finRange (hv.good f hf).entries hrest fun k e he => ?_
  have hs := hshown k e he
  refine ⟨hs.valid, fun hev => ⟨?_, ?_⟩⟩
  · exact hs.name ((hv.good f hf).names e (List.mem_of_getElem? he) hev).nul_notMem
  · obtain ⟨e', g, he', hg, heg, hstat⟩ := (hst k (hs.valid.trans hev)).2
    obtain rfl := Option.some.inj (he.symm.trans he')
    exact ⟨g, hg, heg, hstat⟩

/-- The bytes of a file are the described ones. -/
theorem content_fsInode (hf : f ∈ x.items) (hk : f.kind = .file) :
    s.img.content f.fsInode = f.data content := by
  obtain ⟨-, h0, hblocks⟩ := (hv.good f hf).file hk
  rw [Image.content, Item.data, toInt_size hv hf]
  refine List.map_congr_left fun q hq => ?_
  have hlt : q / 4096 < f.blocks.length := by
    have hq := List.mem_range.1 hq
    omega
  have hcap : q / 4096 < 1019 := by
    have := hv.length_le hf
    omega
  have hb := List.getElem?_eq_getElem hlt
  -- Below the size, the pointers lead to the described blocks.
  have hptr : f.fsInode.ptrAt (q / 4096) = (f.blocks[q / 4096]).toNat :=
    toNat_ptr hv hf (by rwa [val_ofNat_1019 hcap])
  rw [Image.fileByte, hptr, hw.block_data hf hk hb]

/-- `fs_read` gives the described bytes. -/
theorem fsRead_run (hs : s.WF) {path : FsPath} {len o : ℕ}
    (hlen : path.comps.length ≤ maxPathComponents) (hd : x.Describes path.names f)
    (hk : f.kind = .file) (ho : o + len < 2 ^ 63) :
    (fsRead path.bytes len o).run s = (.ok (((f.data content).drop o).take len), s) := by
  have hf := hd.mem
  have htrans := hw.translate_eq hv hlen hd
  have hinode := hw.table_inode hv hf
  obtain ⟨hreg, -⟩ := (hv.good f hf).file hk
  have hregular : s.img.table.regular path = .ok f.inum.toNat :=
    Table.regular_eq_ok.2 ⟨htrans, by rw [hinode, hreg]⟩
  have hrun : (fsRead path.bytes len o).run s = _ := Cs5600.fsRead_run hs ho
  rw [hregular] at hrun
  refine hrun.trans ?_
  simp only [hinode, hw.content_fsInode hv hf hk]

theorem means (hs : s.WF) : Means x content s where
  marked b hb := by
    rw [hs.bitmap]
    exact hw.marked b hb
  getattr hlen hd := hw.fsGetattr_run hv hs hlen hd
  readdir hlen hd hk := hw.fsReaddir_run hv hs hlen hd hk
  read hlen hd hk ho := hw.fsRead_run hv hs hlen hd hk ho

end Written

/-- An image that the script makes of a description means what the description says, once it is
    loaded. -/
theorem genDisk_means (content : ℤ → ℕ → Block) {lines : List (List Char)} {x : Script}
    (hparse : parse lines = .ok x) (hv : x.Valid) :
    ∃ bs, genDisk content lines = .ok bs ∧ ∀ s : FsState, s.img = toImage bs →
      (fsInit.run s).1 = .ok () ∧ Means x content (fsInit.run s).2 := by
  obtain ⟨bs, hbs, hw⟩ := exists_genDisk content hparse hv
  refine ⟨bs, hbs, fun s himg => ?_⟩
  rw [← himg] at hw
  have hwf := hw.wf hv
  have hinit := FsState.fsInit_run (le_trans (by decide) hwf.table.three_le)
  refine ⟨congrArg Prod.fst hinit, Written.means ?_ hv (wf_fsInit hwf)⟩
  rwa [hinit]

/-! ## A description with a number that does not fit -/

/-- A description of a root directory and a file, with a user of a number of 17 bits. -/
def wideUid : List (List Char) :=
  ["# a file", "$u 65536", "$t 1565283152", "$d 0o40777", "$f 0o100666", "size 6",
    "dir 2 / $u $u $d $t $t 4096 3 -none a,4", "file 4 /a $u $u $f $t $t 10 5"].map String.toList

/-- The root directory. -/
def wideRoot : Item where
  inum := 2
  name := .str ['/']
  uid := .num 65536
  gid := .num 65536
  mode := .num 0o40777
  ctime := .num 1565283152
  mtime := .num 1565283152
  size := 4096
  blocks := [3]
  kind := .dir [⟨false, ['n', 'o', 'n', 'e'], 0⟩, ⟨true, ['a'], 4⟩]

/-- The file. -/
def wideFile : Item :=
  { wideRoot with inum := 4, name := .str ['/', 'a'], mode := .num 0o100666, size := 10,
                  blocks := [5], kind := .file }

theorem parse_wideUid : ∃ x, parse wideUid = .ok x ∧ x.nblocks = 6 ∧ x.items = [wideFile, wideRoot] :=
  ⟨_, rfl, rfl, rfl⟩

theorem good_wideFile : wideFile.Good where
  attrs := List.forall_mem_cons.2 ⟨rfl, List.forall_mem_cons.2 ⟨rfl, List.forall_mem_cons.2
    ⟨rfl, List.forall_mem_cons.2 ⟨rfl, List.forall_mem_singleton.2 rfl⟩⟩⟩⟩
  file _ := by decide
  dir h := absurd rfl h
  entries := by decide
  ascii _ he := absurd he List.not_mem_nil
  names _ he := absurd he List.not_mem_nil
  distinct h := nomatch h

/-- The entries of the root directory. -/
theorem of_getElem?_wideRoot {k : ℕ} {e : Entry} (he : wideRoot.entries[k]? = some e) :
    (k = 0 ∧ e = ⟨false, ['n', 'o', 'n', 'e'], 0⟩) ∨ (k = 1 ∧ e = ⟨true, ['a'], 4⟩) := by
  match k with
  | 0 => exact .inl ⟨rfl, (Option.some.inj he).symm⟩
  | 1 => exact .inr ⟨rfl, (Option.some.inj he).symm⟩
  | k + 2 => cases he

/-- The only valid entry. -/
theorem of_valid_wideUid {f : Item} (hf : f ∈ [wideFile, wideRoot]) {k : ℕ} {e : Entry}
    (he : f.entries[k]? = some e) (hev : e.valid = true) :
    f = wideRoot ∧ k = 1 ∧ e = ⟨true, ['a'], 4⟩ := by
  rcases List.mem_pair.1 hf with rfl | rfl
  · cases he
  · rcases of_getElem?_wideRoot he with ⟨-, rfl⟩ | ⟨rfl, rfl⟩
    · cases hev
    · exact ⟨rfl, rfl, rfl⟩

theorem good_wideRoot : wideRoot.Good where
  attrs := List.forall_mem_cons.2 ⟨rfl, List.forall_mem_cons.2 ⟨rfl, List.forall_mem_cons.2
    ⟨rfl, List.forall_mem_cons.2 ⟨rfl, List.forall_mem_singleton.2 rfl⟩⟩⟩⟩
  file h := nomatch h
  dir _ := by decide
  entries := by decide
  ascii e he := by
    obtain ⟨k, hk⟩ := List.mem_iff_getElem?.1 he
    rcases of_getElem?_wideRoot hk with ⟨-, rfl⟩ | ⟨-, rfl⟩
    · exact ⟨by decide, by simp⟩
    · exact ⟨by decide, by simp⟩
  names e he hev := by
    obtain ⟨k, hk⟩ := List.mem_iff_getElem?.1 he
    obtain ⟨-, -, rfl⟩ := of_valid_wideUid (List.mem_cons_of_mem _ List.mem_cons_self) hk hev
    exact ⟨by decide, by decide, by decide, by decide⟩
  distinct hk hl hev hev' _ := by
    have hroot : wideRoot ∈ [wideFile, wideRoot] := List.mem_cons_of_mem _ List.mem_cons_self
    rw [(of_valid_wideUid hroot hk hev).2.1, (of_valid_wideUid hroot hl hev').2.1]

theorem valid_wideUid {x : Script} (hn : x.nblocks = 6) (hi : x.items = [wideFile, wideRoot]) :
    x.Valid where
  three_le := by omega
  le := by omega
  nodup := by
    rw [Script.numbers, hi]
    decide
  range := by
    rw [Script.numbers, hi, hn]
    decide
  root := by
    rw [hi]
    exact ⟨wideRoot, List.mem_cons_of_mem _ List.mem_cons_self, rfl, nofun⟩
  good := by
    rw [hi]
    exact List.forall_mem_cons.2 ⟨good_wideFile, List.forall_mem_singleton.2 good_wideRoot⟩
  object := by
    rw [hi]
    intro f hf e he hev
    obtain ⟨k, hk⟩ := List.mem_iff_getElem?.1 he
    obtain ⟨-, -, rfl⟩ := of_valid_wideUid hf hk hev
    exact ⟨by decide, wideFile, List.mem_cons_self, rfl⟩
  once := by
    rw [hi]
    intro f hf g hg k l e e' hk hl hev hev' _
    obtain ⟨rfl, rfl, -⟩ := of_valid_wideUid hf hk hev
    obtain ⟨rfl, rfl, -⟩ := of_valid_wideUid hg hl hev'
    exact ⟨rfl, rfl⟩

/-- What the image of the description means. -/
theorem genDisk_means_wideUid : ∃ x bs, parse wideUid = .ok x ∧
    genDisk (fun _ _ => Block.zero) wideUid = .ok bs ∧
      Means x (fun _ _ => Block.zero) (fsInit.run (.mount (toImage bs))).2 := by
  obtain ⟨x, hparse, hn, hi⟩ := parse_wideUid
  obtain ⟨bs, hbs, hmeans⟩ :=
    genDisk_means (fun _ _ => Block.zero) hparse (valid_wideUid hn hi)
  exact ⟨x, bs, hparse, hbs, (hmeans _ rfl).2⟩

/-- The block 0 is marked although no object has it, and the user number of the root is another one
    than described. -/
theorem genDisk_wideUid_differs : ∃ x bs, parse wideUid = .ok x ∧ x.Valid ∧
    x.items = [wideFile, wideRoot] ∧ genDisk (fun _ _ => Block.zero) wideUid = .ok bs ∧
      (let s := (fsInit.run (.mount (toImage bs))).2
      (bitTest s.bitmap 0 = true ∧ (0 : ℤ) ∉ x.numbers) ∧
        ∃ st, (fsGetattr [slash]).run s = (.ok st, s) ∧ wideRoot.uid = .num 65536 ∧ st.uid = 0) := by
  obtain ⟨x, hparse, hn, hi⟩ := parse_wideUid
  have hv := valid_wideUid hn hi
  obtain ⟨bs, hbs, hw⟩ := exists_genDisk (fun _ _ => Block.zero) hparse hv
  have hwf := hw.wf hv
  have hinit := (FsState.mount_wf hwf).fsInit
  have hmeans := Written.means hw hv (FsState.mount_wf hwf)
  refine ⟨x, bs, hparse, hv, hi, hbs, ?_⟩
  rw [hinit]
  refine ⟨⟨(hmeans.marked 0 (by decide)).2 (.inl rfl), fun h0 => ?_⟩, wideRoot.stat, ?_, rfl, rfl⟩
  · have := (hv.range 0 h0).1
    omega
  · have hroot : x.Describes [] wideRoot :=
      .root (by rw [hi]; exact List.mem_cons_of_mem _ List.mem_cons_self) rfl
    let path : FsPath := ⟨[slash], rfl, by decide, fun _ => rfl⟩
    have hlen : path.comps.length ≤ maxPathComponents := by
      rw [FsPath.comps, strtok_slash]
      exact Nat.zero_le _
    exact hmeans.getattr hlen ((FsPath.names_eq_nil.2 rfl : path.names = []).symm ▸ hroot)

end GenDisk

end Cs5600
