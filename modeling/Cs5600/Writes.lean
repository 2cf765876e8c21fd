import Cs5600.Steps

/-!
# Writing a file

`fs_write` marks the blocks it needs, copies its buffer into the old and new
blocks of the file, and then writes the inode. The image is well-formed after
each of these writes (`WriteEnds.along`): the new blocks are not referenced
until the inode is written, and then only by this file.
-/

namespace Cs5600

open LabelledGraph Table WriteLog

namespace Image

variable {img : Image}

/-- Blocks of a regular file, and blocks that are not referenced, may be written. -/
theorem along_of_file (h : img.WF) {i : ℕ} (hi : img.table.Live i)
    (hd : (img.table.inode i).isDir = false) (ws : List Write)
    (hw : ∀ w ∈ ws, (∃ k, img.table.Owns i (.ptr k) w.lba) ∨ img.Unreferenced w.lba) :
    Along put WF img ws ∧ img.table.Agree (img.puts ws).table := by
  induction ws generalizing img with
  | nil => exact ⟨h, Agree.refl _⟩
  | cons w ws ih =>
    obtain ⟨hlt, hput, ha⟩ : w.lba < img.nblocks ∧ (img.put w).WF ∧
        img.table.Agree (img.put w).table := by
      rcases hw w List.mem_cons_self with ⟨k, ho⟩ | ⟨h2, hlt, hnr⟩
      · exact ⟨(h.table.owned hi ho).2.1, h.put_of_owns hi hd ho, agree_put_of_owns h hi hd ho⟩
      · exact ⟨hlt, h.put_of_not_referenced hlt h2 hnr, agree_put_of_not_referenced hlt hnr⟩
    obtain ⟨halong, ha'⟩ := ih hput (ha.live.2 hi) (by rwa [ha.inode hi]) fun v hv => by
      rcases hw v (List.mem_cons_of_mem _ hv) with ⟨k, ho⟩ | ⟨h2, hvlt, hnr⟩
      · exact .inl ⟨k, (ha.owns hi).2 ho⟩
      · exact .inr ⟨h2, (put_nblocks hlt).symm ▸ hvlt, fun hr => hnr (ha.referenced.1 hr)⟩
    exact ⟨⟨h, halong⟩, ha.trans ha'⟩

section Write

variable {env : Env} {path : FsPath} (h : img.WF) {i o : ℕ} {buf : List UInt8} {bs : List ℕ}

/-- The size of a file after bytes are written up to `e`. -/
theorem size_written (env : Env) (bs : List ℕ) (x : FsInode) {e : ℕ} (he : e ≤ 1019 * 4096) :
    (x.written env e bs).size.toInt = max x.size.toInt e := by
  change (if x.size.toInt < e then Int32.ofInt e else x.size).toInt = _
  split_ifs with hlt
  · rw [Int32.toInt_ofInt_of_le (by omega) (by omega), max_eq_right hlt.le]
  · rw [max_eq_left (not_lt.1 hlt)]

theorem mode_written {x : FsInode} {e : ℕ} : (x.written env e bs).mode = x.mode :=
  (FsInode.alloc_mode _ _ _).1

/-- The number of pointers in use after the write. -/
theorem nptrs_written (env : Env) {x : FsInode} {e : ℕ} (hd : x.isDir = false) (h0 : 0 ≤ x.size.toInt)
    (he : e ≤ 1019 * 4096) (hlen : bs.length = blocksFor e - x.nptrs) :
    (x.written env e bs).nptrs = x.nptrs + bs.length := by
  have hd' : (x.written env e bs).isDir = false := by
    rw [FsInode.isDir, mode_written]
    exact hd
  rw [hlen, FsInode.nptrs_of_file hd', FsInode.nptrs_of_file hd, size_written _ _ _ he, blocksFor,
    blocksFor, blocksFor]
  omega

variable (hi : img.table.writable path o = .ok i) (hend : o + buf.length ≤ 1019 * 4096)
  (hlen : bs.length = blocksFor (o + buf.length) - (img.table.inode i).nptrs)
  (hbs : bs <+: img.free)
include h hi hend hlen hbs

/-- Different pointers in use lead to different blocks. -/
theorem ptrAt_written_injective (env : Env) {k l : ℕ} (hk : k < (img.table.inode i).nptrs + bs.length)
    (hl : l < (img.table.inode i).nptrs + bs.length)
    (he : ((img.table.inode i).written env (o + buf.length) bs).ptrAt k =
      ((img.table.inode i).written env (o + buf.length) bs).ptrAt l) : k = l := by
  have hlive := (h.table.of_regular (writable_eq_ok.1 hi).1).1
  obtain ⟨hk', ho⟩ := owns_or_mem_written h hi hend hlen hbs env hk
  obtain ⟨hl', ho'⟩ := owns_or_mem_written h hi hend hlen hbs env hl
  rw [← he] at ho'
  have hfree : ∀ {b r}, img.table.Owns i r b → b ∉ bs := fun ho hb =>
    (h.unreferenced_of_mem_free (hbs.subset hb)).2.2 ⟨_, _, hlive, ho⟩
  rcases ho with ho | hb <;> rcases ho' with ho' | hb'
  · have hr := Role.ptr.inj (h.table.disjoint hlive hlive ho ho').2
    have hval := congrArg Fin.val hr
    rwa [val_ofNat_1019 hk', val_ofNat_1019 hl'] at hval
  · exact absurd hb' (hfree ho)
  · exact absurd hb (hfree ho')
  · -- Both are new, and the free blocks are different ones.
    have hnodup : bs.Nodup := hbs.sublist.nodup freeBlocks_nodup
    obtain ⟨_, ⟨hold, hp⟩ | ⟨hnew, hp⟩⟩ := ptrAt_written h hi hend hlen hbs env hk
    · refine absurd hb (hfree (r := .ptr (Fin.ofNat 1019 k)) ?_)
      exact owns_ptr.2 ⟨(val_ofNat_1019 hk').symm ▸ hold, hp⟩
    · obtain ⟨_, ⟨hold', hp'⟩ | ⟨hnew', hp'⟩⟩ := ptrAt_written h hi hend hlen hbs env hl
      · refine absurd (he ▸ hb) (hfree (r := .ptr (Fin.ofNat 1019 l)) ?_)
        exact owns_ptr.2 ⟨(val_ofNat_1019 hl').symm ▸ hold', hp'⟩
      · rw [hp, hp', List.getD_eq_getElem _ _ (by omega), List.getD_eq_getElem _ _ (by omega)] at he
        have := (hnodup.getElem_inj_iff).1 he
        omega

/-- The data is written to blocks of the file, or to new ones. -/
theorem lba_dataWrites {ptr : ℕ → ℕ} {img' : Image} {w : Write}
    (hptr : ptr = ((img.table.inode i).written env (o + buf.length) bs).ptrAt)
    (hw : w ∈ dataWrites ptr img' buf o) :
    (∃ k, img.table.Owns i (.ptr k) w.lba) ∨ w.lba ∈ bs := by
  obtain ⟨_, hd, _⟩ := h.table.of_regular (writable_eq_ok.1 hi).1
  obtain ⟨k, _, hk, hlba⟩ := mem_dataWrites hw
  have hn := FsInode.nptrs_of_file hd
  rw [hlba, hptr]
  obtain ⟨_, ho | hb⟩ := owns_or_mem_written h hi hend hlen hbs env (k := k)
    (by rw [blocksFor] at hlen hn; omega)
  · exact .inl ⟨_, ho⟩
  · exact .inr hb

/-- The image is well-formed at every write before that of the inode, with the same live
    objects. -/
theorem along_dataLog (env : Env) : Along put WF img (img.dataLog env i buf o bs) ∧
    img.table.Agree (img.puts (img.dataLog env i buf o bs)).table := by
  obtain ⟨hlive, hd, _⟩ := h.table.of_regular (writable_eq_ok.1 hi).1
  have hmarks := along_marks h fun b (hb : b ∈ bs) => h.free_lt (hbs.subset hb)
  have ha := agree_bitWrites h bitSet bs
  have hwf : (img.puts (bitWrites bitSet (img.block 1) bs)).WF := hmarks.last
  obtain ⟨halong, ha'⟩ := along_of_file hwf (ha.live.2 hlive) (by rwa [ha.inode hlive])
    (dataWrites ((img.table.inode i).written env (o + buf.length) bs).ptrAt
      (img.puts (bitWrites bitSet (img.block 1) bs)) buf o) fun w hw => by
    rcases lba_dataWrites h hi hend hlen hbs rfl hw with ⟨k, ho⟩ | hb
    · exact .inl ⟨k, (ha.owns hlive).2 ho⟩
    · obtain ⟨h2, hlt, hnr⟩ := h.unreferenced_of_mem_free (hbs.subset hb)
      exact .inr ⟨h2, (nblocks_puts_bitWrites h.one_lt).symm ▸ hlt,
        fun hr => hnr (ha.referenced.1 hr)⟩
  rw [dataLog, puts_append]
  exact ⟨hmarks.append halong, ha.trans ha'⟩

theorem lba_dataLog {w : Write} (hw : w ∈ img.dataLog env i buf o bs) :
    w.lba < img.nblocks ∧ (w.lba = 1 ∨ (∃ k, img.table.Owns i (.ptr k) w.lba) ∨ w.lba ∈ bs) := by
  obtain ⟨hlive, _⟩ := h.table.of_regular (writable_eq_ok.1 hi).1
  rcases List.mem_append.1 hw with hw | hw
  · rw [mem_bitWrites hw]
    exact ⟨h.one_lt, .inl rfl⟩
  · rcases lba_dataWrites h hi hend hlen hbs rfl hw with ⟨k, ho⟩ | hb
    · exact ⟨(h.table.owned hlive ho).2.1, .inr (.inl ⟨k, ho⟩)⟩
    · exact ⟨(lt_of_mem_free (hbs.subset hb)).2, .inr (.inr hb)⟩

/-- The bitmap before the inode is written. -/
theorem bitmap_dataLog :
    (img.puts (img.dataLog env i buf o bs)).block 1 = bs.foldl bitSet (img.block 1) := by
  obtain ⟨hlive, _⟩ := h.table.of_regular (writable_eq_ok.1 hi).1
  have hlba : ∀ w ∈ dataWrites ((img.table.inode i).written env (o + buf.length) bs).ptrAt
      (img.puts (bitWrites bitSet (img.block 1) bs)) buf o, w.lba < img.nblocks ∧ w.lba ≠ 1 := by
    intro w hw
    rcases lba_dataWrites h hi hend hlen hbs rfl hw with ⟨k, ho⟩ | hb
    · obtain ⟨h2, hlt, _⟩ := h.table.owned hlive ho
      exact ⟨hlt, (show 1 < w.lba from h2).ne'⟩
    · obtain ⟨h2, hlt⟩ := lt_of_mem_free (hbs.subset hb)
      exact ⟨hlt, (show 1 < w.lba from h2).ne'⟩
  rw [dataLog, puts_append, puts_block_of_notMem (fun w hw => ?_) fun w hw => (hlba w hw).2,
    bitmap_puts_bitWrites h.one_lt]
  rw [nblocks_puts_bitWrites h.one_lt]
  exact (hlba w hw).1

/-- The inode may be written after the data. -/
theorem canSetInode_written (env : Env) : CanSetInode (img.puts (img.dataLog env i buf o bs)).table i
    ((img.table.inode i).written env (o + buf.length) bs) := by
  obtain ⟨hlive, hd, h0, hle⟩ := h.table.of_regular (writable_eq_ok.1 hi).1
  obtain ⟨_, ha⟩ := along_dataLog h hi hend hlen hbs env
  have hn := nptrs_written env hd h0 hend hlen
  have hmode : ((img.table.inode i).written env (o + buf.length) bs).mode =
      (img.table.inode i).mode := mode_written
  refine
    { live := ha.live.2 hlive
      kind := by rw [ha.inode hlive, FsInode.isDir, FsInode.isDir, hmode]
      good := .inr ?_
      ptr := fun {k} hk => ?_
      inj := fun {k l} hk hl he => ?_ }
  · rw [FsInode.isReg, hmode, size_written _ _ _ hend]
    exact ⟨h.table.isReg hlive hd, by omega, by omega⟩
  · rw [hn] at hk
    have hk' : Fin.ofNat 1019 k.1 = k := Fin.ext (val_ofNat_1019 k.2)
    obtain ⟨_, ho⟩ := owns_or_mem_written h hi hend hlen hbs env hk
    rw [FsInode.ptrAt, hk'] at ho
    rcases ho with ho | hb
    · exact .inl ((ha.owns hlive).2 ho)
    · -- The block is new, so no object refers to it, and its bit has been set.
      obtain ⟨h2, hlt, hnr⟩ := h.unreferenced_of_mem_free (hbs.subset hb)
      refine .inr ⟨fun hr => hnr (ha.referenced.1 hr), h2, ha.nblocks.symm ▸ hlt, ?_⟩
      rw [table_marked, bitmap_dataLog h hi hend hlen hbs,
        bitTest_foldl_bitSet fun c hc => h.free_lt (hbs.subset hc), decide_eq_true hb, Bool.true_or]
  · rw [hn] at hk hl
    have hk' : Fin.ofNat 1019 k.1 = k := Fin.ext (val_ofNat_1019 k.2)
    have hl' : Fin.ofNat 1019 l.1 = l := Fin.ext (val_ofNat_1019 l.2)
    refine Fin.ext (ptrAt_written_injective h hi hend hlen hbs env hk hl ?_)
    rwa [FsInode.ptrAt, FsInode.ptrAt, hk', hl']

end Write

/-- The image is well-formed at every write of `fs_write`. -/
theorem WriteEnds.along {env : Env} {path : FsPath} (h : img.WF) {o : ℕ} {buf : List UInt8}
    (hend : o + buf.length ≤ 1019 * 4096) {r : Res ℕ} {ws : List Write}
    (he : img.WriteEnds env path buf o r ws) : Along put WF img ws := by
  cases he with
  | refused => exact h
  | noSpace => exact along_marks h fun b hb => h.free_lt hb
  | @done i bs hi hlen hbs =>
    obtain ⟨halong, ha⟩ := along_dataLog h hi hend hlen hbs env
    have hwf : (img.puts (img.dataLog env i buf o bs)).WF := halong.last
    have c := canSetInode_written h hi hend hlen hbs env
    refine halong.concat (hwf.putInode c fun hd => ?_)
    obtain ⟨hlive, hd', _⟩ := h.table.of_regular (writable_eq_ok.1 hi).1
    rw [c.kind, ha.inode hlive, hd'] at hd
    cases hd

theorem WriteEnds.writable {env : Env} {path : FsPath} (h : img.WF) {o : ℕ} {buf : List UInt8}
    (hend : o + buf.length ≤ 1019 * 4096) {r : Res ℕ} {ws : List Write}
    (he : img.WriteEnds env path buf o r ws) : Writable img.nblocks ws := by
  cases he with
  | refused => exact writable_nil
  | noSpace => exact writable_bitWrites h.table.three_le
  | done hi hlen hbs =>
    have hlive := (h.table.of_regular (writable_eq_ok.1 hi).1).1
    refine Writable.append (fun w hw => ?_) (writable_inode h hlive _)
    obtain ⟨hlt, h1 | ⟨k, ho⟩ | hb⟩ := lba_dataLog h hi hend hlen hbs hw
    · exact ⟨by omega, hlt⟩
    · exact ⟨lt_of_lt_of_le Nat.two_pos (h.table.owned hlive ho).1, hlt⟩
    · exact ⟨lt_of_lt_of_le Nat.two_pos (lt_of_mem_free (hbs.subset hb)).1, hlt⟩

end Image

end Cs5600
