import Cs5600.Visible
import Cs5600.Accounting

/-!
# Calls in twins

In images that are twins, a call that writes ends in the same way, and the
images are twins afterwards (`Op.Ends.twins`). For the calls show no byte that
they have not written (`NewEnds.visible` and so on): blocks that become those of
an object are written before they are linked, and a file that grows is written
up to its new end (`Twins.written`).
-/

namespace Cs5600

open LabelledGraph Table FsM

namespace Image

variable {img img' : Image} {env : Env} {path : FsPath} {r : Res Unit} {ws : List Write} {b j : ℕ}

/-! ## What a call shows -/

section Visible

variable (h : img.WF)
include h

theorem NewEnds.visible {need : ℕ} {init : List ℕ → List Write} (c : img.Makes need init)
    (hinit : ∀ bs, bs.length = need → ∀ b ∈ bs, ∃ w ∈ init bs, w.lba = b)
    (he : img.NewEnds path need init r ws) (hv : (img.puts ws).table.Visible b j) :
    img.table.Visible b j ∨ ∃ w ∈ ws, w.lba = b := by
  cases he with
  | refused => exact .inl hv
  | noBlocks => exact .inl ((agree_bitWrites h _ _).visible.1 hv)
  | noEntry _ _ hbs _ => exact .inl ((agree_fresh h hbs (c.lba _)).visible.1 hv)
  | @done p leaf bs k hl hlen hbs hk =>
    obtain ⟨ha, hlink, hput⟩ := c.agree_done h hl hlen hbs hk
    rcases hlink.visible_link (hput.visible.1 hv) with hv | ho
    · exact .inl (ha.visible.1 hv)
    · -- The blocks of the new object were written before it was linked.
      rw [Fin.val_ofNat, Nat.mod_eq_of_lt (h.headD_lt hbs)] at ho
      obtain ⟨w, hw, he⟩ := hinit bs hlen b ((c.owns hlen hbs).1 ho)
      exact .inr ⟨w, List.mem_append_left _ (List.mem_append_right _ hw), he⟩

theorem RemoveEnds.visible {check : ℕ → Option Errno} (hdir : img.table.ParentDir path)
    (hcheck : ∀ i, check i = none → (img.table.inode i).isDir = true →
      ∀ j, (img.table.dir i j).valid = false)
    (he : img.RemoveEnds path check r ws) (hv : (img.puts ws).table.Visible b j) :
    img.table.Visible b j := by
  cases he with
  | refused => exact hv
  | kept => exact hv
  | @done p k hl hc =>
    have c := canUnlink h hdir hl (hcheck _ hc)
    have hput := h.putUnlink c (b := img.dirPtr p) rfl
    have ha := agree_putUnlink h c (b := img.dirPtr p) rfl
    have hmap := (block_one_putDir h c.live c.isDir ((img.table.dir p).invalidate k).encode).2
    rw [puts_cons, ← hmap] at hv
    exact c.visible_unlink h.table (ha.visible.1 ((agree_bitWrites hput _ _).visible.1 hv))

theorem RenameEnds.visible {src dst : FsPath} (hdir : img.table.ParentDir src)
    (he : img.RenameEnds src dst r ws) (hv : (img.puts ws).table.Visible b j) :
    img.table.Visible b j := by
  cases he with
  | refused => exact hv
  | done hl =>
    have c := canRename h hdir hl
    exact c.visible_rename ((agree_putRename h c rfl).visible.1 hv)

theorem SetEnds.visible {f : FsInode → FsInode}
    (hf : ∀ x, (f x).mode &&& sIfmt = x.mode &&& sIfmt ∧ (f x).size = x.size ∧ (f x).ptrs = x.ptrs)
    (he : img.SetEnds path f r ws) (hv : (img.puts ws).table.Visible b j) :
    img.table.Visible b j := by
  cases he with
  | refused => exact hv
  | @done i hl =>
    have hlive := h.table.live_of_translate hl
    obtain ⟨htype, hsize, hptrs⟩ := hf (img.table.inode i)
    have c := canSetInode h hlive htype hsize hptrs
    rcases c.visible_setInode ((agree_putInode h c fun _ => by rw [hptrs]).visible.1 hv) with hv | hk
    · exact hv
    · obtain ⟨k, ho, hx⟩ := hk
      rw [owns_ptr, setInode_self, FsInode.nptrs, c.kind, hsize, hptrs] at ho
      rw [FsInode.Holds, c.kind, hsize] at hx
      exact .inr ⟨i, .ptr k, hlive, ho, hx⟩

theorem TruncateEnds.visible {len : ℤ} (he : img.TruncateEnds env path len r ws)
    (hv : (img.puts ws).table.Visible b j) : img.table.Visible b j := by
  cases he with
  | refused => exact hv
  | @done i hl =>
    obtain ⟨_, hi⟩ := truncatable_eq_ok.1 hl
    obtain ⟨_, hd, _⟩ := h.table.of_regular hi
    have c := canTruncate h env hi
    have hptr := ptrs_truncated h env hi
    have hput := h.putInode c hptr
    rw [puts_truncate h env hi] at hv
    replace hv := (agree_putInode h c hptr).visible.1 ((agree_bitWrites hput _ _).visible.1 hv)
    rcases c.visible_setInode hv with hv | ⟨k, ho, _⟩
    · exact hv
    · rw [owns_ptr, setInode_self, nptrs_truncated env hd] at ho
      exact absurd ho.1 (Nat.not_lt_zero _)

end Visible

/-! ## Ends in twins -/

section Twins

variable (h : img.WF) (ht : img.Twins img')
include h ht

theorem Twins.newEnds {need : ℕ} {init : List ℕ → List Write}
    (he : img.NewEnds path need init r ws) : img'.NewEnds path need init r ws := by
  have hleaf := ht.agree.newLeaf h.table path
  cases he with
  | refused hl => exact .refused (hleaf.trans hl)
  | noBlocks hl hf =>
    rw [← ht.bitmap, ← ht.free]
    exact .noBlocks (hleaf.trans hl) (ht.free.symm ▸ hf)
  | noEntry hl hlen hbs hk =>
    obtain ⟨hp, hd, _⟩ := newLeaf_eq_ok.1 hl
    rw [← ht.agree.dir (h.table.live_of_lookupParent hp) hd] at hk
    rw [← ht.bitmap]
    exact .noEntry (hleaf.trans hl) hlen (ht.free.symm ▸ hbs) hk
  | done hl hlen hbs hk =>
    obtain ⟨hp, hd, _⟩ := newLeaf_eq_ok.1 hl
    have hlive := h.table.live_of_lookupParent hp
    rw [← ht.agree.dir hlive hd] at hk
    rw [← ht.bitmap, ← ht.dirPtr hlive, ← ht.agree.dir hlive hd]
    exact .done (hleaf.trans hl) hlen (ht.free.symm ▸ hbs) hk

theorem Twins.removeEnds {check check' : ℕ → Option Errno} (hdir : img.table.ParentDir path)
    (hcheck : ∀ {i}, img.table.Live i → check' i = check i)
    (he : img.RemoveEnds path check r ws) : img'.RemoveEnds path check' r ws := by
  have hleaf := ht.agree.oldLeaf h.table path hdir
  cases he with
  | refused hl => exact .refused (hleaf.trans hl)
  | kept hl hc =>
    obtain ⟨leaf, hp, hk⟩ := oldLeaf_eq_ok.1 hl
    have hlive := h.table.live_of_lookupParent hp
    have hd := hdir _ _ hp
    have hi := hlive.child hd (FsDirent.named_iff.1 (DirBlock.of_find_eq_some hk)).1
    rw [← hcheck hi, ← ht.agree.dir hlive hd] at hc
    exact .kept (hleaf.trans hl) hc
  | done hl hc =>
    obtain ⟨leaf, hp, hk⟩ := oldLeaf_eq_ok.1 hl
    have hlive := h.table.live_of_lookupParent hp
    have hd := hdir _ _ hp
    have hi := hlive.child hd (FsDirent.named_iff.1 (DirBlock.of_find_eq_some hk)).1
    rw [← ht.agree.inode hi]
    rw [← hcheck hi, ← ht.agree.dir hlive hd] at hc
    rw [← ht.bitmap, ← ht.dirPtr hlive, ← ht.agree.dir hlive hd]
    exact .done (hleaf.trans hl) hc

theorem Twins.renameEnds {src dst : FsPath} (hdir : img.table.ParentDir src)
    (he : img.RenameEnds src dst r ws) : img'.RenameEnds src dst r ws := by
  have hren := ht.agree.renamed h.table src dst hdir
  cases he with
  | refused hl => exact .refused (hren.trans hl)
  | done hl =>
    have c := canRename h hdir hl
    rw [← ht.dirPtr c.live, ← ht.agree.dir c.live c.isDir]
    exact .done (hren.trans hl)

theorem Twins.setEnds {f : FsInode → FsInode} (he : img.SetEnds path f r ws) :
    img'.SetEnds path f r ws := by
  have htr := ht.agree.translate path
  cases he with
  | refused hl => exact .refused (htr.trans hl)
  | done hl =>
    rw [← ht.agree.inode (h.table.live_of_translate hl)]
    exact .done (htr.trans hl)

theorem Twins.truncateEnds {len : ℤ} (he : img.TruncateEnds env path len r ws) :
    img'.TruncateEnds env path len r ws := by
  have htr := ht.agree.truncatable h.table path len
  cases he with
  | refused hl => exact .refused (htr.trans hl)
  | done hl =>
    rw [← ht.bitmap, ← ht.agree.inode (h.table.of_regular (truncatable_eq_ok.1 hl).2).1]
    exact .done (htr.trans hl)

end Twins

/-! ## Writing to a file -/

section Write

variable (h : img.WF) {i o : ℕ} {buf : List UInt8} {bs : List ℕ}
  (hi : img.table.writable path o = .ok i) (hend : o + buf.length ≤ 1019 * 4096)
  (hlen : bs.length = blocksFor (o + buf.length) - (img.table.inode i).nptrs)
  (hbs : bs <+: img.free) (env : Env)
include h hi hend hlen hbs

/-- The image after its last write. -/
theorem puts_written : (img.puts (img.dataLog env i buf o bs ++
      [⟨i, ((img.table.inode i).written env (o + buf.length) bs).encode⟩])).nblocks = img.nblocks ∧
    ∀ c, (img.puts (img.dataLog env i buf o bs ++
        [⟨i, ((img.table.inode i).written env (o + buf.length) bs).encode⟩])).block c =
      if c = i then ((img.table.inode i).written env (o + buf.length) bs).encode
      else (img.puts (img.dataLog env i buf o bs)).block c := by
  have ha := (along_dataLog h hi hend hlen hbs env).2
  have hlive := (h.table.of_regular (writable_eq_ok.1 hi).1).1
  have hlt : i < (img.puts (img.dataLog env i buf o bs)).nblocks :=
    lt_of_lt_of_eq (h.table.lt_of_live hlive).2 ha.nblocks.symm
  rw [puts_append, puts_cons, puts_nil]
  refine ⟨(put_nblocks (w := ⟨i, _⟩) hlt).trans ha.nblocks, fun c => ?_⟩
  split_ifs with hc
  · rw [hc]
    exact put_block_self (w := ⟨i, _⟩) hlt
  · exact put_block_of_ne (w := ⟨i, _⟩) hlt hc

/-- The first two blocks before the inode is written. -/
theorem reserved_dataLog {c : ℕ} (hc : c < 2) : (img.puts (img.dataLog env i buf o bs)).block c =
    if c = 1 then bs.foldl bitSet (img.block 1) else img.block c := by
  split_ifs with h1
  · rw [h1, bitmap_dataLog h hi hend hlen hbs]
  · refine puts_block_of_notMem (fun w hw => (lba_dataLog h hi hend hlen hbs hw).1) fun w hw he => ?_
    have hlive := (h.table.of_regular (writable_eq_ok.1 hi).1).1
    rcases (lba_dataLog h hi hend hlen hbs hw).2 with h1' | ⟨k, ho⟩ | hb
    · omega
    · have := (h.table.owned hlive ho).1
      omega
    · have := (lt_of_mem_free (hbs.subset hb)).1
      omega

/-- What can be seen once a file is written. -/
theorem visible_written (hv : (img.puts (img.dataLog env i buf o bs ++
      [⟨i, ((img.table.inode i).written env (o + buf.length) bs).encode⟩])).table.Visible b j) :
    b < 2 ∨ b = i ∨
      (∃ l r, img.table.Live l ∧ l ≠ i ∧ img.table.Owns l r b ∧ (img.table.inode l).Holds j r) ∨
      ∃ k : Fin 1019, b = ((img.table.inode i).written env (o + buf.length) bs).ptrAt k ∧
        k.1 * 4096 + j < max (img.table.inode i).size.toInt.toNat (o + buf.length) := by
  obtain ⟨hlive, hd, _⟩ := h.table.of_regular (writable_eq_ok.1 hi).1
  obtain ⟨halong, ha⟩ := along_dataLog h hi hend hlen hbs env
  have hwf : (img.puts (img.dataLog env i buf o bs)).WF := halong.last
  have c := canSetInode_written h hi hend hlen hbs env
  have hd' : ((img.table.inode i).written env (o + buf.length) bs).isDir = false := by
    rw [c.kind, ha.inode hlive, hd]
  rw [puts_append, puts_cons, puts_nil] at hv
  replace hv := (agree_putInode hwf c fun hdt => absurd (hd'.symm.trans hdt) (by decide)).visible.1 hv
  rcases hv with hb | ⟨l, r, hl, ho, hx⟩
  · exact .inl hb
  · replace hl := ha.live.1 ((live_setInode c.kind).1 hl)
    by_cases hli : l = i
    · subst hli
      rw [setInode_self] at hx
      cases r with
      | inode => exact .inr (.inl ho)
      | ptr k =>
        have hk' : Fin.ofNat 1019 k.1 = k := Fin.ext (val_ofNat_1019 k.2)
        have hsize := size_written env bs (img.table.inode l) hend
        rw [owns_ptr, setInode_self] at ho
        -- In the file, only what is below the new size can be seen.
        refine .inr (.inr (.inr ⟨k, by rw [FsInode.ptrAt, hk']; exact ho.2, ?_⟩))
        have hlt := hx.resolve_left (by rw [hd']; decide)
        omega
    · rw [setInode_of_ne hli, ha.inode hl] at hx
      exact .inr (.inr (.inl ⟨l, r, hl, hli, (ha.owns hl).1 ((owns_setInode_of_ne hli).1 ho), hx⟩))

end Write

/-- Twins stay twins when the same bytes are written to a file of both. -/
theorem Twins.written (ht : img.Twins img') (h : img.WF) (h' : img'.WF) {i o : ℕ}
    {buf : List UInt8} {bs : List ℕ} (hi : img.table.writable path o = .ok i)
    (hend : o + buf.length ≤ 1019 * 4096)
    (hlen : bs.length = blocksFor (o + buf.length) - (img.table.inode i).nptrs)
    (hbs : bs <+: img.free) (env : Env) :
    (img.puts (img.dataLog env i buf o bs ++
      [⟨i, ((img.table.inode i).written env (o + buf.length) bs).encode⟩])).Twins
    (img'.puts (img'.dataLog env i buf o bs ++
      [⟨i, ((img'.table.inode i).written env (o + buf.length) bs).encode⟩])) := by
  obtain ⟨hreg, hle⟩ := writable_eq_ok.1 hi
  obtain ⟨hlive, hd, h0, _⟩ := h.table.of_regular hreg
  have hx := ht.agree.inode hlive
  have hi' : img'.table.writable path o = .ok i := (ht.agree.writable h.table path o).trans hi
  have hlen' : bs.length = blocksFor (o + buf.length) - (img'.table.inode i).nptrs := by rwa [hx]
  have hbs' : bs <+: img'.free := ht.free.symm ▸ hbs
  obtain ⟨hn, hput⟩ := puts_written h hi hend hlen hbs env
  obtain ⟨hn', hput'⟩ := puts_written h' hi' hend hlen' hbs' env
  refine ⟨by rw [hn, hn', ht.nblocks], fun {b j} hv => ?_⟩
  -- A byte that can be seen is one of the first two blocks, of the inode, of another object or of
  -- the file.
  rcases visible_written h hi hend hlen hbs env hv with hb | hbi | ⟨l, r, hl, hli, ho, hr⟩ | ⟨k, hb, hk⟩
  · have hbi : b ≠ i := fun he => by
      have := (h.table.lt_of_live hlive).1
      omega
    rw [hput, hput', if_neg hbi, if_neg hbi, reserved_dataLog h hi hend hlen hbs env hb,
      reserved_dataLog h' hi' hend hlen' hbs' env hb, ht.bitmap, ht.block fun _ => .inl hb]
  · rw [hput, hput', if_pos hbi, if_pos hbi, hx]
  · have hbi : b ≠ i := fun he => hli (h.table.disjoint hl hlive ho (owns_inode.2 he)).1
    rw [hput, hput', if_neg hbi, if_neg hbi, block_dataLog_of_ne h hi hend hlen hbs hl hli ho,
      block_dataLog_of_ne h' hi' hend hlen' hbs' (ht.agree.live.2 hl) hli ((ht.agree.owns hl).2 ho)]
    exact ht.byte (.inr ⟨l, r, hl, ho, hr⟩)
  · by_cases hj : j < 4096
    · -- The byte is one that is written, or one that was below the end of the file before.
      have hq := fileByte_written h hi hend hlen hbs env hk
      have hq' := fileByte_written h' hi' hend hlen' hbs' env (q := k.1 * 4096 + j) (by rwa [hx])
      have hdiv : (k.1 * 4096 + j) / 4096 = k := by omega
      have hmod : (k.1 * 4096 + j) % 4096 = j := by omega
      rw [hx] at hq' ⊢
      rw [Image.fileByte, hdiv, hmod, ← hb] at hq hq'
      rw [hq, hq']
      split_ifs with hin
      · rfl
      · exact ht.fileByte h hlive hd (by omega)
    · rw [Block.byte, dif_neg hj, Block.byte, dif_neg hj]

theorem Twins.writeEnds (ht : img.Twins img') (h : img.WF) (h' : img'.WF) {buf : List UInt8}
    {o : ℕ} (hend : o + buf.length ≤ 1019 * 4096) {r : Res ℕ}
    (he : img.WriteEnds env path buf o r ws) :
    ∃ ws', img'.WriteEnds env path buf o r ws' ∧ (img.puts ws).Twins (img'.puts ws') := by
  have hwr := ht.agree.writable h.table path o
  have hw := he.writable h hend
  cases he with
  | refused hl => exact ⟨[], .refused (hwr.trans hl), ht⟩
  | noSpace hl hf =>
    have hlive := (h.table.of_regular (writable_eq_ok.1 hl).1).1
    refine ⟨_, ?_, ht.puts hw fun hv => .inl ((agree_bitWrites h _ _).visible.1 hv)⟩
    rw [← ht.bitmap, ← ht.free]
    exact .noSpace (hwr.trans hl) (by rwa [ht.free, ht.agree.inode hlive])
  | done hl hlen hbs =>
    have hlive := (h.table.of_regular (writable_eq_ok.1 hl).1).1
    refine ⟨_, .done (hwr.trans hl) ?_ (ht.free.symm ▸ hbs), ht.written h h' hl hend hlen hbs env⟩
    rwa [ht.agree.inode hlive]

end Image

/-! ## Calls that write -/

section Ends

variable {env : Env} {img img' : Image} {op : Op} {r : Res Out} {ws : List Write}

/-- The arguments of a call are as FUSE passes them in both of two twins. -/
theorem Image.Twins.ok (ht : img.Twins img') (h : img.WF) (hop : op.Ok img) : op.Ok img' := by
  cases op with
  | unlink path => exact (ht.agree.parentDir h.table path).2 hop
  | rmdir path => exact (ht.agree.parentDir h.table path).2 hop
  | rename src dst => exact (ht.agree.parentDir h.table src).2 hop
  | _ => exact hop

theorem mem_newFile {bs : List ℕ} (mode : UInt32) (hlen : bs.length = 1) {b : ℕ} (hb : b ∈ bs) :
    ∃ w ∈ newFile env mode bs, w.lba = b := by
  obtain ⟨n, rfl⟩ := List.length_eq_one_iff.1 hlen
  exact ⟨_, List.mem_singleton_self _, (List.mem_singleton.1 hb).symm⟩

theorem mem_newDir {bs : List ℕ} (mode : UInt32) (hlen : bs.length = 2) {b : ℕ} (hb : b ∈ bs) :
    ∃ w ∈ newDir env mode bs, w.lba = b := by
  obtain ⟨n, c, rfl⟩ := List.length_eq_two.1 hlen
  rcases List.mem_pair.1 hb with rfl | rfl
  · exact ⟨_, List.mem_cons_of_mem _ List.mem_cons_self, rfl⟩
  · exact ⟨_, List.mem_cons_self, rfl⟩

/-- A call ends in the same way in twins, and they stay twins. -/
theorem Op.Ends.twins (ht : img.Twins img') (h : img.WF) (h' : img'.WF) (hop : op.Ok img)
    (he : op.Ends env img r ws) :
    ∃ ws', op.Ends env img' r ws' ∧ (img.puts ws).Twins (img'.puts ws') := by
  have hw := he.writable h hop
  cases he with
  | @create path mode r ws he =>
    refine ⟨ws, .create (ht.newEnds h he), ht.puts hw fun hv => ?_⟩
    exact he.visible h (Image.makes_newFile h hop) (fun _ hlen _ => mem_newFile mode hlen) hv
  | @mkdir path mode r ws he =>
    refine ⟨ws, .mkdir (ht.newEnds h he), ht.puts hw fun hv => ?_⟩
    exact he.visible h (Image.makes_newDir h hop) (fun _ hlen _ => mem_newDir mode hlen) hv
  | unlink he =>
    refine ⟨ws, .unlink (ht.removeEnds h hop (fun hi => ?_) he), ht.puts hw fun hv =>
      .inl (he.visible h hop unlinkCheck_leaf hv)⟩
    rw [unlinkCheck, unlinkCheck, ht.agree.inode hi]
  | rmdir he =>
    refine ⟨ws, .rmdir (ht.removeEnds h hop (fun {i} hi => ?_) he), ht.puts hw fun hv =>
      .inl (he.visible h hop rmdirCheck_leaf hv)⟩
    rw [rmdirCheck, rmdirCheck, ht.agree.inode hi]
    -- The entries of a directory are read by `fs_rmdir`, and those of twins are alike.
    by_cases hd : (img.table.inode i).isDir = true
    · rw [if_pos hd, if_pos hd, ht.agree.dir hi hd]
    · rw [if_neg hd, if_neg hd]
  | rename he =>
    exact ⟨ws, .rename (ht.renameEnds h hop he), ht.puts hw fun hv => .inl (he.visible h hop hv)⟩
  | chmod he =>
    exact ⟨ws, .chmod (ht.setEnds h he), ht.puts hw fun hv =>
      .inl (he.visible h (Image.chmod_keeps _) hv)⟩
  | utime he =>
    exact ⟨ws, .utime (ht.setEnds h he), ht.puts hw fun hv =>
      .inl (he.visible h (Image.utime_keeps _) hv)⟩
  | truncate he =>
    exact ⟨ws, .truncate (ht.truncateEnds h he), ht.puts hw fun hv => .inl (he.visible h hv)⟩
  | write he =>
    obtain ⟨ws', he', htw⟩ := ht.writeEnds h h' (by have := hop.2; omega) he
    exact ⟨ws', .write he', htw⟩

end Ends

end Cs5600
