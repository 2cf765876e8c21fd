import Mathlib.Data.List.Nodup
import Cs5600.FileParent

/-!
# Accounting for blocks

The bitmap is *exact* if the marked blocks are the first two and those that
objects refer to (`Image.Exact`): then no block is lost. A call that succeeds
either allocates blocks, which become blocks of objects (`Image.Allocates`), or
frees blocks that objects no longer refer to (`Image.Frees`), if it changes the
bitmap at all. Both keep the bitmap exact, and change the number of free blocks
by as many blocks as there are (`Image.Gains`).

How many these are depends on the call and on the size of its file
(`Op.gain`).
-/

namespace Cs5600

open LabelledGraph Table FsM

/-! ## Referenced blocks -/

namespace Table

variable {t : Table} {p b : ℕ}

theorem CanLink.referenced_link {k : Fin 128} {n : Fin (2 ^ 31)} {name : List UInt8}
    (c : CanLink t p k n name) :
    (t.link p k n name).Referenced b ↔ t.Referenced b ∨ ∃ r, t.Owns n r b := by
  constructor
  · rintro ⟨i, r, hi, ho⟩
    rcases c.live_link.1 hi with hi | rfl
    · exact .inl ⟨i, r, hi, owns_setDir.1 ho⟩
    · exact .inr ⟨r, owns_setDir.1 ho⟩
  · rintro (⟨i, r, hi, ho⟩ | ⟨r, ho⟩)
    · exact ⟨i, r, c.live_link.2 (.inl hi), owns_setDir.2 ho⟩
    · exact ⟨n, r, c.live_link.2 (.inr rfl), owns_setDir.2 ho⟩

theorem CanUnlink.referenced_unlink {k : Fin 128} (c : CanUnlink t p k) (h : t.WF) :
    (t.unlink p k).Referenced b ↔
      t.Referenced b ∧ ¬∃ r, t.Owns (t.dir p k).inode r b := by
  constructor
  · rintro ⟨i, r, hi, ho⟩
    obtain ⟨hi, hne⟩ := (c.live_unlink h).1 hi
    refine ⟨⟨i, r, hi, owns_setDir.1 ho⟩, fun ⟨r', ho'⟩ => hne ?_⟩
    exact (h.disjoint hi (c.live.child c.isDir c.valid) (owns_setDir.1 ho) ho').1
  · rintro ⟨⟨i, r, hi, ho⟩, hno⟩
    refine ⟨i, r, (c.live_unlink h).2 ⟨hi, fun he => hno ⟨r, ?_⟩⟩, owns_setDir.2 ho⟩
    rw [← he]
    exact ho

theorem CanRename.referenced_rename {k : Fin 128} {name : List UInt8} (c : CanRename t p k name) :
    (t.rename p k name).Referenced b ↔ t.Referenced b :=
  ⟨fun ⟨i, r, hi, ho⟩ => ⟨i, r, (live_rename c.isDir).1 hi, owns_setDir.1 ho⟩,
    fun ⟨i, r, hi, ho⟩ => ⟨i, r, (live_rename c.isDir).2 hi, owns_setDir.2 ho⟩⟩

/-- With another inode, the blocks of that object may be other ones. -/
theorem CanSetInode.referenced_setInode {x : FsInode} (c : CanSetInode t p x) :
    (t.setInode p x).Referenced b ↔
      (∃ i r, t.Live i ∧ i ≠ p ∧ t.Owns i r b) ∨ ∃ r, (t.setInode p x).Owns p r b := by
  constructor
  · rintro ⟨i, r, hi, ho⟩
    by_cases hip : i = p
    · subst hip
      exact .inr ⟨r, ho⟩
    · exact .inl ⟨i, r, (live_setInode c.kind).1 hi, hip, (owns_setInode_of_ne hip).1 ho⟩
  · rintro (⟨i, r, hi, hip, ho⟩ | ⟨r, ho⟩)
    · exact ⟨i, r, (live_setInode c.kind).2 hi, (owns_setInode_of_ne hip).2 ho⟩
    · exact ⟨p, r, (live_setInode c.kind).2 c.live, ho⟩

/-- The blocks of an object are different ones. -/
theorem WF.nodup_blocks (h : t.WF) {i : ℕ} (hi : t.Live i) : (i :: (t.inode i).used).Nodup := by
  refine List.nodup_cons.2 ⟨fun hmem => ?_, ?_⟩
  · obtain ⟨k, ho⟩ := (h.mem_used hi).1 hmem
    exact Role.noConfusion (h.disjoint hi hi (owns_inode.2 rfl) ho).2
  · refine List.Nodup.map_on (fun k hk l hl he => ?_) List.nodup_range
    have hk := List.mem_range.1 hk
    have hl := List.mem_range.1 hl
    have hk' := lt_of_lt_of_le hk (h.nptrs_le hi)
    have hl' := lt_of_lt_of_le hl (h.nptrs_le hi)
    have hok : t.Owns i (.ptr (Fin.ofNat 1019 k)) ((t.inode i).ptrAt k) :=
      owns_ptr.2 ⟨(val_ofNat_1019 hk').symm ▸ hk, rfl⟩
    have hol : t.Owns i (.ptr (Fin.ofNat 1019 l)) ((t.inode i).ptrAt k) :=
      owns_ptr.2 ⟨(val_ofNat_1019 hl').symm ▸ hl, he⟩
    have hval := congrArg Fin.val (Role.ptr.inj (h.disjoint hi hi hok hol).2)
    rwa [val_ofNat_1019 hk', val_ofNat_1019 hl'] at hval

end Table

theorem FsInode.length_used (x : FsInode) : x.used.length = x.nptrs := by
  rw [used, List.length_map, List.length_range]

/-! ## Gains and losses -/

namespace Image

/-- The marked blocks are the first two, and those that are referenced. -/
def Exact (img : Image) : Prop := ∀ b, img.table.marked b = true ↔ b < 2 ∨ img.table.Referenced b

/-- The bitmap stays exact, and `d` blocks become free. -/
def Gains (img img' : Image) (d : ℤ) : Prop :=
  (img.Exact → img'.Exact) ∧ (img'.free.length : ℤ) = img.free.length + d

/-- The free blocks `bs` become blocks of objects. -/
structure Allocates (img img' : Image) (bs : List ℕ) : Prop where
  nblocks : img'.nblocks = img.nblocks
  free : bs <+: img.free
  bitmap : img'.block 1 = bs.foldl bitSet (img.block 1)
  referenced : ∀ {b}, img'.table.Referenced b ↔ img.table.Referenced b ∨ b ∈ bs

/-- The blocks `bs` of objects become free. -/
structure Frees (img img' : Image) (bs : List ℕ) : Prop where
  nblocks : img'.nblocks = img.nblocks
  nodup : bs.Nodup
  owned : ∀ {b}, b ∈ bs → img.table.Referenced b
  bitmap : img'.block 1 = bs.foldl bitClear (img.block 1)
  referenced : ∀ {b}, img'.table.Referenced b ↔ img.table.Referenced b ∧ b ∉ bs

variable {img img' : Image} {bs : List ℕ}

theorem mem_free {b : ℕ} :
    b ∈ img.free ↔ 2 ≤ b ∧ b < img.nblocks ∧ bitTest (img.block 1) b = false := mem_freeBlocks

theorem Allocates.gains (h : img.WF) (ha : img.Allocates img' bs) : img.Gains img' (-bs.length) := by
  have hbit : ∀ {b}, bitTest (img'.block 1) b = (decide (b ∈ bs) || bitTest (img.block 1) b) := by
    intro b
    rw [ha.bitmap, bitTest_foldl_bitSet fun c hc => h.free_lt (ha.free.subset hc)]
  refine ⟨fun hx b => ?_, ?_⟩
  · rw [table_marked, hbit, ha.referenced, Bool.or_eq_true, decide_eq_true_eq, ← table_marked, hx b]
    tauto
  · have hperm : img.free.Perm (bs ++ img'.free) := by
      refine (List.perm_ext_iff_of_nodup freeBlocks_nodup ?_).2 fun b => ?_
      · refine List.Nodup.append (ha.free.sublist.nodup freeBlocks_nodup) freeBlocks_nodup ?_
        intro b hb hb'
        have hfree := (mem_free.1 hb').2.2
        rw [hbit, decide_eq_true hb, Bool.true_or] at hfree
        cases hfree
      · rw [List.mem_append, mem_freeBlocks, mem_free, ha.nblocks, hbit]
        by_cases hb : b ∈ bs
        · exact iff_of_true (mem_free.1 (ha.free.subset hb)) (.inl hb)
        · simp [hb]
    rw [hperm.length_eq, List.length_append]
    omega

theorem Frees.gains (h : img.WF) (ha : img.Frees img' bs) : img.Gains img' bs.length := by
  have hcap : img.nblocks ≤ 32768 := h.table.le_cap
  have howned : ∀ {b}, b ∈ bs → 2 ≤ b ∧ b < img.nblocks ∧ bitTest (img.block 1) b = true :=
    fun hb => let ⟨_, _, hi, ho⟩ := ha.owned hb; h.table.owned hi ho
  -- A bit is set afterwards if it was, and its block is not freed.
  have hbit : ∀ {b}, bitTest (img'.block 1) b = (!decide (b ∈ bs) && bitTest (img.block 1) b) := by
    intro b
    rw [ha.bitmap, bitTest_foldl_bitClear fun c hc => lt_of_lt_of_le (howned hc).2.1 hcap]
  refine ⟨fun hx b => ?_, ?_⟩
  · rw [table_marked, hbit, ha.referenced, Bool.and_eq_true, ← table_marked, hx b, Bool.not_eq_true',
      decide_eq_false_iff_not]
    constructor
    · rintro ⟨hb, h2 | hr⟩
      · exact .inl h2
      · exact .inr ⟨hr, hb⟩
    · rintro (h2 | ⟨hr, hb⟩)
      · exact ⟨fun hb => absurd (howned hb).1 (not_le.2 h2), .inl h2⟩
      · exact ⟨hb, .inr hr⟩
  · have hperm : img'.free.Perm (bs ++ img.free) := by
      refine (List.perm_ext_iff_of_nodup freeBlocks_nodup ?_).2 fun b => ?_
      · refine List.Nodup.append ha.nodup freeBlocks_nodup ?_
        intro b hb hb'
        have hfree := (mem_free.1 hb').2.2
        rw [(howned hb).2.2] at hfree
        cases hfree
      · rw [List.mem_append, mem_freeBlocks, mem_free, ha.nblocks, hbit]
        by_cases hb : b ∈ bs
        · simp [hb, (howned hb).1, (howned hb).2.1]
        · simp [hb]
    rw [hperm.length_eq, List.length_append]
    omega

/-! ## How calls gain blocks -/

section Ends

variable {path : FsPath} {r : Res Unit} {ws : List Write}

theorem NewEnds.allocates (h : img.WF) {need : ℕ} {init : List ℕ → List Write}
    (c : img.Makes need init) (he : img.NewEnds path need init (.ok ()) ws) :
    ∃ bs, bs.length = need ∧ img.Allocates (img.puts ws) bs := by
  cases he with
  | @done p leaf bs k hl hlen hbs hk =>
    obtain ⟨hlp, hd, _⟩ := newLeaf_eq_ok.1 hl
    obtain ⟨ha, hlink, hput⟩ := c.agree_done h hl hlen hbs hk
    obtain ⟨h2, hlt⟩ := h.table.dir_lt (h.table.live_of_lookupParent hlp) hd
    have hn := nblocks_fresh h hbs (c.lba bs)
    obtain ⟨hn', hmap⟩ := block_one_put (w := ⟨img.dirPtr p,
      ((img.table.dir p).add k (Fin.ofNat _ (bs.headD 0)) leaf).encode⟩) h2 (lt_of_lt_of_eq hlt hn.symm)
    refine ⟨bs, hlen, ?_, hbs, ?_, fun {b} => ?_⟩
    · rw [puts_append, puts_cons, puts_nil, hn', hn]
    · rw [puts_append, puts_cons, puts_nil, hmap, bitmap_fresh h hbs (c.lba bs)]
    · rw [hput.referenced, hlink.referenced_link, ha.referenced, Fin.val_ofNat,
        Nat.mod_eq_of_lt (h.headD_lt hbs), c.owns hlen hbs]

theorem RemoveEnds.frees (h : img.WF) {check : ℕ → Option Errno}
    (hdir : img.table.ParentDir path)
    (hcheck : ∀ i, check i = none → (img.table.inode i).isDir = true →
      ∀ j, (img.table.dir i j).valid = false)
    (he : img.RemoveEnds path check (.ok ()) ws) : ∃ p k, img.table.oldLeaf path = .ok (p, k) ∧
      check (img.table.dir p k).inode = none ∧ img.Frees (img.puts ws)
        ((img.table.dir p k).inode.1 :: (img.table.inode (img.table.dir p k).inode).used) := by
  cases he with
  | @done p k hl hc =>
    have c := canUnlink h hdir hl (hcheck _ hc)
    have hput := h.putUnlink c (b := img.dirPtr p) rfl
    have ha := agree_putUnlink h c (b := img.dirPtr p) rfl
    have hi := c.live.child c.isDir c.valid
    obtain ⟨hn, hmap⟩ := block_one_putDir h c.live c.isDir ((img.table.dir p).invalidate k).encode
    refine ⟨p, k, hl, hc, ?_⟩
    rw [puts_cons, ← hmap]
    refine ⟨?_, h.table.nodup_blocks hi, fun {b} hb => ?_, ?_, fun {b} => ?_⟩
    · rw [nblocks_puts_bitWrites hput.one_lt, hn]
    · obtain ⟨r, ho⟩ := (h.table.mem_blocks hi).1 hb
      exact ⟨_, r, hi, ho⟩
    · rw [bitmap_puts_bitWrites hput.one_lt, hmap]
    · rw [(agree_bitWrites hput _ _).referenced, ha.referenced, c.referenced_unlink h.table,
        h.table.mem_blocks hi]

theorem RenameEnds.frees {src dst : FsPath} (h : img.WF) (hdir : img.table.ParentDir src)
    (he : img.RenameEnds src dst (.ok ()) ws) : img.Frees (img.puts ws) [] := by
  cases he with
  | @done p k leaf hl =>
    have c := canRename h hdir hl
    obtain ⟨hn, hmap⟩ := block_one_putDir h c.live c.isDir ((img.table.dir p).rename k leaf).encode
    refine ⟨hn, List.nodup_nil, fun hb => absurd hb List.not_mem_nil, hmap, fun {b} => ?_⟩
    rw [puts_cons, puts_nil, (agree_putRename h c (b := img.dirPtr p) rfl).referenced,
      c.referenced_rename, and_iff_left List.not_mem_nil]

/-- What writing an inode does to the referenced blocks. -/
theorem referenced_putInode (h : img.WF) {i : ℕ} {x : FsInode} (c : CanSetInode img.table i x)
    (hptr : x.isDir = true → x.ptrs 0 = (img.table.inode i).ptrs 0) {b : ℕ} :
    (img.put ⟨i, x.encode⟩).table.Referenced b ↔
      (∃ j r, img.table.Live j ∧ j ≠ i ∧ img.table.Owns j r b) ∨
        ∃ r, (img.table.setInode i x).Owns i r b := by
  rw [(agree_putInode h c hptr).referenced, c.referenced_setInode]

theorem SetEnds.frees (h : img.WF) {f : FsInode → FsInode}
    (hf : ∀ x, (f x).mode &&& sIfmt = x.mode &&& sIfmt ∧ (f x).size = x.size ∧ (f x).ptrs = x.ptrs)
    (he : img.SetEnds path f (.ok ()) ws) : img.Frees (img.puts ws) [] := by
  cases he with
  | @done i hl =>
    have hlive := h.table.live_of_translate hl
    obtain ⟨htype, hsize, hptrs⟩ := hf (img.table.inode i)
    have c := canSetInode h hlive htype hsize hptrs
    obtain ⟨hn, hmap⟩ := block_one_putInode h hlive (f (img.table.inode i))
    refine ⟨hn, List.nodup_nil, fun hb => absurd hb List.not_mem_nil, hmap, fun {b} => ?_⟩
    -- The object has the same blocks as before.
    have hown : ∀ r, (img.table.setInode i (f (img.table.inode i))).Owns i r b ↔
        img.table.Owns i r b := by
      intro r
      cases r with
      | inode => exact Iff.rfl
      | ptr k =>
        rw [owns_ptr, owns_ptr, setInode_self, FsInode.nptrs, FsInode.nptrs, c.kind, hsize, hptrs]
    rw [puts_cons, puts_nil, referenced_putInode h c fun _ => by rw [hptrs],
      and_iff_left List.not_mem_nil]
    simp only [hown]
    constructor
    · rintro (⟨j, r, hj, _, ho⟩ | ⟨r, ho⟩)
      · exact ⟨j, r, hj, ho⟩
      · exact ⟨i, r, hlive, ho⟩
    · rintro ⟨j, r, hj, ho⟩
      by_cases hji : j = i
      · subst hji
        exact .inr ⟨r, ho⟩
      · exact .inl ⟨j, r, hj, hji, ho⟩

theorem TruncateEnds.frees (h : img.WF) {env : Env} {len : ℤ}
    (he : img.TruncateEnds env path len (.ok ()) ws) : ∃ i, img.table.regular path = .ok i ∧
      img.Frees (img.puts ws) (img.table.inode i).used := by
  cases he with
  | @done i hl =>
    obtain ⟨_, hi⟩ := truncatable_eq_ok.1 hl
    obtain ⟨hlive, hd, _⟩ := h.table.of_regular hi
    have c := canTruncate h env hi
    have hptr := ptrs_truncated h env hi
    have hput := h.putInode c hptr
    obtain ⟨hn, hmap⟩ := block_one_putInode h hlive ((img.table.inode i).truncated env)
    refine ⟨i, hi, ?_⟩
    rw [puts_truncate h env hi]
    refine ⟨?_, (List.nodup_cons.1 (h.table.nodup_blocks hlive)).2, fun {b} hb => ?_, ?_,
      fun {b} => ?_⟩
    · rw [nblocks_puts_bitWrites hput.one_lt, hn]
    · obtain ⟨k, ho⟩ := (h.table.mem_used hlive).1 hb
      exact ⟨i, _, hlive, ho⟩
    · rw [bitmap_puts_bitWrites hput.one_lt, hmap]
    · rw [(agree_bitWrites hput _ _).referenced, referenced_putInode h c hptr,
        h.table.mem_used hlive]
      constructor
      · rintro (⟨j, r, hj, hji, ho⟩ | ⟨r, ho⟩)
        · -- The blocks of other objects are none of the file's.
          exact ⟨⟨j, r, hj, ho⟩, fun ⟨k, ho'⟩ => hji (h.table.disjoint hj hlive ho ho').1⟩
        · cases r with
          | inode =>
            refine ⟨⟨i, .inode, hlive, ho⟩, fun ⟨k, ho'⟩ => ?_⟩
            exact Role.noConfusion (h.table.disjoint hlive hlive (owns_inode.2 ho) ho').2
          | ptr k =>
            -- An empty file has no blocks but that of its inode.
            rw [owns_ptr, setInode_self, nptrs_truncated env hd] at ho
            exact absurd ho.1 (Nat.not_lt_zero _)
      · rintro ⟨⟨j, r, hj, ho⟩, hno⟩
        by_cases hji : j = i
        · subst hji
          cases r with
          | inode => exact .inr ⟨.inode, ho⟩
          | ptr k => exact absurd ⟨k, ho⟩ hno
        · exact .inl ⟨j, r, hj, hji, ho⟩

/-- The blocks of a file that is written: its old ones, and the new ones. -/
theorem owns_written (h : img.WF) {env : Env} {buf : List UInt8} {i o : ℕ}
    (hi : img.table.writable path o = .ok i) (hend : o + buf.length ≤ 1019 * 4096)
    (hlen : bs.length = blocksFor (o + buf.length) - (img.table.inode i).nptrs)
    (hbs : bs <+: img.free) (t : Table) {b : ℕ} :
    (∃ r, (t.setInode i ((img.table.inode i).written env (o + buf.length) bs)).Owns i r b) ↔
      (∃ r, img.table.Owns i r b) ∨ b ∈ bs := by
  obtain ⟨hlive, hd, h0, _⟩ := h.table.of_regular (writable_eq_ok.1 hi).1
  have hn := nptrs_written env hd h0 hend hlen
  constructor
  · rintro ⟨r, ho⟩
    cases r with
    | inode => exact .inl ⟨.inode, ho⟩
    | ptr k =>
      rw [owns_ptr, setInode_self, hn] at ho
      obtain ⟨hk, rfl⟩ := ho
      have hk' : Fin.ofNat 1019 k.1 = k := Fin.ext (val_ofNat_1019 k.2)
      obtain ⟨_, ho⟩ := owns_or_mem_written h hi hend hlen hbs env hk
      rw [FsInode.ptrAt, hk'] at ho
      exact ho.imp_left fun ho => ⟨_, ho⟩
  · -- Every pointer of the new inode leads to a block that it owns.
    have hown : ∀ {k}, k < (img.table.inode i).nptrs + bs.length →
        ((img.table.inode i).written env (o + buf.length) bs).ptrAt k = b →
        ∃ r, (t.setInode i ((img.table.inode i).written env (o + buf.length) bs)).Owns i r b := by
      intro k hk he
      have hk' := (ptrAt_written h hi hend hlen hbs env hk).1
      refine ⟨.ptr (Fin.ofNat 1019 k), owns_ptr.2 ?_⟩
      rw [setInode_self, hn, val_ofNat_1019 hk']
      exact ⟨hk, he.symm⟩
    rintro (⟨r, ho⟩ | hb)
    · cases r with
      | inode => exact ⟨.inode, ho⟩
      | ptr k =>
        obtain ⟨hk, rfl⟩ := ho
        have hk' : Fin.ofNat 1019 k.1 = k := Fin.ext (val_ofNat_1019 k.2)
        have hlt : k.1 < (img.table.inode i).nptrs + bs.length := Nat.lt_add_right _ hk
        obtain ⟨_, ⟨_, hp⟩ | ⟨hnew, _⟩⟩ := ptrAt_written h hi hend hlen hbs env hlt
        · exact hown hlt (by rw [hp, FsInode.ptrAt, hk'])
        · exact absurd hk (not_lt.2 hnew)
    · -- The new blocks come after the old ones.
      obtain ⟨j, hj, rfl⟩ := List.getElem_of_mem hb
      have hlt : (img.table.inode i).nptrs + j < (img.table.inode i).nptrs + bs.length :=
        Nat.add_lt_add_left hj _
      obtain ⟨_, ⟨hold, _⟩ | ⟨_, hp⟩⟩ := ptrAt_written h hi hend hlen hbs env hlt
      · exact absurd hold (not_lt.2 (Nat.le_add_right _ _))
      · exact hown hlt (by rw [hp, Nat.add_sub_cancel_left, List.getD_eq_getElem _ _ hj])

theorem WriteEnds.allocates (h : img.WF) {env : Env} {buf : List UInt8} {o n : ℕ}
    (hend : o + buf.length ≤ 1019 * 4096) (he : img.WriteEnds env path buf o (.ok n) ws) :
    ∃ i bs, img.table.regular path = .ok i ∧
      bs.length = blocksFor (o + buf.length) - (img.table.inode i).nptrs ∧
      img.Allocates (img.puts ws) bs := by
  cases he with
  | @done i bs hi hlen hbs =>
    obtain ⟨halong, ha⟩ := along_dataLog h hi hend hlen hbs env
    have hwf : (img.puts (img.dataLog env i buf o bs)).WF := halong.last
    have c := canSetInode_written h hi hend hlen hbs env
    obtain ⟨hlive, hd, _⟩ := h.table.of_regular (writable_eq_ok.1 hi).1
    obtain ⟨hn, hmap⟩ := block_one_putInode hwf c.live
      ((img.table.inode i).written env (o + buf.length) bs)
    refine ⟨i, bs, (writable_eq_ok.1 hi).1, hlen, ?_⟩
    rw [puts_append, puts_cons, puts_nil]
    refine ⟨hn.trans ha.nblocks, hbs, ?_, fun {b} => ?_⟩
    · rw [hmap, bitmap_dataLog h hi hend hlen hbs]
    · rw [referenced_putInode hwf c fun hdt => ?_, owns_written h hi hend hlen hbs]
      · constructor
        · rintro (⟨j, r, hj, _, ho⟩ | ⟨r, ho⟩ | hb)
          · exact .inl (ha.referenced.1 ⟨j, r, hj, ho⟩)
          · exact .inl ⟨i, r, hlive, ho⟩
          · exact .inr hb
        · rintro (⟨j, r, hj, ho⟩ | hb)
          · -- Every object but the file has the blocks that it had.
            by_cases hji : j = i
            · subst hji
              exact .inr (.inl ⟨r, ho⟩)
            · exact .inl ⟨j, r, ha.live.2 hj, hji, (ha.owns hj).2 ho⟩
          · exact .inr (.inr hb)
      · rw [c.kind, ha.inode hlive, hd] at hdt
        cases hdt

end Ends

end Image

/-! ## The calls -/

/-- The number of blocks of the contents of a file. -/
def FsInode.contentBlocks (x : FsInode) : ℕ := blocksFor x.size.toInt.toNat

/-- The number of blocks that become free by a call that succeeds. -/
def Op.gain (img : Image) : Op → ℤ
  | create _ _ => -1
  | mkdir _ _ => -2
  | unlink path =>
    match img.table.oldLeaf path with
    | .ok (p, k) => 1 + (img.table.inode (img.table.dir p k).inode).contentBlocks
    | .error _ => 0
  | rmdir _ => 2
  | truncate path _ =>
    match img.table.regular path with
    | .ok i => (img.table.inode i).contentBlocks
    | .error _ => 0
  | write path buf offset =>
    match img.table.regular path with
    | .ok i =>
      (img.table.inode i).contentBlocks -
        blocksFor (max (img.table.inode i).size.toInt (offset + buf.length)).toNat
    | .error _ => 0
  | _ => 0

theorem Res.map_eq_ok {α β : Type} {f : α → β} {r : Res α} {b : β} (h : r.map f = .ok b) :
    ∃ a, r = .ok a := by
  cases r with
  | ok a => exact ⟨a, rfl⟩
  | err e => cases h
  | fault t => cases h

/-- A call that writes and succeeds gains as many blocks as it should. -/
theorem Op.Ends.gains {env : Env} {img : Image} {op : Op} {r : Res Out} {ws : List Write}
    (h : img.WF) (hop : op.Ok img) (he : op.Ends env img r ws) {out : Out} (hr : r = .ok out) :
    img.Gains (img.puts ws) (op.gain img) := by
  have hnone : img.Frees (img.puts ws) [] → img.Gains (img.puts ws) 0 := fun hf => hf.gains h
  cases he with
  | create he =>
    obtain ⟨_, rfl⟩ := Res.map_eq_ok hr
    obtain ⟨bs, hlen, ha⟩ := he.allocates h (Image.makes_newFile h hop)
    have hg := ha.gains h
    rwa [hlen] at hg
  | mkdir he =>
    obtain ⟨_, rfl⟩ := Res.map_eq_ok hr
    obtain ⟨bs, hlen, ha⟩ := he.allocates h (Image.makes_newDir h hop)
    have hg := ha.gains h
    rwa [hlen] at hg
  | unlink he =>
    obtain ⟨_, rfl⟩ := Res.map_eq_ok hr
    obtain ⟨p, k, hl, hc, hf⟩ := he.frees h hop unlinkCheck_leaf
    have hd : (img.table.inode (img.table.dir p k).inode).isDir = false := by
      by_contra hd
      rw [unlinkCheck, if_pos (by simpa using hd)] at hc
      cases hc
    have hg := hf.gains h
    rw [List.length_cons, FsInode.length_used, FsInode.nptrs_of_file hd, Nat.add_comm] at hg
    rwa [gain, hl]
  | rmdir he =>
    obtain ⟨_, rfl⟩ := Res.map_eq_ok hr
    obtain ⟨p, k, hl, hc, hf⟩ := he.frees h hop rmdirCheck_leaf
    have hd := Table.isDir_of_rmdirCheck hc
    have hg := hf.gains h
    rwa [List.length_cons, FsInode.length_used, FsInode.nptrs, if_pos hd] at hg
  | rename he =>
    obtain ⟨_, rfl⟩ := Res.map_eq_ok hr
    exact hnone (he.frees h hop)
  | chmod he =>
    obtain ⟨_, rfl⟩ := Res.map_eq_ok hr
    exact hnone (he.frees h (Image.chmod_keeps _))
  | utime he =>
    obtain ⟨_, rfl⟩ := Res.map_eq_ok hr
    exact hnone (he.frees h (Image.utime_keeps _))
  | truncate he =>
    obtain ⟨_, rfl⟩ := Res.map_eq_ok hr
    obtain ⟨i, hi, hf⟩ := he.frees h
    have hg := hf.gains h
    rw [FsInode.length_used, FsInode.nptrs_of_file (h.table.of_regular hi).2.1] at hg
    rwa [gain, hi]
  | @write path buf o r ws he =>
    obtain ⟨_, rfl⟩ := Res.map_eq_ok hr
    obtain ⟨i, bs, hi, hlen, ha⟩ := he.allocates h (by have := hop.2; omega)
    obtain ⟨_, hd, h0, _⟩ := h.table.of_regular hi
    have hg := ha.gains h
    -- A file gets blocks only if it becomes longer.
    have hgrow : -(bs.length : ℤ) = (img.table.inode i).contentBlocks -
        blocksFor (max (img.table.inode i).size.toInt (o + buf.length)).toNat := by
      rw [hlen, FsInode.nptrs_of_file hd, FsInode.contentBlocks, blocksFor, blocksFor, blocksFor]
      omega
    rw [hgrow] at hg
    rwa [gain, hi]

/-- `f_bfree` of `fs_statfs`. -/
def FsState.bfree (s : FsState) : ℤ :=
  match (fsStatfs.run s).1 with
  | .ok st => st.bfree
  | _ => 0

/-- Counting from 0 or from 2 on. -/
theorem countP_range_add_two {p : ℕ → Bool} (h0 : p 0 = true) (h1 : p 1 = true) (n : ℕ) :
    (List.range (n + 2)).countP p + ((List.range' 2 n).filter fun b => !p b).length = n + 2 := by
  have hlen := List.length_eq_countP_add_countP p (l := List.range' 2 n)
  have hnot : (List.range' 2 n).countP (fun b => decide (¬p b = true)) =
      ((List.range' 2 n).filter fun b => !p b).length := by
    rw [List.countP_eq_length_filter]
    congr 2
    funext b
    cases p b <;> rfl
  rw [List.length_range', hnot] at hlen
  rw [List.range_eq_range', List.range'_succ, List.range'_succ, List.countP_cons_of_pos h0,
    List.countP_cons_of_pos h1]
  change (List.range' 2 n).countP p + 1 + 1 + _ = _
  omega

/-- `f_bfree` is the number of free blocks. -/
theorem bfree_eq {s : FsState} (h : s.WF) : s.bfree = s.img.free.length := by
  have hm := h.mounted
  have hcap := hm.le_cap
  obtain ⟨n, hn⟩ := Nat.exists_eq_add_of_le' (le_trans (by decide) hm.three_le : 2 ≤ s.img.nblocks)
  obtain ⟨h0, h1⟩ := h.img.table.reserved
  have hcount := countP_range_add_two h0 h1 n
  have hrun : s.bfree = s.img.nblocks -
      ((List.range s.img.nblocks).countP (bitTest (s.img.block 1)) : ℕ) := by
    rw [FsState.bfree, fsStatfs, bind_get]
    simp only [hm.diskSize, hm.bitmap]
    rw [if_neg (by omega)]
    rfl
  have hfree : s.img.free = (List.range' 2 n).filter fun b => !bitTest (s.img.block 1) b := by
    rw [Image.free, freeBlocks, hn]
    rfl
  change (List.range (n + 2)).countP (bitTest (s.img.block 1)) + _ = _ at hcount
  rw [hrun, hfree, hn]
  change _ + (List.filter (fun b => !bitTest (s.img.block 1) b) _).length = _ at hcount
  omega

/-- A call that succeeds gains as many blocks as it should. -/
theorem exec_gains {s s' : FsState} (h : s.WF) {env : Env} {op : Op} (hop : op.Ok s.img) {out : Out}
    (hrun : (op.exec env).run s = (.ok out, s')) : s.img.Gains s'.img (op.gain s.img) := by
  by_cases hm : op.Modifies
  · obtain ⟨r, ws, he⟩ := Op.exists_ends env hm hop
    obtain ⟨rfl, rfl⟩ := Prod.mk.inj ((exec_run h hop he).symm.trans hrun)
    exact he.gains h.img hop rfl
  · obtain rfl : s = s' := by
      rw [← exec_reads hm s, hrun]
    have hg : op.gain s.img = 0 := by
      cases op with
      | getattr => rfl
      | readdir => rfl
      | read => rfl
      | statfs => rfl
      | _ => exact absurd trivial hm
    rw [hg]
    exact ⟨id, (add_zero _).symm⟩

/-- The states of runs from `s` in which every call succeeds. -/
inductive Succeeds (s : FsState) : FsState → Prop
  | init : Succeeds s s
  | call {s' s'' : FsState} {env : Env} {op : Op} {out : Out} : Succeeds s s' → op.Ok s'.img →
      (op.exec env).run s' = (.ok out, s'') → Succeeds s s''

theorem Succeeds.wf {s s' : FsState} (h : s.WF) (hs : Succeeds s s') : s'.WF := by
  induction hs with
  | init => exact h
  | @call s' s'' env op out _ hop hrun ih =>
    have hwf := exec_wf ih env hop
    rwa [hrun] at hwf

theorem Succeeds.exact {s s' : FsState} (h : s.WF) (hx : s.img.Exact) (hs : Succeeds s s') :
    s'.img.Exact := by
  induction hs with
  | init => exact hx
  | call hs hop hrun ih => exact (exec_gains (hs.wf h) hop hrun).1 ih

/-- In a run of calls that succeed, the bitmap stays exact, and every call changes `f_bfree` by as
    many blocks as it should. -/
theorem accounting {s s' : FsState} (h : s.WF) (hx : s.img.Exact) (hs : Succeeds s s') :
    s'.img.Exact ∧ ∀ (env : Env) (op : Op) (out : Out) (s'' : FsState), op.Ok s'.img →
      (op.exec env).run s' = (.ok out, s'') →
        s''.img.Exact ∧ s''.bfree = s'.bfree + op.gain s'.img := by
  have hwf := hs.wf h
  have hx' := hs.exact h hx
  refine ⟨hx', fun env op out s'' hop hrun => ?_⟩
  obtain ⟨hexact, hlen⟩ := exec_gains hwf hop hrun
  refine ⟨hexact hx', ?_⟩
  rw [bfree_eq hwf, bfree_eq ((hs.call hop hrun).wf h), hlen]

theorem bitTest_zero (i : ℕ) : bitTest Block.zero i = false := by
  have hbyte : Block.zero.byte (i / 8) = 0 := by
    unfold Block.byte Block.zero
    split <;> rfl
  rw [bitTest, hbyte, UInt8.zero_and]
  rfl

/-- The bitmap of an empty file system is exact. -/
theorem Image.exact_format {n : ℕ} : (format n).Exact := fun b => by
  change bitTest ([0, 1, 2, 3].foldl bitSet Block.zero) b = true ↔ _
  rw [bitTest_foldl_bitSet (by decide), bitTest_zero, Bool.or_false, decide_eq_true_eq]
  simp only [List.mem_cons, List.not_mem_nil, or_false]
  constructor
  · rintro (rfl | rfl | rfl | rfl)
    · exact .inl (by decide)
    · exact .inl (by decide)
    · exact .inr ⟨2, .inode, live_format.2 rfl, rfl⟩
    · refine .inr ⟨2, .ptr 0, live_format.2 rfl, ?_⟩
      rw [Table.owns_ptr, format_inode]
      exact ⟨by decide, rfl⟩
  · rintro (hb | ⟨i, r, hi, ho⟩)
    · omega
    · rw [live_format.1 hi] at ho
      rcases owns_format ho with ⟨_, rfl⟩ | ⟨_, rfl⟩
      · omega
      · omega

theorem accounting_emptyFs : fileA.img.Exact ∧ fileA.bfree = emptyFs.bfree - 1 :=
  (accounting wf_emptyFs Image.exact_format .init).2 ⟨500, 500, 0⟩ (.create pathA 0o100644) .done
    fileA (show RegMode _ from rfl) rfl

end Cs5600
