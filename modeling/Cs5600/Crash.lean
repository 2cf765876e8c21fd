import Cs5600.FileBytes

/-!
# Crashes

A call may be cut off after any of the blocks it writes. The image is then what
these blocks have made of it, and `fs_init` loads it again (`Crashes`). The
state is *consistent* if every block of every object is marked in the bitmap,
and is a block of that object only; other blocks may be marked as well.

Except for `fs_truncate`, the calls are safe: the image is well-formed at every
boundary between their writes (`Op.Ends.along`). But `fs_truncate` frees the
blocks of a file before it writes the inode that no longer refers to them,
whereas `fs_unlink` writes the directory first. Hence a crash in `fs_truncate`
of a file that is not empty leaves a file with blocks that are free
(`crashes_consistent_iff`).
-/

namespace Cs5600

open LabelledGraph Table FsM WriteLog

/-- All blocks of all objects are marked, and are referenced once. -/
structure FsState.Consistent (s : FsState) : Prop where
  marked : ∀ {b}, s.img.table.Referenced b → bitTest s.bitmap b = true
  once : ∀ {i j r r' b}, s.img.table.Live i → s.img.table.Live j → s.img.table.Owns i r b →
    s.img.table.Owns j r' b → i = j ∧ r = r'

/-- The states after a call was cut off by a crash: the first `n` blocks it writes are on the disk,
    and the image is loaded again, whatever was in memory. -/
inductive Crashes (s : FsState) (x : FsM Out) : FsState → Prop
  | reload (n : ℕ) {c : FsState} :
      c.img = s.img.puts (((x.run s).2.log.drop s.log.length).take n) → Crashes s x (fsInit.run c).2

variable {s : FsState} {x : FsM Out} {r : Res Out} {ws : List Write}

/-- The states after a crash are those of the images at the boundaries between writes. -/
theorem crashes_iff (h : s.WF) (hw : Writable s.img.nblocks ws) (hx : x.run s = (r, s.wrote ws))
    (P : FsState → Prop) : (∀ s', Crashes s x s' → P s') ↔ ∀ vs, vs <+: ws → ∀ c : FsState,
      P { c with superblock := (s.img.puts vs).block 0, bitmap := (s.img.puts vs).block 1,
                 img := s.img.puts vs } := by
  have hlog : (x.run s).2.log.drop s.log.length = ws := by
    rw [hx, FsState.wrote_log, List.drop_left]
  have hinit : ∀ {c : FsState} {vs}, vs <+: ws → c.img = s.img.puts vs → (fsInit.run c).2 =
      { c with superblock := (s.img.puts vs).block 0, bitmap := (s.img.puts vs).block 1,
               img := s.img.puts vs } := by
    intro c vs hvs himg
    rw [FsState.fsInit_run, ← himg]
    rw [himg, Image.puts_nblocks fun w hmem => (hw w (hvs.subset hmem)).2]
    exact le_trans (by decide) h.img.table.three_le
  constructor
  · intro hall vs hvs c
    have hc := hall _ (.reload vs.length (c := { c with img := s.img.puts vs })
      (by rw [hlog, ← List.prefix_iff_eq_take.1 hvs]))
    rwa [hinit hvs rfl] at hc
  · rintro hall _ ⟨n, himg⟩
    rw [hlog] at himg
    rw [hinit (List.take_prefix _ _) himg]
    exact hall _ (List.take_prefix _ _) _

/-- A state whose image is well-formed is consistent. -/
theorem FsState.consistent_of_wf (hs : s.bitmap = s.img.block 1) (h : s.img.WF) : s.Consistent where
  marked := fun ⟨_, _, hi, ho⟩ => by
    rw [hs]
    exact (h.table.owned hi ho).2.2
  once := h.table.disjoint

/-- Truncating a file frees its first block before its inode is written. -/
theorem not_consistent_truncate (h : s.WF) {path : FsPath} {i : ℕ}
    (hi : s.img.table.regular path = .ok i) (hpos : 0 < (s.img.table.inode i).size.toInt)
    (env : Env) : ∃ s', Crashes s ((Op.truncate path 0).exec env) s' ∧ ¬s'.Consistent := by
  obtain ⟨hlive, hd, _, hle⟩ := h.img.table.of_regular hi
  have he : s.img.TruncateEnds env path 0 (.ok ()) _ := .done (truncatable_eq_ok.2 ⟨rfl, hi⟩)
  have hends : (Op.truncate path 0).Ends env s.img (.ok .done) _ := .truncate he
  have hop : (Op.truncate path 0).Ok s.img := trivial
  have hn : 0 < (s.img.table.inode i).nptrs := by
    rw [FsInode.nptrs_of_file hd, blocksFor]
    omega
  have hown : s.img.table.Owns i (.ptr 0) ((s.img.table.inode i).ptrAt 0) := ⟨hn, rfl⟩
  have hb := h.img.table.owned hlive hown
  have hcap : s.img.nblocks ≤ 32768 := h.img.table.le_cap
  -- The first write clears the bit of the first block.
  obtain ⟨bs, hbs⟩ : ∃ bs, (s.img.table.inode i).used = (s.img.table.inode i).ptrAt 0 :: bs := by
    obtain ⟨n, hn⟩ := Nat.exists_eq_succ_of_ne_zero hn.ne'
    rw [FsInode.used, hn, List.range_succ_eq_map]
    exact ⟨_, rfl⟩
  by_contra hall
  simp only [not_exists, not_and, not_not] at hall
  rw [crashes_iff h (hends.writable h.img hop) (exec_run h hop hends), hbs] at hall
  have hc := (hall [⟨1, bitClear (s.img.block 1) ((s.img.table.inode i).ptrAt 0)⟩]
    (List.prefix_append _ _) s).marked (b := (s.img.table.inode i).ptrAt 0)
  have hmap := Image.put_block_self
    (w := ⟨1, bitClear (s.img.block 1) ((s.img.table.inode i).ptrAt 0)⟩) h.img.one_lt
  have ha := Image.agree_bitWrites h.img bitClear [(s.img.table.inode i).ptrAt 0]
  rw [Image.puts_cons, Image.puts_nil, hmap, bitTest_bitClear (lt_of_lt_of_le hb.2.1 hcap)] at hc
  exact absurd (hc (ha.referenced.2 ⟨_, _, hlive, hown⟩)) (by simp)

/-- After a crash in a call that writes, the state is consistent, unless the call truncates a file
    that is not empty. -/
theorem crashes_consistent_iff {s : FsState} (h : s.WF) (env : Env) (op : Op) (hm : op.Modifies)
    (hop : op.Ok s.img) : (∀ s', Crashes s (op.exec env) s' → s'.Consistent) ↔
      ¬∃ path i, op = .truncate path 0 ∧ s.img.table.regular path = .ok i ∧
        0 < (s.img.table.inode i).size.toInt := by
  refine ⟨?_, fun hno => ?_⟩
  · rintro hall ⟨path, i, rfl, hi, hpos⟩
    obtain ⟨s', hc, hbad⟩ := not_consistent_truncate h hi hpos env
    exact hbad (hall s' hc)
  · obtain ⟨r, ws, he⟩ := Op.exists_ends env hm hop
    rw [crashes_iff h (he.writable h.img hop) (exec_run h hop he)]
    suffices halong : Along Image.put Image.WF s.img ws from fun vs hvs c =>
      FsState.consistent_of_wf rfl (along_iff.1 halong vs hvs)
    by_cases ht : ∃ path len, op = .truncate path len
    · obtain ⟨path, len, rfl⟩ := ht
      have hwf := he.wf h.img hop
      cases he with
      | truncate he =>
        cases he with
        | refused => exact h.img
        | @done i hl =>
          -- An empty file has no blocks, so only its inode is written.
          obtain ⟨rfl, hi⟩ := truncatable_eq_ok.1 hl
          obtain ⟨_, hd, h0, _⟩ := h.img.table.of_regular hi
          have hsize : ¬0 < (s.img.table.inode i).size.toInt := fun hpos =>
            hno ⟨path, i, rfl, hi, hpos⟩
          have hused : (s.img.table.inode i).used = [] := by
            rw [FsInode.used, FsInode.nptrs_of_file hd, blocksFor,
              show (s.img.table.inode i).size.toInt.toNat = 0 by omega]
            rfl
          rw [hused] at hwf ⊢
          exact ⟨h.img, hwf⟩
    · exact he.along h.img hop fun path len he => ht ⟨path, len, he⟩

/-- A crash while an empty file is truncated, after the first block that is written. -/
theorem crashes_consistent_fileA :
    (fsInit.run { fileA with
      img := fileA.img.puts (((((Op.truncate pathA 0).exec ⟨500, 500, 0⟩).run fileA).2.log.drop
        fileA.log.length).take 1) }).2.Consistent := by
  refine (crashes_consistent_iff wf_fileA ⟨500, 500, 0⟩ (.truncate pathA 0) trivial trivial).2 ?_ _
    (.reload 1 rfl)
  rintro ⟨path, i, he, hi, hpos⟩
  obtain ⟨rfl, _⟩ := Op.truncate.inj he
  obtain rfl : 4 = i := Except.ok.inj ((rfl : fileA.img.table.regular pathA = .ok 4).symm.trans hi)
  exact absurd hpos (by decide)

/-- A byte is written to an empty file, and then the file is truncated: a crash leaves it with a
    block that is free. -/
theorem exists_not_consistent : ∃ s, Reachable emptyFs s ∧ s.WF ∧
    ∃ s', Crashes s ((Op.truncate pathA 0).exec ⟨500, 500, 0⟩) s' ∧ ¬s'.Consistent := by
  have hop : (Op.write pathA [120] (0 : ℕ)).Ok fileA.img :=
    ⟨le_rfl, show (0 : ℤ) + 1 ≤ 1019 * 4096 by omega⟩
  obtain ⟨r, s, hrun, hr, htree, _⟩ := fsWrite_refines wf_fileA ⟨500, 500, 0⟩
    (show fileA.img.HasNode pathA (.file _ []) from ⟨by decide, rfl⟩) [120] (o := 0) (by decide)
  have hreach := reachable_fileA.call ⟨500, 500, 0⟩ (.write pathA [120] (0 : ℕ)) hop
  have hexec : (((Op.write pathA [120] (0 : ℕ)).exec ⟨500, 500, 0⟩).run fileA).2 = s :=
    congrArg Prod.snd (map_run Out.count hrun)
  rw [hexec] at hreach
  have hwf := hreach.wf wf_emptyFs
  -- The file has a byte now.
  have hnode : s.img.HasNode pathA (.file _ [120]) :=
    ⟨by decide, by rw [htree (hr.trans rfl)]; exact if_pos rfl⟩
  obtain ⟨i, hi, _, _, _, hc⟩ := hnode.regular hwf.img
  have hlen := Image.content_length s.img (s.img.table.inode i)
  rw [hc, List.length_singleton] at hlen
  exact ⟨s, hreach, hwf, not_consistent_truncate hwf hi (by omega) _⟩

end Cs5600
