import Mathlib.Algebra.BigOperators.Finprod
import Mathlib.Order.Interval.Finset.Nat
import Cs5600.VolumeRuns

/-!
# Space

`fs_statfs` counts the bits of the bitmap, and users see a tree. By the sizes of its files and the
number of its directories, the tree says how many blocks it takes (`Names.space`). There are never
more free blocks than it leaves, and there are as many exactly if no block is lost
(`bfree_space`): so with no lost blocks, two states that look the same have as much room.
-/

namespace Cs5600

open LabelledGraph Table

/-- The number of blocks that the nodes of a tree take. -/
noncomputable def Names.space (t : Names) : ℕ := ∑ᶠ ns, (t ns).elim 0 Node.blocks

namespace Image

variable {img : Image}

/-- The blocks of an object. -/
def blocksOf (img : Image) (i : ℕ) : Finset ℕ := (i :: (img.table.inode i).used).toFinset

open Classical in
/-- The objects of an image. -/
noncomputable def objects (img : Image) : Finset ℕ :=
  (Finset.range img.nblocks).filter fun i => img.table.Live i

section Objects

variable (h : img.WF) {i b : ℕ}
include h

theorem mem_objects : i ∈ img.objects ↔ img.table.Live i := by
  simp only [objects, Finset.mem_filter, Finset.mem_range]
  exact and_iff_right_of_imp fun hi => (h.table.lt_of_live hi).2

theorem card_blocksOf (hi : img.table.Live i) : (img.blocksOf i).card = (img.node i).blocks := by
  rw [blocksOf, List.toFinset_card_of_nodup (h.table.nodup_blocks hi), List.length_cons,
    FsInode.length_used, blocks_node, Nat.add_comm]

theorem mem_blocksOf (hi : img.table.Live i) :
    b ∈ img.blocksOf i ↔ ∃ r, img.table.Owns i r b := by
  rw [blocksOf, List.mem_toFinset, h.table.mem_blocks hi]

theorem mem_referenced : b ∈ img.objects.biUnion img.blocksOf ↔ img.table.Referenced b := by
  rw [Finset.mem_biUnion]
  constructor
  · rintro ⟨i, hi, hb⟩
    rw [mem_objects h] at hi
    obtain ⟨r, ho⟩ := (mem_blocksOf h hi).1 hb
    exact ⟨i, r, hi, ho⟩
  · rintro ⟨i, r, hi, ho⟩
    exact ⟨i, (mem_objects h).2 hi, (mem_blocksOf h hi).2 ⟨r, ho⟩⟩

/-- The referenced blocks are those of one object each. -/
theorem card_referenced : (img.objects.biUnion img.blocksOf).card =
    ∑ i ∈ img.objects, (img.node i).blocks := by
  rw [Finset.card_biUnion]
  · exact Finset.sum_congr rfl fun i hi => card_blocksOf h ((mem_objects h).1 hi)
  · intro i hi j hj hij
    rw [Finset.mem_coe, mem_objects h] at hi hj
    refine Finset.disjoint_left.2 fun b hb hb' => hij ?_
    obtain ⟨r, ho⟩ := (mem_blocksOf h hi).1 hb
    obtain ⟨r', ho'⟩ := (mem_blocksOf h hj).1 hb'
    exact (h.table.disjoint hi hj ho ho').1

/-- Every object has one list of names, so that the tree counts its blocks once. -/
theorem space_tree : Names.space img.tree = ∑ i ∈ img.objects, (img.node i).blocks := by
  have hsupport : Function.support (fun ns => (img.tree ns).elim 0 Node.blocks) =
      {ns | (walk img.table.children 2 ns).isSome} := by
    ext ns
    rw [Function.mem_support, Set.mem_ofPred_eq, tree]
    cases walk img.table.children 2 ns with
    | none => simp
    | some i =>
      rw [Option.map_some, Option.elim_some, blocks_node, Option.isSome_some]
      exact iff_of_true (by omega) rfl
  have hbij : Set.BijOn (fun ns => (walk img.table.children 2 ns).getD 0)
      {ns | (walk img.table.children 2 ns).isSome} img.objects := by
    refine ⟨fun ns hns => ?_, fun ns hns ms hms heq => ?_, fun i hi => ?_⟩
    · obtain ⟨i, hi⟩ := Option.isSome_iff_exists.1 hns
      dsimp only
      rw [hi, Option.getD_some]
      exact (mem_objects h).2 (h.table.live_of_walk hi)
    · obtain ⟨i, hi⟩ := Option.isSome_iff_exists.1 hns
      obtain ⟨j, hj⟩ := Option.isSome_iff_exists.1 hms
      dsimp only at heq
      rw [hi, hj, Option.getD_some, Option.getD_some] at heq
      subst heq
      exact h.table.children_tree.walk_injective hi hj
    · rw [Finset.mem_coe, mem_objects h, ← h.table.reach_children, reach_iff_walk] at hi
      obtain ⟨ns, hns⟩ := hi
      exact ⟨ns, Option.isSome_iff_exists.2 ⟨i, hns⟩, by dsimp only; rw [hns, Option.getD_some]⟩
  rw [Names.space, ← finsum_mem_support, hsupport, ← finsum_mem_coe_finset]
  refine finsum_mem_eq_of_bijOn _ hbij fun ns hns => ?_
  obtain ⟨i, hi⟩ := Option.isSome_iff_exists.1 hns
  rw [tree, hi, Option.map_some, Option.elim_some, Option.getD_some]

/-- The free blocks and the referenced ones are different blocks from the second on. -/
theorem free_add_space : img.free.length + Names.space img.tree + 2 ≤ img.nblocks ∧
    (img.free.length + Names.space img.tree + 2 = img.nblocks ↔
      ∀ b < img.nblocks, img.table.marked b = true ↔ b < 2 ∨ img.table.Referenced b) := by
  have h2 : 2 ≤ img.nblocks := le_trans (by decide) h.table.three_le
  have hdisj : Disjoint img.free.toFinset (img.objects.biUnion img.blocksOf) := by
    refine Finset.disjoint_left.2 fun b hb hb' => ?_
    exact (h.unreferenced_of_mem_free (List.mem_toFinset.1 hb)).2.2 ((mem_referenced h).1 hb')
  have hsub : img.free.toFinset ∪ img.objects.biUnion img.blocksOf ⊆ Finset.Ico 2 img.nblocks := by
    intro b hb
    rw [Finset.mem_Ico]
    rcases Finset.mem_union.1 hb with hb | hb
    · exact lt_of_mem_free (List.mem_toFinset.1 hb)
    · obtain ⟨i, r, hi, ho⟩ := (mem_referenced h).1 hb
      exact ⟨(h.table.owned hi ho).1, (h.table.owned hi ho).2.1⟩
  have hcard : (img.free.toFinset ∪ img.objects.biUnion img.blocksOf).card =
      img.free.length + Names.space img.tree := by
    have hnodup : img.free.Nodup := freeBlocks_nodup
    rw [Finset.card_union_of_disjoint hdisj, List.toFinset_card_of_nodup hnodup,
      card_referenced h, space_tree h]
  have hle := Finset.card_le_card hsub
  rw [hcard, Nat.card_Ico] at hle
  refine ⟨by omega, ?_⟩
  -- They are as many iff every such block is free or referenced.
  have hall : img.free.length + Names.space img.tree + 2 = img.nblocks ↔
      Finset.Ico 2 img.nblocks ⊆ img.free.toFinset ∪ img.objects.biUnion img.blocksOf := by
    constructor
    · intro heq
      exact (Finset.eq_of_subset_of_card_le hsub (by rw [hcard, Nat.card_Ico]; omega)).ge
    · intro hsup
      have hge := Finset.card_le_card hsup
      rw [hcard, Nat.card_Ico] at hge
      omega
  rw [hall]
  constructor
  · intro hsup b hb
    refine ⟨fun hm => ?_, ?_⟩
    · by_contra hno
      rw [not_or, not_lt] at hno
      rcases Finset.mem_union.1 (hsup (Finset.mem_Ico.2 ⟨hno.1, hb⟩)) with hf | hr
      · have hclear := (mem_free.1 (List.mem_toFinset.1 hf)).2.2
        rw [← table_marked, hm] at hclear
        cases hclear
      · exact hno.2 ((mem_referenced h).1 hr)
    · rintro (hlt | ⟨i, r, hi, ho⟩)
      · obtain ⟨h0, h1⟩ := h.table.reserved
        obtain rfl | rfl : b = 0 ∨ b = 1 := by omega
        · exact h0
        · exact h1
      · exact (h.table.owned hi ho).2.2
  · intro hmark b hb
    obtain ⟨h2b, hlt⟩ := Finset.mem_Ico.1 hb
    rw [Finset.mem_union]
    cases hm : img.table.marked b with
    | false => exact .inl (List.mem_toFinset.2 (mem_free.2 ⟨h2b, hlt, by rw [← table_marked, hm]⟩))
    | true =>
      rcases (hmark b hlt).1 hm with hlt2 | hr
      · omega
      · exact .inr ((mem_referenced h).2 hr)

end Objects

end Image

/-- In every state of a run, `f_bfree` and the blocks that the tree takes are at most all blocks but
    two. They are that many exactly if no block is lost; in particular, if they are so once and then
    all calls succeed, they stay so. -/
theorem bfree_space {s s' : FsState} (h : s.WF) (hs : Reachable s s') :
    s'.bfree + Names.space s'.img.tree + 2 ≤ s'.img.nblocks ∧
      (s'.bfree + Names.space s'.img.tree + 2 = s'.img.nblocks ↔
        ∀ b < s'.img.nblocks, s'.img.table.marked b = true ↔ b < 2 ∨ s'.img.table.Referenced b) ∧
      ∀ s'', s'.img.Exact → Succeeds s' s'' →
        s''.bfree + Names.space s''.img.tree + 2 = s''.img.nblocks := by
  have hwf := hs.wf h
  obtain ⟨hle, hiff⟩ := Image.free_add_space hwf.img
  refine ⟨?_, ?_, fun s'' hx hs' => ?_⟩
  · rw [bfree_eq hwf]
    omega
  · rw [bfree_eq hwf, ← hiff]
    omega
  · have heq := (Image.free_add_space (hs'.wf hwf).img).2.2 fun b _ => hs'.exact hwf hx b
    rw [bfree_eq (hs'.wf hwf)]
    omega

/-- In a file system of eight blocks, `/a` has been made, and then gets two bytes: the root takes two
    blocks, and the file one at first and two in the end. -/
theorem bfree_space_fileA : ∃ s : FsState,
    ((Op.write pathA [104, 101] 0).exec ⟨500, 500, 1⟩).run fileA = (.ok (.count 2), s) ∧
      fileA.bfree + Names.space fileA.img.tree + 2 = 8 ∧
      s.bfree + Names.space s.img.tree + 2 = 8 := by
  have hempty : fileA.img.HasNode pathA (.file _ []) := ⟨by decide, rfl⟩
  obtain ⟨r, s, hwrite, hr, -⟩ :=
    fsWrite_refines wf_fileA ⟨500, 500, 1⟩ hempty [104, 101] (o := 0) (by decide)
  have hfree : ¬ fileA.img.free.length < blocksFor 2 - blocksFor 0 := by decide +kernel
  obtain rfl : r = .ok 2 := hr.trans ((if_neg (Nat.lt_irrefl 0)).trans (if_neg hfree))
  have hop : Op.Ok fileA.img (.write pathA [104, 101] 0) := ⟨by decide, by decide⟩
  have hrun : ((Op.write pathA [104, 101] 0).exec ⟨500, 500, 1⟩).run fileA = (.ok (.count 2), s) :=
    map_run _ hwrite
  -- No block is lost in the empty file system, and both calls succeed.
  have hcreate : Op.Ok emptyFs.img (.create pathA 0o100644) := show RegMode _ from rfl
  have hdone : ((Op.create pathA 0o100644).exec ⟨500, 500, 0⟩).run emptyFs = (.ok .done, fileA) :=
    rfl
  have hmade : Succeeds emptyFs fileA := .call .init hcreate hdone
  have hx : fileA.img.Exact := hmade.exact wf_emptyFs Image.exact_format
  obtain ⟨-, -, hsucceeds⟩ := bfree_space wf_emptyFs reachable_fileA
  have hn : s.img.nblocks = 8 := by
    have hn := exec_nblocks wf_fileA ⟨500, 500, 1⟩ hop
    rwa [hrun] at hn
  have hspace := hsucceeds s hx (.call .init hop hrun)
  rw [hn] at hspace
  exact ⟨s, hrun, hsucceeds _ hx .init, hspace⟩

end Cs5600
