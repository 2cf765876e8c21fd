import Mathlib.Data.Set.Card
import Cs5600.Traces
import Cs5600.FreeSpace
import Cs5600.Volume

/-!
# The code as a volume

What a well-formed image shows to its users is a volume (`Image.volume`), and every call does to
it what the volume allows (`exec_call`). So the results of a run of the code are those of a run
of the volume (`traces_refine`): none of its errors, and nothing that it returns, depends on how
the image is laid out.
-/

namespace Cs5600

open LabelledGraph Table FsM WriteLog Traces

/-- The path of the names of a path that are followed. -/
def FsPath.cut (path : FsPath) : FsPath :=
  .ofNames path.place fun _ hc => FsPath.goodName (List.mem_of_mem_take hc)

theorem FsPath.names_cut (path : FsPath) : path.cut.names = path.place := names_ofNames _

namespace Image

variable (img : Image)

/-- What an image shows. -/
def volume : Volume where
  tree := img.tree
  free := img.free.length
  blocks := img.nblocks

variable {img} {path : FsPath} {p : ℕ} {dir : List (List UInt8)} {name : List UInt8}

/-! ## Lookups -/

/-- What a name leads to in a directory, by the entry of the name. -/
theorem tree_concat (hp : walk img.table.children 2 dir = some p)
    (hd : (img.table.inode p).isDir = true) : img.tree (dir ++ [name]) =
      ((img.table.dir p).find (·.named name)).map fun k => img.node (img.table.dir p k).inode := by
  rw [tree, walk_concat, hp, Option.bind_some, children, if_pos hd, Option.map_map]
  rfl

/-- Following names in the tree ends as the walk along directory entries does. -/
theorem follow_tree (hp : walk img.table.children 2 dir = some p) (cs : List (List UInt8)) :
    Names.follow img.tree dir cs = (img.table.resolve p cs).map img.node := by
  induction cs generalizing p dir with
  | nil =>
    simp only [Names.follow, tree, hp, Option.map_some]
    rfl
  | cons c cs ih =>
    have hdir : img.tree dir = some (img.node p) := by rw [tree, hp, Option.map_some]
    simp only [Names.follow, resolve, hdir]
    cases hd : (img.table.inode p).isDir with
    | false =>
      rw [node_eq_file hd]
      rfl
    | true =>
      simp only [node_eq_dir hd, if_true]
      cases hk : (img.table.dir p).find (·.named c) with
      | none =>
        -- There is no such name, whatever names come after it.
        have hnone : img.tree (dir ++ [c]) = none := by
          rw [tree_concat hp hd, hk, Option.map_none]
        cases cs <;> simp only [Names.follow, hnone] <;> rfl
      | some k =>
        refine ih (p := (img.table.dir p k).inode) ?_
        rw [walk_concat, hp, Option.bind_some, children, if_pos hd, hk]
        rfl

theorem find_volume (path : FsPath) :
    img.volume.find path = (img.table.translate path).map img.node :=
  follow_tree (show walk img.table.children 2 [] = some 2 from rfl) _

theorem leaf_volume (path : FsPath) : img.volume.leaf path =
    (img.table.lookupParent path).map fun pl => (img.node pl.1, pl.2) := by
  rw [Volume.leaf, Table.lookupParent]
  cases path.names.getLast? with
  | none => rfl
  | some leaf =>
    change ((Names.follow img.tree [] path.parent).map fun n => (n, leaf)) = _
    rw [follow_tree (show walk img.table.children 2 [] = some 2 from rfl), FsPath.parent]
    cases img.table.resolve 2 (path.names.dropLast.take maxPathComponents) <;> rfl

/-! ## Room in a directory -/

/-- The names in a directory are those of its valid entries, which are different ones. -/
theorem count_tree (h : img.WF) (hp : walk img.table.children 2 dir = some p)
    (hd : (img.table.inode p).isDir = true) : Names.count img.tree dir =
      {k | (img.table.dir p k).valid = true}.ncard := by
  have hlive := h.table.live_of_walk hp
  have himage : {name | img.tree (dir ++ [name]) ≠ none} =
      (fun k => cstr (img.table.dir p k).name) '' {k | (img.table.dir p k).valid = true} := by
    ext name
    rw [Set.mem_ofPred_eq, tree_concat hp hd, Ne, Option.map_eq_none_iff, ← Ne,
      Option.ne_none_iff_exists']
    exact exists_congr fun k => h.table.find_named hlive hd
  rw [Names.count, himage, Set.InjOn.ncard_image]
  exact fun k hk l hl hkl => h.table.distinct hlive hd hk hl hkl

/-- A directory has room iff one of its entries is free. -/
theorem count_lt (h : img.WF) (hp : walk img.table.children 2 dir = some p)
    (hd : (img.table.inode p).isDir = true) :
    Names.count img.tree dir < 128 ↔ ∃ k, (img.table.dir p).find (!·.valid) = some k := by
  have hcard : (Set.univ : Set (Fin 128)).ncard = 128 := by
    rw [Set.ncard_univ, Nat.card_fin]
  rw [count_tree h hp hd, ← Option.isSome_iff_exists, DirBlock.find_isSome]
  constructor
  · intro hlt
    by_contra hno
    have hall : {k | (img.table.dir p k).valid = true} = Set.univ :=
      Set.eq_univ_of_forall fun k => by simpa using fun hk => hno ⟨k, hk⟩
    rw [hall, hcard] at hlt
    exact lt_irrefl _ hlt
  · rintro ⟨k, hk⟩
    refine lt_of_lt_of_eq (Set.ncard_lt_ncard (Set.ssubset_univ_iff.2 fun hall => ?_)) hcard
    have hv : k ∈ {k | (img.table.dir p k).valid = true} := by
      rw [hall]
      exact Set.mem_univ k
    rw [Set.mem_ofPred_eq] at hv
    rw [hv] at hk
    cases hk

/-! ## Free blocks -/

theorem freeBlocks_foldl_bitSet {n : ℕ} (hn : n ≤ 32768) {map : Block} {bs rest : List ℕ}
    (hf : freeBlocks n map = bs ++ rest) : freeBlocks n (bs.foldl bitSet map) = rest := by
  induction bs generalizing map with
  | nil => exact hf
  | cons b bs ih => exact ih (freeBlocks_bitSet hn hf)

/-- The free blocks that are left when some are marked. -/
theorem length_free_bitSet {img' : Image} (h : img.WF) (hn : img'.nblocks = img.nblocks)
    {bs : List ℕ} (hbs : bs <+: img.free) (hmap : img'.block 1 = bs.foldl bitSet (img.block 1)) :
    img'.free.length = img.free.length - bs.length := by
  obtain ⟨rest, hrest⟩ := hbs
  have hcap : img.nblocks ≤ 32768 := h.table.le_cap
  rw [free, hn, hmap, freeBlocks_foldl_bitSet hcap hrest.symm, ← hrest, List.length_append,
    Nat.add_sub_cancel_left]

/-! ## New objects -/

/-- A volume makes a new object under the conditions of the code. -/
theorem make_volume (h : img.WF) (n : Node) : img.volume.make path n =
    match img.table.newLeaf path with
    | .error e => (.error e, img.volume)
    | .ok (p, leaf) =>
      if img.free.length < n.blocks then (.error .ENOSPC, { img.volume with free := 0 })
      else if ((img.table.dir p).find (!·.valid)).isSome then
        (.ok (), { img.volume with
          tree := Names.insert img.tree (path.parent ++ [leaf]) n
          free := img.free.length - n.blocks })
      else (.error .ENOSPC, { img.volume with free := img.free.length - n.blocks }) := by
  rw [Volume.make, leaf_volume, newLeaf]
  cases hl : img.table.lookupParent path with
  | error e => rfl
  | ok pl =>
    obtain ⟨p, leaf⟩ := pl
    have hp := (lookupParent_eq_ok.1 hl).2
    simp only [Except.map]
    cases hd : (img.table.inode p).isDir with
    | false => rw [node_eq_file hd]; rfl
    | true =>
      have htree : img.volume.tree (path.parent ++ [leaf]) = _ := tree_concat hp hd
      have hroom := count_lt h hp hd
      simp only [node_eq_dir hd, if_true, htree, Ne, Option.map_eq_none_iff]
      cases (img.table.dir p).find (·.named leaf) with
      | some k => rfl
      | none =>
        simp only [not_true_eq_false, if_false, Option.isSome_none, Bool.false_eq_true]
        rw [← Option.isSome_iff_exists] at hroom
        exact if_congr Iff.rfl rfl (if_congr hroom rfl rfl)

section Ends

variable {r : Res Unit} {ws : List Write} {f : Unit → Out}

/-- A new object is found under the name it is made with. -/
theorem NewEnds.tree_insert {need : ℕ} {init : List ℕ → List Write} (h : img.WF)
    (c : img.Makes need init) {leaf : List UInt8} {bs : List ℕ} {k : Fin 128}
    (hl : img.table.newLeaf path = .ok (p, leaf)) (hlen : bs.length = need) (hbs : bs <+: img.free)
    (hk : (img.table.dir p).find (!·.valid) = some k) :
    (img.puts (bitWrites bitSet (img.block 1) bs ++ init bs ++
      [⟨img.dirPtr p, ((img.table.dir p).add k (Fin.ofNat _ (bs.headD 0)) leaf).encode⟩])).tree =
      Names.insert img.tree (path.parent ++ [leaf])
        ((img.puts (bitWrites bitSet (img.block 1) bs ++ init bs)).node (bs.headD 0)) := by
  obtain ⟨hlp, hd, _⟩ := newLeaf_eq_ok.1 hl
  have hw : walk img.table.children 2 path.parent = some p := (lookupParent_eq_ok.1 hlp).2
  have hlive := h.table.live_of_lookupParent hlp
  have hwf : (img.puts (bitWrites bitSet (img.block 1) bs ++ init bs)).WF :=
    (along_fresh h hbs (c.lba bs)).last
  have ha := agree_fresh h hbs (c.lba bs)
  have hn := h.headD_lt hbs
  have htree := tree_putLink hwf (c.canLink h hl hlen hbs hk hn) (b := img.dirPtr p)
    (by rw [ha.inode hlive]; rfl) (show walk _ 2 path.parent = some p by rw [ha.walk h.table, hw])
  have hsame := tree_of_blocks h (nblocks_fresh h hbs (c.lba bs))
    fun _ hb => block_fresh h hbs (c.lba bs) hb
  rw [ha.dir hlive hd, Fin.val_ofNat, Nat.mod_eq_of_lt hn, hsame] at htree
  rw [puts_append]
  exact funext htree

/-- Making a new object, whose node is known. -/
theorem NewEnds.volume {init : List ℕ → List Write} (h : img.WF) {n : Node}
    (c : img.Makes n.blocks init)
    (hnode : ∀ bs, bs.length = n.blocks → bs <+: img.free →
      (img.puts (bitWrites bitSet (img.block 1) bs ++ init bs)).node (bs.headD 0) = n)
    (he : img.NewEnds path n.blocks init r ws) :
    Volume.Ends (img.volume.make path n) f (r.map f) (img.puts ws).volume := by
  rw [make_volume h]
  cases he with
  | refused hl => rw [hl]; exact ⟨rfl, rfl⟩
  | noBlocks hl hf =>
    have hfree := length_free_bitSet h (nblocks_puts_bitWrites h.one_lt) List.prefix_rfl
      (bitmap_puts_bitWrites h.one_lt)
    rw [Nat.sub_self] at hfree
    simp only [hl]
    rw [if_pos hf]
    exact ⟨rfl, Volume.ext (tree_bitWrites h) hfree (nblocks_puts_bitWrites h.one_lt)⟩
  | @noEntry p leaf bs hl hlen hbs hk =>
    have hn := nblocks_fresh h hbs (c.lba bs)
    have hfree := length_free_bitSet h hn hbs (bitmap_fresh h hbs (c.lba bs))
    have hle := hbs.length_le
    rw [hlen] at hfree hle
    simp only [hl]
    rw [if_neg (not_lt.2 hle), hk]
    exact ⟨rfl, Volume.ext (tree_of_blocks h hn fun _ hb => block_fresh h hbs (c.lba bs) hb) hfree hn⟩
  | @done p leaf bs k hl hlen hbs hk =>
    obtain ⟨bs', hlen', ha⟩ := NewEnds.allocates h c (.done hl hlen hbs hk)
    have htree := tree_insert h c hl hlen hbs hk
    rw [hnode bs hlen hbs] at htree
    have hfree := (ha.gains h).2
    have hle := hbs.length_le
    rw [hlen] at hle
    rw [hlen'] at hfree
    have hsub := Nat.cast_inj (R := ℤ).1 (hfree.trans (by omega :
      _ = ((img.free.length - n.blocks : ℕ) : ℤ)))
    simp only [hl]
    rw [if_neg (not_lt.2 hle), hk]
    exact ⟨rfl, Volume.ext htree hsub ha.nblocks⟩

/-! ## Objects removed and renamed -/

theorem blocks_node (i : ℕ) : (img.node i).blocks = 1 + (img.table.inode i).nptrs := by
  cases hd : (img.table.inode i).isDir with
  | true => rw [node_eq_dir hd, FsInode.nptrs, if_pos hd, Node.blocks]
  | false => rw [node_eq_file hd, FsInode.nptrs_of_file hd, Node.blocks, content_length]

/-- The object that is removed is the one that the tree has there. -/
theorem oldLeaf_tree (hdir : img.table.ParentDir path) {k : Fin 128}
    (hl : img.table.oldLeaf path = .ok (p, k)) :
    img.table.lookupParent path = .ok (p, cstr (img.table.dir p k).name) ∧
      walk img.table.children 2 path.parent = some p ∧
      walk img.table.children 2 (path.parent ++ [cstr (img.table.dir p k).name]) =
        some (img.table.dir p k).inode.1 := by
  obtain ⟨leaf, hlp, hk⟩ := oldLeaf_eq_ok.1 hl
  obtain rfl := (FsDirent.named_iff.1 (DirBlock.of_find_eq_some hk)).2
  have hp := (lookupParent_eq_ok.1 hlp).2
  refine ⟨hlp, hp, ?_⟩
  rw [FsPath.parent, walk_concat, hp, Option.bind_some, children, if_pos (hdir p _ hlp), hk]
  rfl

/-- A volume removes an object under the conditions of the code. -/
theorem remove_volume (hdir : img.table.ParentDir path)
    (check : List (List UInt8) → Node → Option Errno) : img.volume.remove path check =
    match img.table.oldLeaf path with
    | .error e => (.error e, img.volume)
    | .ok (p, k) =>
      let ns := path.parent ++ [cstr (img.table.dir p k).name]
      match check ns (img.node (img.table.dir p k).inode) with
      | some e => (.error e, img.volume)
      | none =>
        (.ok (), { img.volume with
          tree := Names.remove img.tree ns
          free := img.free.length + (img.node (img.table.dir p k).inode).blocks }) := by
  rw [Volume.remove, leaf_volume, oldLeaf]
  cases hl : img.table.lookupParent path with
  | error e => rfl
  | ok pl =>
    obtain ⟨p, leaf⟩ := pl
    have htree : img.volume.tree (path.parent ++ [leaf]) = _ :=
      tree_concat (lookupParent_eq_ok.1 hl).2 (hdir p leaf hl)
    simp only [Except.map, htree]
    cases hk : (img.table.dir p).find (·.named leaf) with
    | none => rfl
    | some k =>
      obtain rfl := (FsDirent.named_iff.1 (DirBlock.of_find_eq_some hk)).2
      rfl

/-- Removing an object, by a check that sees the tree only. -/
theorem RemoveEnds.volume (h : img.WF) (hdir : img.table.ParentDir path)
    {check : ℕ → Option Errno} {checkNode : List (List UInt8) → Node → Option Errno}
    (hcheck : ∀ i, check i = none → (img.table.inode i).isDir = true →
      ∀ j, (img.table.dir i j).valid = false)
    (hnode : ∀ ns i, walk img.table.children 2 ns = some i →
      checkNode ns (img.node i) = check i)
    (he : img.RemoveEnds path check r ws) :
    Volume.Ends (img.volume.remove path checkNode) f (r.map f) (img.puts ws).volume := by
  rw [remove_volume hdir]
  cases he with
  | refused hl => rw [hl]; exact ⟨rfl, rfl⟩
  | kept hl hc =>
    simp only [hl]
    rw [hnode _ _ (oldLeaf_tree hdir hl).2.2, hc]
    exact ⟨rfl, rfl⟩
  | @done p k hl hc =>
    obtain ⟨_, hp, hw⟩ := oldLeaf_tree hdir hl
    have c := canUnlink h hdir hl (hcheck _ hc)
    have hmap := (block_one_putDir h c.live c.isDir ((img.table.dir p).invalidate k).encode).2
    have htree : (img.puts (⟨img.dirPtr p, ((img.table.dir p).invalidate k).encode⟩ ::
        bitWrites bitClear (img.block 1) ((img.table.dir p k).inode.1 ::
          (img.table.inode (img.table.dir p k).inode).used))).tree =
        Names.remove img.tree (path.parent ++ [cstr (img.table.dir p k).name]) := by
      rw [puts_cons, ← hmap, tree_bitWrites (h.putUnlink c (b := img.dirPtr p) rfl)]
      exact funext (tree_putUnlink h c (b := img.dirPtr p) rfl hp)
    obtain ⟨p', k', hl', _, hf⟩ := RemoveEnds.frees h hdir hcheck (.done hl hc)
    obtain ⟨rfl, rfl⟩ := Prod.mk.inj (Except.ok.inj (hl.symm.trans hl'))
    have hfree := (hf.gains h).2
    rw [List.length_cons, FsInode.length_used, Nat.add_comm _ 1, ← blocks_node] at hfree
    simp only [hl]
    rw [hnode _ _ hw, hc]
    exact ⟨rfl, Volume.ext htree (Nat.cast_inj (R := ℤ).1 hfree) hf.nblocks⟩

/-- Files are what `fs_unlink` removes. -/
theorem unlinkCheck_node (ns : List (List UInt8)) (i : ℕ) :
    Volume.unlinkCheck ns (img.node i) = img.table.unlinkCheck i := by
  rw [unlinkCheck]
  cases hd : (img.table.inode i).isDir with
  | true => rw [node_eq_dir hd]; rfl
  | false => rw [node_eq_file hd]; rfl

/-- Directories without names in them are what `fs_rmdir` removes. -/
theorem rmdirCheck_node {ns : List (List UInt8)} {i : ℕ}
    (hi : walk img.table.children 2 ns = some i) :
    img.volume.rmdirCheck ns (img.node i) = img.table.rmdirCheck i := by
  rw [rmdirCheck]
  cases hd : (img.table.inode i).isDir with
  | false => rw [node_eq_file hd]; rfl
  | true =>
    have hnames : (∃ name, img.volume.tree (ns ++ [name]) ≠ none) ↔
        ((img.table.dir i).find (·.valid)).isSome := by
      rw [DirBlock.find_isSome]
      constructor
      · rintro ⟨name, hne⟩
        change img.tree (ns ++ [name]) ≠ none at hne
        rw [tree_concat hi hd, Ne, Option.map_eq_none_iff] at hne
        obtain ⟨k, hk⟩ := Option.ne_none_iff_exists'.1 hne
        exact ⟨k, (FsDirent.named_iff.1 (DirBlock.of_find_eq_some hk)).1⟩
      · rintro ⟨k, hk⟩
        refine ⟨cstr (img.table.dir i k).name, fun hnone => ?_⟩
        change img.tree (ns ++ [_]) = none at hnone
        rw [tree_concat hi hd, Option.map_eq_none_iff, DirBlock.find_eq_none] at hnone
        have hk' := hnone k
        rw [FsDirent.named_iff.2 ⟨hk, rfl⟩] at hk'
        cases hk'
    rw [node_eq_dir hd, Volume.rmdirCheck]
    simp only [hnames, if_true]

/-- A volume renames an object under the conditions of the code. -/
theorem rename_volume (h : img.WF) {src dst : FsPath} (hdir : img.table.ParentDir src) :
    img.volume.rename src dst =
    match img.table.renamed src dst with
    | .error e => (.error e, img.volume)
    | .ok (p, k, leaf) =>
      (.ok (), { img.volume with
        tree := Names.move img.tree (src.parent ++ [cstr (img.table.dir p k).name])
          (src.parent ++ [leaf]) }) := by
  rw [Volume.rename, leaf_volume, leaf_volume, renamed]
  cases hs : img.table.lookupParent src with
  | error e => rfl
  | ok sl =>
    obtain ⟨p, srcLeaf⟩ := sl
    cases hd : img.table.lookupParent dst with
    | error e => rfl
    | ok dl =>
      obtain ⟨q, dstLeaf⟩ := dl
      have hp := (lookupParent_eq_ok.1 hs).2
      have hq := (lookupParent_eq_ok.1 hd).2
      -- Different names lead to different directories.
      have hsame : src.parent = dst.parent ↔ p = q := by
        refine ⟨fun heq => ?_, ?_⟩
        · rw [← FsPath.parent, heq, FsPath.parent, hq] at hp
          exact (Option.some.inj hp).symm
        · rintro rfl
          exact h.table.children_tree.walk_injective hp hq
      have htree : ∀ leaf, img.volume.tree (src.parent ++ [leaf]) = _ := fun leaf =>
        tree_concat hp (hdir p srcLeaf hs)
      simp only [Except.map, Ne, hsame, htree, Option.map_eq_none_iff]
      by_cases hpq : p = q
      · rw [if_neg (not_not.2 hpq), if_pos hpq]
        cases (img.table.dir p).find (·.named dstLeaf) with
        | some k => rfl
        | none =>
          cases hk : (img.table.dir p).find (·.named srcLeaf) with
          | none => rfl
          | some k =>
            obtain rfl := (FsDirent.named_iff.1 (DirBlock.of_find_eq_some hk)).2
            rfl
      · rw [if_pos hpq, if_neg hpq]

theorem RenameEnds.volume (h : img.WF) {src dst : FsPath} (hdir : img.table.ParentDir src)
    (he : img.RenameEnds src dst r ws) :
    Volume.Ends (img.volume.rename src dst) f (r.map f) (img.puts ws).volume := by
  rw [rename_volume h hdir]
  cases he with
  | refused hl => rw [hl]; exact ⟨rfl, rfl⟩
  | @done p k leaf hl =>
    obtain ⟨hlp, hnone, hold⟩ := renamed_eq_ok.1 hl
    have hp := (oldLeaf_tree hdir hold).2.1
    have hf := RenameEnds.frees h hdir (.done hl)
    have hfree := (hf.gains h).2
    rw [List.length_nil, Nat.cast_zero, add_zero] at hfree
    simp only [hl]
    refine ⟨rfl, Volume.ext (funext fun ns => ?_) (Nat.cast_inj (R := ℤ).1 hfree) hf.nblocks⟩
    exact tree_putRename h (canRename h hdir hl) (b := img.dirPtr p) rfl hp ns

end Ends

/-! ## Attributes and contents -/

section Contents

variable {r : Res Unit} {ws : List Write} {f : Unit → Out}

/-- The node of a path is found under the names that are followed. -/
theorem hasNode_cut {i : ℕ} (hi : img.table.translate path = .ok i) :
    img.HasNode path.cut (img.node i) := by
  refine ⟨?_, ?_⟩
  · rw [path.names_cut]
    exact List.length_take_le _ _
  · rw [path.names_cut, tree, show walk img.table.children 2 path.place = some i from
      resolve_eq_ok.1 hi, Option.map_some]

theorem translate_cut (path : FsPath) : img.table.translate path.cut = img.table.translate path := by
  rw [Table.translate, Table.translate, path.names_cut, FsPath.place, List.take_take, Nat.min_self]

theorem regular_cut (path : FsPath) : img.table.regular path.cut = img.table.regular path := by
  rw [regular, regular, translate_cut]

/-- Changing attributes, by a function of the attributes. -/
theorem SetEnds.volume (h : img.WF) {u : FsInode → FsInode} {g : Attrs → Attrs}
    (hu : ∀ x, (u x).mode &&& sIfmt = x.mode &&& sIfmt ∧ (u x).size = x.size ∧ (u x).ptrs = x.ptrs)
    (hg : ∀ x, (u x).attrs = g x.attrs) (he : img.SetEnds path u r ws) :
    Volume.Ends (img.volume.setAttrs path g) f (r.map f) (img.puts ws).volume := by
  rw [Volume.setAttrs, find_volume]
  cases he with
  | refused hl => rw [hl]; exact ⟨rfl, rfl⟩
  | @done i hl =>
    obtain ⟨_, htree⟩ := SetEnds.tree_ok h hu hg (hasNode_cut hl)
      (.done ((translate_cut path).trans hl))
    rw [path.names_cut] at htree
    have hends : img.SetEnds path u (.ok ()) _ := .done hl
    have hfree := hends.frees h hu
    have hlen := (hfree.gains h).2
    rw [List.length_nil, Nat.cast_zero, add_zero] at hlen
    rw [hl]
    exact ⟨rfl, Volume.ext htree (Nat.cast_inj (R := ℤ).1 hlen) hfree.nblocks⟩

/-- What a path of a regular file, or of a directory, leads to. -/
theorem regular_eq (h : img.WF) (path : FsPath) : img.table.regular path =
    match img.table.translate path with
    | .error e => .error e
    | .ok i => if (img.table.inode i).isDir then .error .EISDIR else .ok i := by
  rw [regular]
  cases hl : img.table.translate path with
  | error e => rfl
  | ok i =>
    simp only []
    cases hd : (img.table.inode i).isDir with
    | false => rw [if_pos (h.table.isReg (h.table.live_of_translate hl) hd)]; rfl
    | true =>
      rw [if_neg fun hr => ?_]
      · rfl
      · rw [FsInode.isDir_of_isReg hr] at hd
        cases hd

theorem TruncateEnds.volume (h : img.WF) {env : Env} {len : ℤ}
    (he : img.TruncateEnds env path len r ws) :
    Volume.Ends (img.volume.truncate env path len) f (r.map f) (img.puts ws).volume := by
  rw [Volume.truncate]
  by_cases hlen : len = 0
  · subst hlen
    rw [if_neg (by simp), find_volume]
    have hreg := regular_eq h path
    cases he with
    | refused hl =>
      have hl' : img.table.regular path = .error _ := hl
      rw [hreg] at hl'
      cases htr : img.table.translate path with
      | error e =>
        rw [htr] at hl'
        rw [← Except.error.inj hl']
        exact ⟨rfl, rfl⟩
      | ok i =>
        rw [htr] at hl'
        simp only [] at hl'
        split_ifs at hl' with hd
        rw [← Except.error.inj hl', Except.map, node_eq_dir hd]
        exact ⟨rfl, rfl⟩
    | @done i hl =>
      obtain ⟨_, hi⟩ := truncatable_eq_ok.1 hl
      obtain ⟨hlive, hd, _⟩ := h.table.of_regular hi
      have hnode := hasNode_cut (regular_eq_ok.1 hi).1
      rw [node_eq_file hd] at hnode
      obtain ⟨_, htree⟩ := TruncateEnds.tree_ok h hnode
        (.done (truncatable_eq_ok.2 ⟨rfl, (regular_cut path).trans hi⟩))
      rw [path.names_cut] at htree
      have hends : img.TruncateEnds env path 0 (.ok ()) _ := .done hl
      obtain ⟨i', hi', hfree⟩ := hends.frees h
      obtain rfl := Except.ok.inj (hi.symm.trans hi')
      have hcount := (hfree.gains h).2
      rw [FsInode.length_used, FsInode.nptrs_of_file hd, ← content_length img] at hcount
      rw [(regular_eq_ok.1 hi).1, Except.map, node_eq_file hd]
      exact ⟨rfl, Volume.ext htree (Nat.cast_inj (R := ℤ).1 hcount) hfree.nblocks⟩
  · rw [if_pos hlen]
    cases he with
    | refused hl =>
      rw [truncatable, if_neg hlen] at hl
      rw [← Except.error.inj hl]
      exact ⟨rfl, rfl⟩
    | done hl => exact absurd (truncatable_eq_ok.1 hl).1 hlen

theorem WriteEnds.volume (h : img.WF) {env : Env} {buf : List UInt8} {o : ℕ}
    (hend : o + buf.length ≤ 1019 * 4096) {r : Res ℕ} {f : ℕ → Out}
    (he : img.WriteEnds env path buf o r ws) :
    Volume.Ends (img.volume.write env path buf o) f (r.map f) (img.puts ws).volume := by
  rw [Volume.write, find_volume]
  have hreg := regular_eq h path
  -- What the checks say of a path that leads to a file.
  have hfile : ∀ {i}, img.table.regular path = .ok i →
      (img.table.inode i).isDir = false ∧ img.table.translate path = .ok i ∧
        0 ≤ (img.table.inode i).size.toInt ∧
        (img.table.inode i).nptrs = blocksFor (img.content (img.table.inode i)).length := by
    intro i hi
    obtain ⟨_, hd, h0, _⟩ := h.table.of_regular hi
    refine ⟨hd, (regular_eq_ok.1 hi).1, h0, ?_⟩
    rw [content_length, FsInode.nptrs_of_file hd]
  cases he with
  | refused hl =>
    rw [Table.writable, hreg] at hl
    cases htr : img.table.translate path with
    | error e =>
      rw [htr] at hl
      rw [← Except.error.inj hl]
      exact ⟨rfl, rfl⟩
    | ok i =>
      rw [htr] at hreg hl
      cases hd : (img.table.inode i).isDir with
      | true =>
        simp only [hd, if_true] at hl
        rw [← Except.error.inj hl, Except.map, node_eq_dir hd]
        exact ⟨rfl, rfl⟩
      | false =>
        simp only [hd, Bool.false_eq_true, if_false] at hreg hl
        obtain ⟨_, _, h0, _⟩ := hfile hreg
        have hlen := content_length img (img.table.inode i)
        split_ifs at hl with hlt
        rw [← Except.error.inj hl, Except.map, node_eq_file hd]
        simp only []
        rw [if_pos (by omega)]
        exact ⟨rfl, rfl⟩
  | @noSpace i hl hf =>
    obtain ⟨hi, hle⟩ := writable_eq_ok.1 hl
    obtain ⟨hd, htr, h0, hn⟩ := hfile hi
    have hlen := content_length img (img.table.inode i)
    have hfree := length_free_bitSet h (nblocks_puts_bitWrites h.one_lt) List.prefix_rfl
      (bitmap_puts_bitWrites h.one_lt)
    rw [Nat.sub_self] at hfree
    rw [hn] at hf
    rw [htr, Except.map, node_eq_file hd]
    simp only []
    rw [if_neg (by omega), if_pos (show img.volume.free < _ from hf)]
    exact ⟨rfl, Volume.ext (tree_bitWrites h) hfree (nblocks_puts_bitWrites h.one_lt)⟩
  | @done i bs hl hbs hpre =>
    obtain ⟨hi, hle⟩ := writable_eq_ok.1 hl
    obtain ⟨hd, htr, h0, hn⟩ := hfile hi
    have hlen := content_length img (img.table.inode i)
    have hnode := hasNode_cut htr
    rw [node_eq_file hd] at hnode
    have hcut : img.WriteEnds env path.cut buf o (.ok buf.length) _ :=
      .done (writable_eq_ok.2 ⟨(regular_cut path).trans hi, hle⟩) hbs hpre
    have htree := hcut.tree_ok h hnode hend
    rw [path.names_cut] at htree
    have hends : img.WriteEnds env path buf o (.ok buf.length) _ := .done hl hbs hpre
    obtain ⟨i', bs', hi', hbs', ha⟩ := hends.allocates h hend
    obtain rfl := Except.ok.inj (hi.symm.trans hi')
    have hcount := (ha.gains h).2
    have hroom := hpre.length_le
    rw [hbs, hn] at hroom
    rw [hbs', hn] at hcount
    have hsub := Nat.cast_inj (R := ℤ).1 (hcount.trans (by omega : _ = ((img.free.length -
      (blocksFor (o + buf.length) - blocksFor (img.content (img.table.inode i)).length) : ℕ) : ℤ)))
    rw [htr, Except.map, node_eq_file hd]
    simp only []
    rw [if_neg (by omega), if_neg (show ¬img.volume.free < _ from not_lt.2 hroom)]
    exact ⟨rfl, Volume.ext htree hsub ha.nblocks⟩

end Contents

end Image

/-! ## Calls that only read -/

section Reads

variable {s : FsState} (h : s.WF)
include h

theorem fsRead_volume (path : FsPath) {len o : ℕ} (hlen : o + len < 2 ^ 63) :
    (fsRead path.bytes len o).run s = (.ofExcept (s.img.volume.read path len o), s) := by
  rw [fsRead_run h hlen, Volume.read, Image.find_volume, Image.regular_eq h.img]
  cases htr : s.img.table.translate path with
  | error e => rfl
  | ok i =>
    simp only [Except.map]
    cases hd : (s.img.table.inode i).isDir with
    | true => rw [Image.node_eq_dir hd]; rfl
    | false => rw [Image.node_eq_file hd]; rfl

theorem fsStatfs_volume : fsStatfs.run s = (.ok s.img.volume.statvfs, s) := by
  have hm := h.mounted
  have hcap := hm.le_cap
  have hfree := bfree_eq h
  rw [FsState.bfree, fsStatfs, bind_get] at hfree
  rw [fsStatfs, bind_get]
  simp only [hm.diskSize] at hfree ⊢
  rw [if_neg (by omega)] at hfree ⊢
  change (s.img.nblocks : ℤ) - _ = _ at hfree
  rw [hfree]
  rfl

end Reads

end Cs5600
