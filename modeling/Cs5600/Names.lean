import Cs5600.Objects

/-!
# Names

The objects of a file system by their names: the entries of directories, as a
graph whose edges are names (`Table.children`), and the object that a list of
names leads to from another, or why there is none (`Table.resolve`). In a
well-formed table the live objects are a tree along names as well
(`WF.children_tree`), and the elementary changes of directories change the
object a list of names leads to as follows:

* `walk_link`: the new name leads to the new object;
* `walk_unlink`: the name of the entry no longer leads anywhere;
* `walk_rename`: the new name, and those below it, lead where the old name and
  those below it led, and the old ones nowhere.
-/

namespace Cs5600

open LabelledGraph

namespace DirBlock

variable {dir : DirBlock} {p : FsDirent → Bool}

theorem of_find_eq_some {k : Fin 128} (h : dir.find p = some k) : p (dir k) = true :=
  List.find?_some (p := fun k => p (dir k)) h

theorem find_eq_none : dir.find p = none ↔ ∀ k, p (dir k) = false := by
  simp [find, List.find?_eq_none]

theorem find_isSome : (dir.find p).isSome = true ↔ ∃ k, p (dir k) = true := by
  simp [find]

theorem find_isSome_eq_false : (dir.find p).isSome = false ↔ dir.find p = none := by
  simp

end DirBlock

theorem FsDirent.named_iff {d : FsDirent} {name : List UInt8} :
    d.named name = true ↔ d.valid = true ∧ cstr d.name = name := by
  rw [named, Bool.and_eq_true, beq_iff_eq]

namespace Table

variable {t : Table}

/-- The entries of directories, by their names. -/
def children (t : Table) : LabelledGraph.Graph ℕ (List UInt8) := fun i c =>
  if (t.inode i).isDir then ((t.dir i).find (·.named c)).map fun k => (t.dir i k).inode.1 else none

/-- The object that a list of names leads to from `i`. -/
def resolve (t : Table) (i : ℕ) : List (List UInt8) → Except Errno ℕ
  | [] => .ok i
  | c :: cs =>
    if (t.inode i).isDir then
      match (t.dir i).find (·.named c) with
      | none => .error .ENOENT
      | some k => t.resolve (t.dir i k).inode cs
    else .error .ENOTDIR

theorem resolve_eq_ok {i j : ℕ} {cs : List (List UInt8)} :
    t.resolve i cs = .ok j ↔ walk t.children i cs = some j := by
  induction cs generalizing i with
  | nil => simp [resolve, walk]
  | cons c cs ih =>
    rw [resolve, walk, children]
    split_ifs with hd
    · cases (t.dir i).find (·.named c) with
      | none => simp
      | some k => exact ih
    · simp

/-! ## The tree of names -/

section WF

variable (h : t.WF)
include h

/-- The name of an entry finds that entry. -/
theorem WF.find_named {i : ℕ} {k : Fin 128} {c : List UInt8} (hi : t.Live i)
    (hd : (t.inode i).isDir = true) : (t.dir i).find (·.named c) = some k ↔
      (t.dir i k).valid = true ∧ cstr (t.dir i k).name = c := by
  refine ⟨fun hk => FsDirent.named_iff.1 (DirBlock.of_find_eq_some hk), fun ⟨hv, hn⟩ => ?_⟩
  cases hl : (t.dir i).find (·.named c) with
  | none =>
    have := DirBlock.find_eq_none.1 hl k
    rw [FsDirent.named_iff.2 ⟨hv, hn⟩] at this
    cases this
  | some l =>
    obtain ⟨hv', hn'⟩ := FsDirent.named_iff.1 (DirBlock.of_find_eq_some hl)
    rw [h.distinct hi hd hv' hv (hn'.trans hn.symm)]

theorem WF.children_eq_some {i j : ℕ} {c : List UInt8} (hi : t.Live i) :
    t.children i c = some j ↔ ∃ k, t.slots i k = some j ∧ cstr (t.dir i k).name = c := by
  rw [children]
  split_ifs with hd
  · rw [Option.map_eq_some_iff]
    refine exists_congr fun k => ?_
    rw [h.find_named hi hd, slots_eq_some]
    exact ⟨fun ⟨⟨hv, hn⟩, hj⟩ => ⟨⟨hd, hv, hj⟩, hn⟩, fun ⟨⟨_, hv, hj⟩, hn⟩ => ⟨⟨hv, hn⟩, hj⟩⟩
  · exact iff_of_false nofun fun ⟨_, hs, _⟩ => hd (slots_eq_some.1 hs).1

theorem WF.reach_children {i : ℕ} : Reach t.children 2 i ↔ t.Live i := by
  constructor
  · intro hi
    induction hi with
    | root => exact .root
    | step _ hij ih =>
      obtain ⟨k, hk, _⟩ := (h.children_eq_some ih).1 hij
      exact ih.step hk
  · intro hi
    induction hi with
    | root => exact .root
    | @step i j k hi hij ih =>
      exact ih.step ((h.children_eq_some hi).2 ⟨k, hij, rfl⟩)

theorem WF.live_of_walk {i : ℕ} {cs : List (List UInt8)} (hw : walk t.children 2 cs = some i) :
    t.Live i := h.reach_children.1 (Reach.root.walk hw)

/-- Along names, the live objects are a tree. -/
theorem WF.children_tree : IsTree t.children 2 where
  root_ne hi hir := by
    replace hi := h.reach_children.1 hi
    obtain ⟨k, hk, _⟩ := (h.children_eq_some hi).1 hir
    exact h.tree.root_ne hi hk
  unique hi hj hic hjd := by
    replace hi := h.reach_children.1 hi
    replace hj := h.reach_children.1 hj
    obtain ⟨k, hk, hkc⟩ := (h.children_eq_some hi).1 hic
    obtain ⟨l, hl, hld⟩ := (h.children_eq_some hj).1 hjd
    obtain ⟨rfl, rfl⟩ := h.tree.unique hi hj hk hl
    exact ⟨rfl, hkc.symm.trans hld⟩

end WF

/-- The same live objects have the same names. -/
theorem Agree.children {t' : Table} (ha : t.Agree t') {i : ℕ} (hi : t.Live i) (c : List UInt8) :
    t'.children i c = t.children i c := by
  rw [Table.children, Table.children, ha.inode hi]
  split_ifs with hd
  · rw [ha.dir hi hd]
  · rfl

theorem Agree.resolve {t' : Table} (ha : t.Agree t') {i : ℕ} (hi : t.Live i)
    (cs : List (List UInt8)) : t'.resolve i cs = t.resolve i cs := by
  induction cs generalizing i with
  | nil => rfl
  | cons c cs ih =>
    rw [Table.resolve, Table.resolve, ha.inode hi]
    by_cases hd : (t.inode i).isDir = true
    · rw [if_pos hd, if_pos hd, ha.dir hi hd]
      cases hk : (t.dir i).find (·.named c) with
      | none => rfl
      | some k =>
        have hv := (FsDirent.named_iff.1 (DirBlock.of_find_eq_some hk)).1
        exact ih (hi.child hd hv)
    · rw [if_neg hd, if_neg hd]

theorem Agree.walk {t' : Table} (h : t.WF) (ha : t.Agree t') (cs : List (List UInt8)) :
    walk t'.children 2 cs = walk t.children 2 cs :=
  walk_congr (fun _ hx => ha.children (h.reach_children.1 hx)) .root cs

/-! ## Changes of directories -/

section Changes

variable {p : ℕ} {k : Fin 128} {name : List UInt8}

theorem walk_setInode (h : t.WF) {x : FsInode} (c : CanSetInode t p x) (cs : List (List UInt8)) :
    walk (t.setInode p x).children 2 cs = walk t.children 2 cs := by
  refine walk_congr (fun i hi c' => Option.ext fun j => ?_) .root cs
  replace hi := h.reach_children.1 hi
  rw [(h.setInode c).children_eq_some ((live_setInode c.kind).2 hi), h.children_eq_some hi,
    slots_setInode c.kind]
  exact Iff.rfl

theorem NewObject.children {n : ℕ} (c : NewObject t n) (c' : List UInt8) :
    t.children n c' = none := by
  rw [Table.children]
  split_ifs with hd
  · rw [DirBlock.find_eq_none.2 fun l => ?_, Option.map_none]
    rw [FsDirent.named, c.leaf hd l, Bool.false_and]
  · rfl

/-- A name that no valid entry has leads nowhere. -/
theorem WF.children_eq_none (h : t.WF) (hp : t.Live p)
    (habs : ∀ j, (t.dir p j).valid = true → cstr (t.dir p j).name ≠ name) :
    t.children p name = none := by
  cases hch : t.children p name with
  | none => rfl
  | some j =>
    obtain ⟨l, hl, hln⟩ := (h.children_eq_some hp).1 hch
    exact absurd hln (habs l (slots_eq_some.1 hl).2.1)

theorem CanLink.children {n : Fin (2 ^ 31)} (h : t.WF) (c : CanLink t p k n name) {i : ℕ}
    (hi : (t.link p k n name).Live i) (c' : List UInt8) :
    (t.link p k n name).children i c' = setEdge t.children p name (some n) i c' := by
  refine Option.ext fun j => ?_
  rw [(h.link c).children_eq_some hi, slots_link c.isDir]
  have hname : cstr ((t.link p k n name).dir p k).name = name := by
    rw [link, setDir_self, DirBlock.add, Function.update_self]
    exact cstr_strncpy c.name.length_le c.name.nul_notMem
  have hdir : ∀ l, ¬(i = p ∧ l = k) → (t.link p k n name).dir i l = t.dir i l := by
    intro l hl
    by_cases hip : i = p
    · subst hip
      rw [link, setDir_self, DirBlock.add, Function.update_of_ne fun hlk => hl ⟨rfl, hlk⟩]
    · rw [link, setDir_of_ne hip]
  by_cases hip : i = p ∧ c' = name
  · obtain ⟨rfl, rfl⟩ := hip
    rw [setEdge_self]
    constructor
    · rintro ⟨l, hl, hln⟩
      by_cases hlk : l = k
      · rwa [hlk, setEdge_self] at hl
      · rw [setEdge_of_ne _ fun h => hlk h.2] at hl
        rw [hdir l fun h => hlk h.2] at hln
        exact absurd hln (c.absent l (slots_eq_some.1 hl).2.1)
    · intro hj
      exact ⟨k, by rwa [setEdge_self], hname⟩
  · rw [setEdge_of_ne _ hip]
    rcases c.live_link.1 hi with hi | rfl
    · rw [h.children_eq_some hi]
      constructor
      · rintro ⟨l, hl, hln⟩
        have hlk : ¬(i = p ∧ l = k) := by
          rintro ⟨rfl, rfl⟩
          exact hip ⟨rfl, hln ▸ hname⟩
        rw [setEdge_of_ne _ hlk] at hl
        exact ⟨l, hl, hdir l hlk ▸ hln⟩
      · rintro ⟨l, hl, hln⟩
        have hlk : ¬(i = p ∧ l = k) := by
          rintro ⟨rfl, rfl⟩
          rw [slots_eq_none c.free] at hl
          cases hl
        exact ⟨l, by rwa [setEdge_of_ne _ hlk], by rwa [hdir l hlk]⟩
    · -- The new object is not the directory, and has no children.
      have hnp : n.1 ≠ p := fun h => c.object.not_live (h ▸ c.live)
      rw [c.object.children]
      refine iff_of_false ?_ (by simp)
      rintro ⟨l, hl, _⟩
      rw [setEdge_of_ne _ fun h => hnp h.1, c.object.slots] at hl
      cases hl

/-- A new object is found under its name. -/
theorem walk_link {n : Fin (2 ^ 31)} (h : t.WF) (c : CanLink t p k n name)
    {as : List (List UInt8)} (hp : walk t.children 2 as = some p) (bs : List (List UInt8)) :
    walk (t.link p k n name).children 2 bs =
      if bs = as ++ [name] then some n.1 else walk t.children 2 bs := by
  have hnone := h.children_eq_none c.live c.absent
  have hn : ¬Reach t.children 2 n := fun hr => c.object.not_live (h.reach_children.1 hr)
  rw [← walk_insert h.children_tree hp hnone hn c.object.children]
  refine walk_congr (fun i hi => c.children h ?_) .root bs
  rw [reach_insert (Reach.root.walk hp) hnone c.object.children, h.reach_children] at hi
  exact c.live_link.2 hi

theorem CanUnlink.children (h : t.WF) (c : CanUnlink t p k) {i : ℕ}
    (hi : (t.unlink p k).Live i) (c' : List UInt8) :
    (t.unlink p k).children i c' = setEdge t.children p (cstr (t.dir p k).name) none i c' := by
  refine Option.ext fun j => ?_
  rw [(h.unlink c).children_eq_some hi, slots_unlink c.isDir]
  have hi' := ((c.live_unlink h).1 hi).1
  -- Entries that are left are not the removed one, so they are as before.
  have hdir : ∀ l, setEdge t.slots p k none i l = some j →
      t.slots i l = some j ∧ (t.unlink p k).dir i l = t.dir i l ∧ ¬(i = p ∧ l = k) := by
    intro l hl
    have hlk : ¬(i = p ∧ l = k) := by
      rintro ⟨rfl, rfl⟩
      rw [setEdge_self] at hl
      cases hl
    rw [setEdge_of_ne _ hlk] at hl
    refine ⟨hl, ?_, hlk⟩
    rw [unlink]
    by_cases hip : i = p
    · subst hip
      rw [setDir_self, DirBlock.invalidate, Function.update_of_ne fun hlk' => hlk ⟨rfl, hlk'⟩]
    · rw [setDir_of_ne hip]
  by_cases hip : i = p ∧ c' = cstr (t.dir p k).name
  · -- The removed name: no other entry of the directory has it.
    obtain ⟨rfl, rfl⟩ := hip
    rw [setEdge_self]
    refine iff_of_false ?_ (by simp)
    rintro ⟨l, hl, hln⟩
    obtain ⟨hl', he, hlk⟩ := hdir l hl
    rw [he] at hln
    exact hlk ⟨rfl, h.distinct hi' c.isDir (slots_eq_some.1 hl').2.1 c.valid hln⟩
  · rw [setEdge_of_ne _ hip, h.children_eq_some hi']
    constructor
    · rintro ⟨l, hl, hln⟩
      obtain ⟨hl', he, _⟩ := hdir l hl
      exact ⟨l, hl', he ▸ hln⟩
    · rintro ⟨l, hl, hln⟩
      have hl' : setEdge t.slots p k none i l = some j := by
        rw [setEdge_of_ne _ ?_, hl]
        rintro ⟨rfl, rfl⟩
        exact hip ⟨rfl, hln.symm⟩
      exact ⟨l, hl', by rwa [(hdir l hl').2.1]⟩

/-- The name of a removed entry leads nowhere. -/
theorem walk_unlink (h : t.WF) (c : CanUnlink t p k) {as : List (List UInt8)}
    (hp : walk t.children 2 as = some p) (bs : List (List UInt8)) :
    walk (t.unlink p k).children 2 bs =
      if bs = as ++ [cstr (t.dir p k).name] then none else walk t.children 2 bs := by
  have hedge : t.slots p k = some (t.dir p k).inode.1 := slots_eq_some.2 ⟨c.isDir, c.valid, rfl⟩
  have hch : t.children p (cstr (t.dir p k).name) = some (t.dir p k).inode.1 :=
    (h.children_eq_some c.live).2 ⟨k, hedge, rfl⟩
  have hleaf : ∀ b, t.children (t.dir p k).inode b = none := by
    intro b
    cases hb : t.children (t.dir p k).inode b with
    | none => rfl
    | some j =>
      obtain ⟨l, hl, _⟩ := (h.children_eq_some (c.live.step hedge)).1 hb
      rw [c.slots] at hl
      cases hl
  rw [← walk_delete h.children_tree hp hch hleaf]
  refine walk_congr (fun i hi => c.children h ?_) .root bs
  rw [reach_delete h.children_tree (Reach.root.walk hp) hch hleaf, h.reach_children] at hi
  exact (c.live_unlink h).2 hi

theorem CanRename.children (h : t.WF) (c : CanRename t p k name) {i : ℕ} (hi : t.Live i)
    (c' : List UInt8) : (t.rename p k name).children i c' =
      moveEdge t.children p (cstr (t.dir p k).name) name (t.dir p k).inode i c' := by
  have hi' : (t.rename p k name).Live i := (live_rename c.isDir).2 hi
  refine Option.ext fun j => ?_
  rw [(h.rename c).children_eq_some hi', slots_rename c.isDir]
  have hself : cstr ((t.rename p k name).dir p k).name = name := by
    rw [rename, setDir_self, DirBlock.rename, Function.update_self]
    exact cstr_strncpy c.name.length_le c.name.nul_notMem
  have hdir : ∀ l, ¬(i = p ∧ l = k) → (t.rename p k name).dir i l = t.dir i l := by
    intro l hl
    rw [rename]
    by_cases hip : i = p
    · subst hip
      rw [setDir_self, DirBlock.rename, Function.update_of_ne fun hlk => hl ⟨rfl, hlk⟩]
    · rw [setDir_of_ne hip]
  have hne : cstr (t.dir p k).name ≠ name := c.absent k c.valid
  by_cases hb : i = p ∧ c' = name
  · -- The new name: only the renamed entry has it, as it was absent before.
    obtain ⟨rfl, rfl⟩ := hb
    rw [moveEdge, setEdge_self]
    constructor
    · rintro ⟨l, hl, hln⟩
      by_cases hlk : l = k
      · rw [hlk, slots, if_pos ⟨c.isDir, c.valid⟩] at hl
        exact hl
      · rw [hdir l fun h => hlk h.2] at hln
        exact absurd hln (c.absent l (slots_eq_some.1 hl).2.1)
    · intro hj
      exact ⟨k, slots_eq_some.2 ⟨c.isDir, c.valid, Option.some.inj hj⟩, hself⟩
  · by_cases ha : i = p ∧ c' = cstr (t.dir p k).name
    · -- The old name: the entry that had it is renamed, and no other has it.
      obtain ⟨rfl, rfl⟩ := ha
      rw [moveEdge, setEdge_of_ne _ hb, setEdge_self]
      refine iff_of_false ?_ (by simp)
      rintro ⟨l, hl, hln⟩
      by_cases hlk : l = k
      · rw [hlk, hself] at hln
        exact hne hln.symm
      · rw [hdir l fun h => hlk h.2] at hln
        exact hlk (h.distinct hi c.isDir (slots_eq_some.1 hl).2.1 c.valid hln)
    · -- Any other name: its entry is not the renamed one, so it is as before.
      rw [moveEdge_of_ne ha hb, h.children_eq_some hi]
      refine exists_congr fun l => and_congr_right fun hl => ?_
      by_cases hlk : i = p ∧ l = k
      · obtain ⟨rfl, rfl⟩ := hlk
        rw [hself]
        exact iff_of_false (fun h => hb ⟨rfl, h.symm⟩) fun h => ha ⟨rfl, h.symm⟩
      · rw [hdir l hlk]

/-- A renamed object, with what is below it, is found under its new name. -/
theorem walk_rename (h : t.WF) (c : CanRename t p k name) {as : List (List UInt8)}
    (hp : walk t.children 2 as = some p) (bs : List (List UInt8)) :
    walk (t.rename p k name).children 2 bs =
      if as ++ [name] <+: bs then
        walk t.children 2 (as ++ [cstr (t.dir p k).name] ++ bs.drop (as ++ [name]).length)
      else if as ++ [cstr (t.dir p k).name] <+: bs then none
      else walk t.children 2 bs := by
  have hedge : t.slots p k = some (t.dir p k).inode.1 := slots_eq_some.2 ⟨c.isDir, c.valid, rfl⟩
  have hch : t.children p (cstr (t.dir p k).name) = some (t.dir p k).inode.1 :=
    (h.children_eq_some c.live).2 ⟨k, hedge, rfl⟩
  have hnone := h.children_eq_none c.live c.absent
  rw [← walk_move h.children_tree hp hch hnone]
  refine walk_congr (fun i hi => c.children h ?_) .root bs
  rwa [reach_move (Reach.root.walk hp) hch hnone, h.reach_children] at hi

end Changes

end Table

end Cs5600
