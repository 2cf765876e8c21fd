import Cs5600.Failures
import Cs5600.VolumeRuns

/-!
# Lifetimes of objects

When an object is made, changed and removed again, the volume is what it was: nothing of the object
stays in the tree, and all of its blocks are free again (`removed_undoes_made`). The calls in
between may be any calls about that object, and calls that do not write, except that a call that
runs out of blocks loses them.
-/

namespace Cs5600

open Table FsM Traces

/-- The names of the entry that a path leads to. -/
def FsPath.entry (path : FsPath) : List (List UInt8) := path.parent ++ path.names.getLast?.toList

/-- The call is about the object with these names, or it does not write. -/
def Op.Concerns (ns : List (List UInt8)) : Op → Prop
  | chmod path _ | utime path _ | truncate path _ | write path _ _ => path.place = ns
  | getattr _ | readdir _ _ | read _ _ _ | statfs => True
  | _ => False

/-- The calls that remove an object, with its path. -/
inductive Op.Removes : Op → FsPath → Prop
  | unlink {path : FsPath} : Removes (.unlink path) path
  | rmdir {path : FsPath} : Removes (.rmdir path) path

namespace Names

variable {t : Names} {ns : List (List UInt8)}

theorem insert_self (n : Node) : t.insert ns n ns = some n := if_pos rfl

theorem insert_insert (n m : Node) : (t.insert ns n).insert ns m = t.insert ns m := by
  funext ms
  rw [insert, insert, insert]
  split_ifs <;> rfl

theorem remove_insert (h : t ns = none) (n : Node) : (t.insert ns n).remove ns = t := by
  funext ms
  rw [remove, insert]
  split_ifs with hms
  · rw [hms, h]
  · rfl

end Names

namespace Node

theorem blocks_withAttrs (g : Attrs → Attrs) (n : Node) : (n.withAttrs g).blocks = n.blocks := by
  cases n <;> rfl

/-- Bytes that are written take as many blocks as the file needs more. -/
theorem blocks_overwrite (a a' : Attrs) {c : List UInt8} {o : ℕ} (ho : o ≤ c.length)
    (buf : List UInt8) : (file a' (overwrite c o buf)).blocks =
      (file a c).blocks + (blocksFor (o + buf.length) - blocksFor c.length) := by
  rw [blocks, blocks, overwrite_length buf ho, blocksFor, blocksFor, blocksFor]
  omega

end Node

namespace Volume

variable {v v' : Volume} {env : Env} {path : FsPath} {n : Node}

/-- The volume has one object more than the other one, and the blocks of the object are not free. -/
structure Extends (v v' : Volume) (ns : List (List UInt8)) : Prop where
  absent : v.tree ns = none
  object : ∃ n, v'.tree = v.tree.insert ns n ∧ v'.free + n.blocks = v.free
  blocks : v'.blocks = v.blocks

theorem Ends.ok {x : Except Errno Unit × Volume}
    (h : Ends x (fun _ => .done) (.ok .done) v') : x.1 = .ok () := by
  obtain ⟨_ | _, _⟩ := x
  · cases h.1
  · rfl

theorem leaf_eq_ok {leaf : List UInt8} (h : v.leaf path = .ok (n, leaf)) :
    path.entry = path.parent ++ [leaf] := by
  rw [Volume.leaf] at h
  rw [FsPath.entry]
  cases hl : path.names.getLast? with
  | none =>
    rw [hl] at h
    cases h
  | some l =>
    rw [hl] at h
    simp only [] at h
    cases hf : v.tree.follow [] path.parent with
    | error e =>
      rw [hf] at h
      cases h
    | ok m =>
      rw [hf] at h
      obtain ⟨_, rfl⟩ := Prod.mk.inj (Except.ok.inj h)
      rfl

theorem extends_make (h : (v.make path n).1 = .ok ()) : v.Extends (v.make path n).2 path.entry := by
  rw [make] at h ⊢
  split at h
  · cases h
  · cases h
  · next a leaf hl =>
    rw [leaf_eq_ok hl]
    split_ifs at h ⊢ with hnew hfree hroom
    exact ⟨not_not.1 hnew, ⟨n, rfl, Nat.sub_add_cancel (not_lt.1 hfree)⟩, rfl⟩

theorem Extends.remove (h : v.Extends v' path.entry)
    {check : List (List UInt8) → Node → Option Errno} (hr : (v'.remove path check).1 = .ok ()) :
    (v'.remove path check).2 = v := by
  obtain ⟨habs, ⟨n, htree, hfree⟩, hblocks⟩ := h
  rw [Volume.remove] at hr ⊢
  split at hr
  · cases hr
  · next a leaf hl =>
    rw [← leaf_eq_ok hl, htree, Names.insert_self] at hr ⊢
    simp only [] at hr ⊢
    split at hr
    · cases hr
    · exact Volume.ext (Names.remove_insert habs n) hfree hblocks

/-- Changing the object changes what the volume has more. -/
theorem Extends.insert {ns : List (List UInt8)} (h : v.Extends v' ns) {m : Node}
    (hm : v'.tree ns = some m) {m' : Node} {free : ℕ} (hfree : free + m'.blocks = v'.free + m.blocks) :
    v.Extends { v' with tree := v'.tree.insert ns m', free } ns := by
  obtain ⟨habs, ⟨n, htree, hold⟩, hblocks⟩ := h
  rw [htree, Names.insert_self] at hm
  obtain rfl := Option.some.inj hm
  refine ⟨habs, ⟨m', ?_, ?_⟩, hblocks⟩
  · change v'.tree.insert ns m' = _
    rw [htree, Names.insert_insert]
  · exact hfree.trans hold

theorem tree_place {m : Node} (h : v.find path = .ok m) : v.tree path.place = some m :=
  Names.follow_eq_ok (t := v.tree) h

theorem Extends.setAttrs (h : v.Extends v' path.place) (g : Attrs → Attrs) :
    v.Extends (v'.setAttrs path g).2 path.place := by
  rw [Volume.setAttrs]
  split
  · exact h
  · next m hm => exact h.insert (tree_place hm) (by rw [Node.blocks_withAttrs])

theorem Extends.truncate (h : v.Extends v' path.place) (len : ℤ) :
    v.Extends (v'.truncate env path len).2 path.place := by
  rw [Volume.truncate]
  split_ifs
  · exact h
  · split
    · exact h
    · exact h
    · next a c hm =>
      refine h.insert (tree_place hm) ?_
      rw [Node.blocks, Node.blocks, List.length_nil, blocksFor, blocksFor]
      omega

theorem Extends.write (h : v.Extends v' path.place) {buf : List UInt8} {o : ℕ}
    (hr : (v'.write env path buf o).1 ≠ .error .ENOSPC) :
    v.Extends (v'.write env path buf o).2 path.place := by
  rw [Volume.write] at hr ⊢
  split at hr
  · exact h
  · exact h
  · next a c hm =>
    dsimp only at hr ⊢
    split_ifs at hr ⊢ with ho hfree
    · exact h
    · exact absurd rfl hr
    · refine h.insert (tree_place hm) ?_
      rw [Node.blocks_overwrite a _ (not_lt.1 ho)]
      omega

/-- A call about the object that does not run out of blocks. -/
theorem Extends.call {ns : List (List UInt8)} (h : v.Extends v' ns) {op : Op}
    (hop : op.Concerns ns) {r : Res Out} (hr : r ≠ .err .ENOSPC) {v'' : Volume}
    (hc : v'.Call env op r v'') : v.Extends v'' ns := by
  cases op with
  | getattr => rw [hc.2]; exact h
  | readdir => rw [hc.1]; exact h
  | read => rw [hc.2]; exact h
  | statfs => rw [hc.2]; exact h
  | chmod path mode =>
    obtain rfl : path.place = ns := hop
    rw [hc.2]
    exact h.setAttrs _
  | utime path modtime =>
    obtain rfl : path.place = ns := hop
    rw [hc.2]
    exact h.setAttrs _
  | truncate path len =>
    obtain rfl : path.place = ns := hop
    rw [hc.2]
    exact h.truncate len
  | write path buf o =>
    obtain rfl : path.place = ns := hop
    rw [hc.2]
    refine h.write fun he => hr ?_
    rw [hc.1, he]
    rfl
  | _ => cases hop

end Volume

/-! ## The code -/

/-- A call of the code about an object, which does not run out of blocks. -/
def FsState.CallsAbout (ns : List (List UInt8)) (s : FsState) (c : Called) (s' : FsState) : Prop :=
  s.Calls c s' ∧ c.op.Concerns ns ∧ c.result ≠ .err .ENOSPC

theorem FsState.Shows.mono {s s' : FsState} {v v' : Volume} {ns : List (List UInt8)}
    (h : s.Shows v) {cs : List Called} (ht : Trace (FsState.CallsAbout ns) s cs s')
    (hv : v'.Extends v ns) : ∃ v₂, s'.Shows v₂ ∧ v'.Extends v₂ ns := by
  refine ht.invariant (I := fun s => ∃ v₂, s.Shows v₂ ∧ v'.Extends v₂ ns) ?_ ⟨v, h, hv⟩
  rintro t c t' ⟨v₂, hs, hext⟩ ⟨hc, hop, hr⟩
  obtain ⟨v₃, hcall, hs'⟩ := hs.calls hc
  exact ⟨v₃, hs', hext.call hop hr hcall.2⟩

/-- An object that is made and removed again leaves the tree and the free blocks as they were,
    whatever is done with it in the meantime, unless this runs out of blocks. -/
theorem removed_undoes_made {s s₁ s₂ s₃ : FsState} (h : s.WF) (hdirs : s.img.OneBlockDirs)
    {path : FsPath} {need : ℕ} {make remove : Op} (hmake : make.Adds path need)
    (hremove : remove.Removes path) {env env' : Env} (hs₁ : s.Calls ⟨env, make, .ok .done⟩ s₁)
    {cs : List Called} (hs₂ : Trace (FsState.CallsAbout path.entry) s₁ cs s₂)
    (hs₃ : s₂.Calls ⟨env', remove, .ok .done⟩ s₃) :
    s₃.img.tree = s.img.tree ∧ s₃.bfree = s.bfree ∧ s₃.WF := by
  have hshows : s.Shows s.img.volume := ⟨h, hdirs, rfl⟩
  obtain ⟨v₁, ⟨_, hcall₁⟩, hshows₁⟩ := hshows.calls hs₁
  -- Making the object succeeds, and so do all checks of the call.
  have hext₁ : s.img.volume.Extends v₁ path.entry := by
    cases hmake with
    | create => rw [hcall₁.2]; exact Volume.extends_make (Volume.Ends.ok hcall₁)
    | mkdir => rw [hcall₁.2]; exact Volume.extends_make (Volume.Ends.ok hcall₁)
  obtain ⟨v₂, hshows₂, hext₂⟩ := hshows₁.mono hs₂ hext₁
  obtain ⟨v₃, ⟨_, hcall₃⟩, hshows₃⟩ := hshows₂.calls hs₃
  have hv₃ : v₃ = s.img.volume := by
    cases hremove with
    | unlink => rw [hcall₃.2]; exact hext₂.remove (Volume.Ends.ok hcall₃)
    | rmdir => rw [hcall₃.2]; exact hext₂.remove (Volume.Ends.ok hcall₃)
  have hvolume : s₃.img.volume = s.img.volume := hshows₃.volume.trans hv₃
  refine ⟨congrArg Volume.tree hvolume, ?_, hshows₃.wf⟩
  rw [bfree_eq hshows₃.wf, bfree_eq h]
  exact congrArg (fun v : Volume => (v.free : ℤ)) hvolume

/-- An object in the root directory may be removed. -/
theorem Image.leaf_of_parent_eq_nil {img : Image} (h : img.WF) {path : FsPath} (hp : path.parent = [])
    (a : Attrs) (c : List UInt8) (leaf : List UInt8) : img.volume.leaf path ≠ .ok (.file a c, leaf) := by
  intro hleaf
  rw [leaf_volume, Table.lookupParent, ← FsPath.parent, hp] at hleaf
  cases hl : path.names.getLast? with
  | none =>
    rw [hl] at hleaf
    cases hleaf
  | some l =>
    rw [hl] at hleaf
    have hroot := (Prod.mk.inj (Except.ok.inj hleaf)).1
    rw [node_eq_dir h.table.root] at hroot
    cases hroot

/-- `/a` is made, changed and removed in the empty file system. -/
theorem removed_undoes_made_fileA :
    ((((Op.unlink pathA).exec ⟨500, 500, 0⟩).run
      (((Op.chmod pathA 0o600).exec ⟨500, 500, 0⟩).run fileA).2).2).img.tree = emptyFs.img.tree := by
  have hchmod : FsState.CallsAbout pathA.entry fileA
      ⟨⟨500, 500, 0⟩, .chmod pathA 0o600, .ok .done⟩
      (((Op.chmod pathA 0o600).exec ⟨500, 500, 0⟩).run fileA).2 :=
    ⟨⟨trivial, rfl⟩, show pathA.place = pathA.entry by decide, by simp⟩
  have hwf := exec_wf wf_fileA ⟨500, 500, 0⟩ (show (Op.chmod pathA 0o600).Ok fileA.img from trivial)
  have hunlink : FsState.Calls (((Op.chmod pathA 0o600).exec ⟨500, 500, 0⟩).run fileA).2
      ⟨⟨500, 500, 0⟩, .unlink pathA, .ok .done⟩
      (((Op.unlink pathA).exec ⟨500, 500, 0⟩).run
        (((Op.chmod pathA 0o600).exec ⟨500, 500, 0⟩).run fileA).2).2 :=
    ⟨fun a c leaf => Image.leaf_of_parent_eq_nil hwf.img (by decide) a c leaf, rfl⟩
  exact (removed_undoes_made wf_emptyFs oneBlockDirs_emptyFs .create .unlink calls_fileA
    (.single hchmod) hunlink).1

end Cs5600
