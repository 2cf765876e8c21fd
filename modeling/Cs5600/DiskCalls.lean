import Mathlib.Data.Fintype.Basic
import Mathlib.Tactic.IntervalCases
import Cs5600.FileSystem
import Cs5600.Interleave

/-!
# Concurrent block accesses

`fuse_main` may run operations on several threads. What they share is the disk
image, the file offset of `disk_fd` and the copy of the bitmap in memory. A
`block_read` is a seek and a `read`, a `block_write` two seeks and a `write`, and
`allocate_block` looks for a free block, sets its bit and writes the bitmap, in
separate steps, between which other calls take theirs.

A record of what happens can be replayed on a disk whose blocks are read and
written at once, and on which no block is allocated that already is
(`AtomicDisk.replay`). The calls are as good as that (`SharedDisk.AsIfAtomic`) if
nobody moves the offset between the seek and the transfer of a call, and nobody
sets the bit that `allocate_block` has found clear (`calls_asIfAtomic`). Nothing
prevents this (`not_asIfAtomic`). A call that runs alone is what it is in the
model of one thread (`alone_read`, `alone_write`, `alone_alloc`, `alone_free`).
-/

namespace Cs5600

/-! ## The calls -/

/-- Where a `block_read` is. -/
inductive ReadPc
  | seek
  | read
  | done (r : Res Block)

/-- Where a `block_write` is. -/
inductive WritePc
  /-- Before it seeks to the end of the block. -/
  | seekEnd
  | seek
  | write
  | done (r : Res Unit)

/-- Where an `allocate_block` is. -/
inductive AllocPc
  | scan
  /-- Before `bit_set`. -/
  | set (i : ℕ)
  /-- In the `block_write` of the bitmap; in the end, it returns the block. -/
  | store (i : ℕ) (pc : WritePc)
  | failed (r : Res Unit)

/-- Where a `free_block` is. -/
inductive FreePc
  /-- Before `bit_clear`. -/
  | clear
  /-- In the `block_write` of the bitmap. -/
  | store (pc : WritePc)
  | failed (r : Res Unit)

/-- A call, and where it is. All accesses in `homework.c` are of one block. -/
inductive DiskCall
  | read (lba : ℤ) (pc : ReadPc)
  | write (lba : ℤ) (data : Block) (pc : WritePc)
  | alloc (pc : AllocPc)
  | free (b : ℤ) (pc : FreePc)

namespace DiskCall

/-- The call has not begun. -/
def New : DiskCall → Prop
  | read _ .seek | write _ _ .seekEnd | alloc .scan | free _ .clear => True
  | _ => False

/-- The block that the next step reads or writes, if the offset is right. -/
def target : DiskCall → Option ℕ
  | read lba .read | write lba _ .write => some lba.toNat
  | alloc (.store _ .write) | free _ (.store .write) => some 1
  | _ => none

/-- The bit that the next step sets. -/
def chosen : DiskCall → Option ℕ
  | alloc (.set i) => some i
  | _ => none

end DiskCall

variable {C : Type*}

/-- What happens to the disk and to the bitmap. -/
inductive DiskEvent (C : Type*)
  /-- A `block_read` gets the content of its block. -/
  | read (c : C) (lba : ℕ) (data : Block)
  /-- A `block_write` writes its block. -/
  | wrote (c : C) (w : Write)
  /-- `bit_set` in `allocate_block`. -/
  | marked (c : C) (b : ℕ)
  /-- `bit_clear` in `free_block`. -/
  | freed (c : C) (b : ℕ)

/-- What the calls share. -/
structure SharedDisk (C : Type*) where
  fs : FsState
  /-- The file offset of `disk_fd`, in blocks. -/
  offset : ℕ
  calls : C → DiskCall
  /-- What has happened so far. -/
  events : List (DiskEvent C)

namespace SharedDisk

variable [DecidableEq C] (c : C) (ok : Bool) (σ : SharedDisk C)

/-- A call goes on. -/
def goto (call : DiskCall) : SharedDisk C := { σ with calls := Function.update σ.calls c call }

/-- A seek. -/
def seekTo (b : ℕ) : SharedDisk C := { σ with offset := b }

/-- A step of `block_read`, whose system call succeeds or fails. -/
def readStep (lba : ℤ) : ReadPc → SharedDisk C
  | .seek =>
    if lba * 4096 < -2 ^ 31 ∨ 2 ^ 31 ≤ lba * 4096 then
      σ.goto c (.read lba (.done (.fault .overflow)))
    else if ok = true ∧ 0 ≤ lba then (σ.seekTo lba.toNat).goto c (.read lba .read)
    else σ.goto c (.read lba (.done (.err Errno.EIO)))
  | .read =>
    if ok = true ∧ σ.offset < σ.fs.img.nblocks then
      { σ with
        offset := σ.offset + 1
        calls := Function.update σ.calls c (.read lba (.done (.ok (σ.fs.img.block σ.offset))))
        events := σ.events ++ [.read c lba.toNat (σ.fs.img.block σ.offset)] }
    else σ.goto c (.read lba (.done (.err Errno.EIO)))
  | .done _ => σ

/-- A step of `block_write` in a call, whose system call succeeds or fails. -/
def writeStep (call : WritePc → DiskCall) (lba : ℤ) (data : Block) : WritePc → SharedDisk C
  | .seekEnd =>
    if lba * 4096 < -2 ^ 31 ∨ 2 ^ 31 ≤ (lba + 1) * 4096 then
      σ.goto c (call (.done (.fault .overflow)))
    else if lba ≤ 0 then σ.goto c (call (.done (.fault .assertion)))
    else if ok then (σ.seekTo (lba + 1).toNat).goto c (call .seek)
    else σ.goto c (call (.done (.err Errno.EIO)))
  | .seek =>
    if ok then (σ.seekTo lba.toNat).goto c (call .write)
    else σ.goto c (call (.done (.err Errno.EIO)))
  | .write =>
    if ok then
      { fs :=
          { σ.fs with
            img := σ.fs.img.put ⟨σ.offset, data⟩
            log := σ.fs.log ++ [⟨σ.offset, data⟩] }
        offset := σ.offset + 1
        calls := Function.update σ.calls c (call (.done (.ok ())))
        events := σ.events ++ [.wrote c ⟨lba.toNat, data⟩] }
    else σ.goto c (call (.done (.err Errno.EIO)))
  | .done _ => σ

/-- A step of `allocate_block`. The bitmap is written as it is in memory at the time. -/
def allocStep : AllocPc → SharedDisk C
  | .scan =>
    let n := (FsSuper.decode σ.fs.superblock).diskSize.toNat
    match (List.range' 2 (n - 2)).find? fun i => !bitTest σ.fs.bitmap i with
    | none => σ.goto c (.alloc (.failed (.err .ENOSPC)))
    | some i =>
      if 32768 ≤ i then σ.goto c (.alloc (.failed (.fault (.bitmap i))))
      else σ.goto c (.alloc (.set i))
  | .set i =>
    { σ with
      fs := { σ.fs with bitmap := bitSet σ.fs.bitmap i }
      calls := Function.update σ.calls c (.alloc (.store i .seekEnd))
      events := σ.events ++ [.marked c i] }
  | .store i pc => σ.writeStep c ok (fun pc => .alloc (.store i pc)) 1 σ.fs.bitmap pc
  | .failed _ => σ

/-- A step of `free_block`. -/
def freeStep (b : ℤ) : FreePc → SharedDisk C
  | .clear =>
    if b < 0 ∨ 32768 ≤ b then σ.goto c (.free b (.failed (.fault (.bitmap b))))
    else
      { σ with
        fs := { σ.fs with bitmap := bitClear σ.fs.bitmap b.toNat }
        calls := Function.update σ.calls c (.free b (.store .seekEnd))
        events := σ.events ++ [.freed c b.toNat] }
  | .store pc => σ.writeStep c ok (fun pc => .free b (.store pc)) 1 σ.fs.bitmap pc
  | .failed _ => σ

/-- A step of a call. -/
def step : SharedDisk C :=
  match σ.calls c with
  | .read lba pc => σ.readStep c ok lba pc
  | .write lba data pc => σ.writeStep c ok (.write lba data) lba data pc
  | .alloc pc => σ.allocStep c ok pc
  | .free b pc => σ.freeStep c ok b pc

/-- The calls are about to begin. -/
def init (fs : FsState) (offset : ℕ) (calls : C → DiskCall) : SharedDisk C where
  fs := fs
  offset := offset
  calls := calls
  events := []

/-- If the call transfers a block in its next step, the offset is still where it has put it; if it sets
    a bit, the bit is still clear. -/
def Careful (σ : SharedDisk C) (c : C) : Prop :=
  (∀ b, (σ.calls c).target = some b → σ.offset = b) ∧
    ∀ i, (σ.calls c).chosen = some i → bitTest σ.fs.bitmap i = false

end SharedDisk

/-! ## The disk as it should be -/

/-- A disk on which an event happens at once. -/
structure AtomicDisk where
  img : Image
  /-- The blocks that have been allocated, and not freed since. -/
  held : Finset ℕ

namespace AtomicDisk

/-- What becomes of the disk, if an event is as it should be. -/
def next (d : AtomicDisk) : DiskEvent C → Option AtomicDisk
  | .read _ lba data => if data = d.img.block lba then some d else none
  | .wrote _ w => some { d with img := d.img.put w }
  | .marked _ b => if b ∈ d.held then none else some { d with held := insert b d.held }
  | .freed _ b => some { d with held := d.held.erase b }

/-- The disk after events that are all as they should be. -/
def replay (d : AtomicDisk) (events : List (DiskEvent C)) : Option AtomicDisk :=
  events.foldlM next d

variable {d d' : AtomicDisk} {events : List (DiskEvent C)} {e : DiskEvent C}

theorem replay_append (es : List (DiskEvent C)) :
    d.replay (events ++ es) = (d.replay events).bind fun d' => d'.replay es := List.foldlM_append

theorem replay_concat (h : d.replay events = some d') :
    d.replay (events ++ [e]) = d'.next e := by
  rw [replay_append, h]
  exact (Option.bind_some _ _).trans (Option.bind_fun_some _)

theorem next_read {c : C} {lba : ℕ} {data : Block} (h : data = d.img.block lba) :
    d.next (.read c lba data) = some d := by
  rw [next, if_pos h]

theorem eq_of_next_read {c : C} {lba : ℕ} {data : Block}
    (h : d.next (.read c lba data) = some d') : data = d.img.block lba := by
  rw [next] at h
  split_ifs at h with heq
  exact heq

/-- A block stays allocated until it is freed. -/
theorem mem_held_replay {b : ℕ} (h : d.replay events = some d') (hb : b ∈ d.held)
    (hfree : ∀ c, .freed c b ∉ events) : b ∈ d'.held := by
  induction events generalizing d with
  | nil => exact Option.some.inj h ▸ hb
  | cons e es ih =>
    obtain ⟨d₁, hnext, hrest⟩ := Option.bind_eq_some_iff.1 h
    refine ih hrest ?_ fun c hc => hfree c (List.mem_cons_of_mem _ hc)
    cases e with
    | read c lba data =>
      rw [next] at hnext
      split_ifs at hnext
      exact Option.some.inj hnext ▸ hb
    | wrote c w => exact Option.some.inj hnext ▸ hb
    | marked c b' =>
      rw [next] at hnext
      split_ifs at hnext
      exact Option.some.inj hnext ▸ Finset.mem_insert_of_mem hb
    | freed c b' =>
      refine Option.some.inj hnext ▸ Finset.mem_erase.2 ⟨?_, hb⟩
      rintro rfl
      exact hfree c List.mem_cons_self

/-- Between two allocations of a block it is freed. -/
theorem freed_between {b : ℕ} {c c' : C} {l₁ l₂ l₃ : List (DiskEvent C)}
    (h : d.replay (l₁ ++ .marked c b :: l₂ ++ .marked c' b :: l₃) = some d') :
    ∃ c'', .freed c'' b ∈ l₂ := by
  by_contra hfree
  rw [List.append_assoc, replay_append] at h
  obtain ⟨d₁, -, h⟩ := Option.bind_eq_some_iff.1 h
  obtain ⟨d₂, hmark, h⟩ := Option.bind_eq_some_iff.1 h
  obtain ⟨d₃, hl₂, h⟩ := Option.bind_eq_some_iff.1 ((replay_append _).symm.trans h)
  obtain ⟨d₄, hmark', -⟩ := Option.bind_eq_some_iff.1 h
  have hd₂ : b ∈ d₂.held := by
    rw [next] at hmark
    split_ifs at hmark
    exact Option.some.inj hmark ▸ Finset.mem_insert_self _ _
  have hd₃ := mem_held_replay hl₂ hd₂ fun c'' hc => hfree ⟨c'', hc⟩
  rw [next, if_pos hd₃] at hmark'
  cases hmark'

end AtomicDisk

/-! ## Runs -/

namespace DiskCall

/-- What a call is going to return, or returns, has happened. -/
def Logged (c : C) (events : List (DiskEvent C)) : DiskCall → Prop
  | read lba (.done (.ok data)) => .read c lba.toNat data ∈ events
  | write lba data (.done (.ok ())) => .wrote c ⟨lba.toNat, data⟩ ∈ events
  | alloc (.set i) => i < 32768
  | alloc (.store i _) => .marked c i ∈ events
  | _ => True

variable {c : C} {events es : List (DiskEvent C)} {call : DiskCall}

theorem Logged.append (h : call.Logged c events) : call.Logged c (events ++ es) := by
  have hmem : ∀ {e}, e ∈ events → e ∈ events ++ es := List.mem_append_left es
  match call, h with
  | read _ .seek, _ | read _ .read, _ | read _ (.done (.err _)), _ | read _ (.done (.fault _)), _
  | write _ _ .seekEnd, _ | write _ _ .seek, _ | write _ _ .write, _ | write _ _ (.done (.err _)), _
  | write _ _ (.done (.fault _)), _ | alloc .scan, _ | alloc (.failed _), _ | free _ _, _ => trivial
  | read _ (.done (.ok _)), h => exact hmem h
  | write _ _ (.done (.ok ())), h => exact hmem h
  | alloc (.set _), h => exact h
  | alloc (.store _ _), h => exact hmem h

theorem New.logged (h : call.New) : call.Logged c events := by
  match call, h with
  | read _ .seek, _ | write _ _ .seekEnd, _ | alloc .scan, _ | free _ .clear, _ => trivial

end DiskCall

namespace SharedDisk

/-- The calls did what they would do on a disk on which everything happens at once. -/
structure AsIfAtomic (img : Image) (σ : SharedDisk C) : Prop where
  /-- What has been read and written was read and written at once. -/
  replay : ∃ held, AtomicDisk.replay ⟨img, ∅⟩ σ.events = some ⟨σ.fs.img, held⟩
  read : ∀ {c lba data}, σ.calls c = .read lba (.done (.ok data)) → .read c lba.toNat data ∈ σ.events
  write : ∀ {c lba data},
    σ.calls c = .write lba data (.done (.ok ())) → .wrote c ⟨lba.toNat, data⟩ ∈ σ.events
  alloc : ∀ {c i}, σ.calls c = .alloc (.store i (.done (.ok ()))) → .marked c i ∈ σ.events
  /-- A block is freed before it is allocated again. -/
  allocs : ∀ {c c' b l₁ l₂ l₃}, σ.events = l₁ ++ .marked c b :: l₂ ++ .marked c' b :: l₃ →
    ∃ c'', .freed c'' b ∈ l₂

/-- What is kept by careful steps. -/
structure Inv (img : Image) (σ : SharedDisk C) : Prop where
  replay : ∃ held, AtomicDisk.replay ⟨img, ∅⟩ σ.events = some ⟨σ.fs.img, held⟩ ∧
    ∀ b ∈ held, bitTest σ.fs.bitmap b = true
  logged : ∀ c, (σ.calls c).Logged c σ.events

theorem Inv.asIfAtomic {img : Image} {σ : SharedDisk C} (h : σ.Inv img) : σ.AsIfAtomic img where
  replay := h.replay.imp fun _ => And.left
  read {c} _ _ hc := by
    have hlogged := h.logged c
    rwa [hc] at hlogged
  write {c} _ _ hc := by
    have hlogged := h.logged c
    rwa [hc] at hlogged
  alloc {c} _ hc := by
    have hlogged := h.logged c
    rwa [hc] at hlogged
  allocs {c c' b l₁ l₂ l₃} hevents := by
    obtain ⟨held, hreplay, -⟩ := h.replay
    rw [hevents] at hreplay
    exact AtomicDisk.freed_between hreplay

variable [DecidableEq C] {img : Image} {σ : SharedDisk C} {c : C} {ok : Bool}

/-- A call goes on after some events. -/
theorem Inv.logged_update (h : σ.Inv img) {es : List (DiskEvent C)} {call : DiskCall}
    (hcall : call.Logged c (σ.events ++ es)) (c' : C) :
    (Function.update σ.calls c call c').Logged c' (σ.events ++ es) := by
  by_cases hc : c' = c
  · subst hc
    rwa [Function.update_self]
  · rw [Function.update_of_ne hc]
    exact (h.logged c').append

/-- A call goes on, with a seek or without one. -/
theorem Inv.goto (h : σ.Inv img) {call : DiskCall} (hcall : call.Logged c σ.events) :
    (σ.goto c call).Inv img := by
  refine ⟨h.replay, fun c' => ?_⟩
  have hlogged' : call.Logged c (σ.events ++ []) := (List.append_nil σ.events).symm ▸ hcall
  have hlogged := h.logged_update hlogged' c'
  rwa [List.append_nil] at hlogged

omit [DecidableEq C] in
theorem Inv.seekTo (h : σ.Inv img) (b : ℕ) : (σ.seekTo b).Inv img := ⟨h.replay, h.logged⟩

theorem Inv.readStep (h : σ.Inv img) {lba : ℤ} {pc : ReadPc}
    (htarget : ∀ b, (DiskCall.read lba pc).target = some b → σ.offset = b) :
    (σ.readStep c ok lba pc).Inv img := by
  cases pc with
  | seek =>
    rw [SharedDisk.readStep]
    split_ifs
    · exact h.goto trivial
    · exact (h.seekTo _).goto trivial
    · exact h.goto trivial
  | read =>
    rw [SharedDisk.readStep]
    split_ifs
    · -- The offset is that of the block.
      have hoffset : σ.offset = lba.toNat := htarget _ rfl
      obtain ⟨held, hreplay, hheld⟩ := h.replay
      refine ⟨⟨held, ?_, hheld⟩, h.logged_update (List.mem_append_right _ List.mem_cons_self)⟩
      refine (AtomicDisk.replay_concat hreplay).trans (AtomicDisk.next_read ?_)
      rw [hoffset]
    · exact h.goto trivial
  | done r => exact h

theorem Inv.writeStep (h : σ.Inv img) (call : WritePc → DiskCall) {lba : ℤ} {data : Block}
    {pc : WritePc} (htarget : ∀ b, (call pc).target = some b → σ.offset = b)
    (hcall : pc = .write → (call pc).target = some lba.toNat)
    (hlogged : ∀ pc', (∀ u, pc' ≠ .done (.ok u)) → (call pc').Logged c σ.events)
    (hok : (call (.done (.ok ()))).Logged c (σ.events ++ [.wrote c ⟨lba.toNat, data⟩])) :
    (σ.writeStep c ok call lba data pc).Inv img := by
  cases pc with
  | seekEnd =>
    rw [SharedDisk.writeStep]
    split_ifs
    · exact h.goto (hlogged _ nofun)
    · exact h.goto (hlogged _ nofun)
    · exact (h.seekTo _).goto (hlogged _ nofun)
    · exact h.goto (hlogged _ nofun)
  | seek =>
    rw [SharedDisk.writeStep]
    split_ifs
    · exact (h.seekTo _).goto (hlogged _ nofun)
    · exact h.goto (hlogged _ nofun)
  | write =>
    rw [SharedDisk.writeStep]
    split_ifs
    · -- The offset is still where this call has set it, so the block goes where it should.
      have hoffset : σ.offset = lba.toNat := htarget _ (hcall rfl)
      obtain ⟨held, hreplay, hheld⟩ := h.replay
      refine ⟨⟨held, ?_, hheld⟩, h.logged_update hok⟩
      refine (AtomicDisk.replay_concat hreplay).trans ?_
      rw [hoffset]
      rfl
    · exact h.goto (hlogged _ nofun)
  | done r => exact h

/-- The bitmap in memory is written. -/
theorem Inv.allocStep (h : σ.Inv img) {pc : AllocPc} (hlogged : (DiskCall.alloc pc).Logged c σ.events)
    (htarget : ∀ b, (DiskCall.alloc pc).target = some b → σ.offset = b)
    (hchosen : ∀ i, (DiskCall.alloc pc).chosen = some i → bitTest σ.fs.bitmap i = false) :
    (σ.allocStep c ok pc).Inv img := by
  cases pc with
  | scan =>
    rw [SharedDisk.allocStep]
    split
    next => exact h.goto trivial
    next i _ =>
      split_ifs with hi
      · exact h.goto trivial
      · exact h.goto (Nat.lt_of_not_le hi)
  | set i =>
    have hi : i < 32768 := hlogged
    have hclear := hchosen i rfl
    obtain ⟨held, hreplay, hheld⟩ := h.replay
    -- The bit of a block that is held is set, and this one is not.
    have hnot : i ∉ held := by
      intro hmem
      rw [hheld i hmem] at hclear
      cases hclear
    refine ⟨⟨insert i held, ?_, fun b hb => ?_⟩,
      h.logged_update (List.mem_append_right _ List.mem_cons_self)⟩
    · exact (AtomicDisk.replay_concat hreplay).trans (if_neg hnot)
    · change bitTest (bitSet σ.fs.bitmap i) b = true
      rw [bitTest_bitSet hi]
      rcases Finset.mem_insert.1 hb with rfl | hb
      · rw [decide_eq_true rfl, Bool.true_or]
      · rw [hheld b hb, Bool.or_true]
  | store i pc =>
    refine h.writeStep (fun pc => .alloc (.store i pc)) htarget ?_
      (fun _ _ => hlogged) (List.mem_append_left _ hlogged)
    rintro rfl
    rfl
  | failed r => exact h

theorem Inv.freeStep (h : σ.Inv img) {b : ℤ} {pc : FreePc}
    (htarget : ∀ b', (DiskCall.free b pc).target = some b' → σ.offset = b') :
    (σ.freeStep c ok b pc).Inv img := by
  cases pc with
  | clear =>
    rw [SharedDisk.freeStep]
    split_ifs with hb
    · exact h.goto trivial
    · have hlt : b.toNat < 32768 := by omega
      obtain ⟨held, hreplay, hheld⟩ := h.replay
      refine ⟨⟨held.erase b.toNat, ?_, fun b' hb' => ?_⟩, h.logged_update trivial⟩
      · exact AtomicDisk.replay_concat hreplay
      · obtain ⟨hne, hb'⟩ := Finset.mem_erase.1 hb'
        change bitTest (bitClear σ.fs.bitmap b.toNat) b' = true
        rw [bitTest_bitClear hlt, hheld b' hb', decide_eq_false hne.symm]
        rfl
  | store pc =>
    refine h.writeStep (fun pc => .free b (.store pc)) htarget ?_ (fun _ _ => trivial)
      trivial
    rintro rfl
    rfl
  | failed r => exact h

theorem Inv.step (h : σ.Inv img) (hc : σ.Careful c) : (SharedDisk.step c ok σ).Inv img := by
  obtain ⟨htarget, hchosen⟩ := hc
  have hlogged := h.logged c
  rw [SharedDisk.step]
  split
  next lba pc hcall =>
    rw [hcall] at htarget
    exact h.readStep htarget
  next lba data pc hcall =>
    rw [hcall] at htarget
    refine h.writeStep _ htarget ?_ (fun pc' hpc' => ?_) (List.mem_append_right _ List.mem_cons_self)
    · rintro rfl
      rfl
    · match pc', hpc' with
      | .seekEnd, _ | .seek, _ | .write, _ | .done (.err _), _ | .done (.fault _), _ => trivial
      | .done (.ok u), hpc' => exact absurd rfl (hpc' u)
  next pc hcall =>
    rw [hcall] at htarget hchosen hlogged
    exact h.allocStep hlogged htarget hchosen
  next b pc hcall =>
    rw [hcall] at htarget
    exact h.freeStep htarget

end SharedDisk

open SharedDisk

/-- If the offset is where the call has put it whenever a block is transferred, and a bit still clear
    whenever it is set, the calls are as good as if they happened one at a time. -/
theorem calls_asIfAtomic [DecidableEq C] {fs : FsState} {offset : ℕ} {calls : C → DiskCall}
    (hnew : ∀ c, (calls c).New) {σ : SharedDisk C}
    (h : Interleave.Runs SharedDisk.step Careful (init fs offset calls) σ) :
    σ.AsIfAtomic fs.img := by
  have h0 : (init fs offset calls).Inv fs.img :=
    ⟨⟨∅, rfl, fun b hb => absurd hb (Finset.notMem_empty b)⟩, fun c => (hnew c).logged⟩
  refine (Interleave.Runs.invariant h0 (fun σ c ok hσ hc => ?_) h).asIfAtomic
  exact hσ.step hc

/-- A disk of 4 blocks, each filled with its number. -/
def numbered : FsState where
  superblock := FsSuper.encode { magic := 0x37363030, diskSize := 4 }
  bitmap := Block.zero
  img := { nblocks := 4, block := fun b _ => UInt8.ofNat b }
  log := []

/-- A `block_write` and then a `block_read`. -/
theorem calls_asIfAtomic_writeRead :
    (Interleave.exec SharedDisk.step
      (init numbered 0 fun c => if c then .write 2 Block.zero .seekEnd else .read 2 .seek)
      [(true, true), (true, true), (true, true), (false, true), (false, true)]).AsIfAtomic
      numbered.img := by
  refine calls_asIfAtomic (fun c => ?_) (Interleave.runs_exec _ _ fun k hk => ?_)
  · cases c <;> trivial
  · change k < 5 at hk
    interval_cases k
    · exact ⟨nofun, nofun⟩
    · exact ⟨nofun, nofun⟩
    · exact ⟨fun b hb => Option.some.inj hb, nofun⟩
    · exact ⟨nofun, nofun⟩
    · exact ⟨fun b hb => Option.some.inj hb, nofun⟩

/-- Without care, a `block_read` gets another block than its own, a `block_write` writes another one, and
    two `allocate_block`s return the same block. -/
theorem not_asIfAtomic :
    (∃ σ, Interleave.Runs SharedDisk.step (fun _ _ => True)
        (init numbered 0 fun c => .read (if c then 2 else 3) .seek) σ ∧
      σ.calls true = .read 2 (.done (.ok (numbered.img.block 3))) ∧ ¬ σ.AsIfAtomic numbered.img) ∧
    (∃ σ, Interleave.Runs SharedDisk.step (fun _ _ => True)
        (init numbered 0 fun c => if c then .write 2 Block.zero .seekEnd else .read 3 .seek) σ ∧
      σ.calls true = .write 2 Block.zero (.done (.ok ())) ∧
      σ.fs.img.block 3 = Block.zero ∧ ¬ σ.AsIfAtomic numbered.img) ∧
    ∃ σ, Interleave.Runs SharedDisk.step (fun _ _ => True)
        (init numbered 0 fun _ : Bool => .alloc .scan) σ ∧
      (∀ c, σ.calls c = .alloc (.store 2 (.done (.ok ())))) ∧ ¬ σ.AsIfAtomic numbered.img := by
  refine ⟨⟨_, Interleave.runs_exec _ [(true, true), (false, true), (true, true)] fun _ _ => trivial,
      rfl, fun h => ?_⟩,
    ⟨_, Interleave.runs_exec _ [(true, true), (true, true), (false, true), (true, true)]
      fun _ _ => trivial, rfl, rfl, fun h => ?_⟩,
    ⟨_, Interleave.runs_exec _ ([(true, true), (false, true), (true, true), (false, true)] ++
      List.replicate 3 (true, true) ++ List.replicate 3 (false, true)) fun _ _ => trivial,
      fun c => by cases c <;> rfl, fun h => ?_⟩⟩
  · -- The call has returned block 3 as block 2.
    obtain ⟨held, hreplay⟩ := h.replay
    have hstart : AtomicDisk.replay (C := Bool) ⟨numbered.img, ∅⟩ [] = some ⟨numbered.img, ∅⟩ := rfl
    have hnext := (AtomicDisk.replay_concat (e := .read true 2 (numbered.img.block 3)) hstart).symm.trans
      hreplay
    have hdata := congrFun (AtomicDisk.eq_of_next_read hnext) 0
    exact absurd hdata (by decide)
  · -- The call has written block 3 as block 2.
    obtain ⟨held, hreplay⟩ := h.replay
    have himg : numbered.img.put ⟨2, Block.zero⟩ = numbered.img.put ⟨3, Block.zero⟩ :=
      congrArg AtomicDisk.img (Option.some.inj hreplay)
    have hdata := congrFun (congrFun (congrArg Image.block himg) 3) 0
    exact absurd hdata (by decide)
  · -- Block 2 has been marked twice, and not freed.
    obtain ⟨c, hc⟩ := h.allocs
      (show _ = [] ++ DiskEvent.marked true 2 :: [] ++ .marked false 2 :: _ from rfl)
    exact absurd hc List.not_mem_nil

/-! ## Calls that run alone -/

/-- What `allocate_block` returns. -/
def AllocPc.result : AllocPc → Option (Res ℕ)
  | .store i (.done (.ok ())) => some (.ok i)
  | .store _ (.done (.err e)) | .failed (.err e) => some (.err e)
  | .store _ (.done (.fault f)) | .failed (.fault f) => some (.fault f)
  | _ => none

/-- What `free_block` returns. -/
def FreePc.result : FreePc → Option (Res Unit)
  | .store (.done r) | .failed r => some r
  | _ => none

section Alone

variable [DecidableEq C] {σ : SharedDisk C} {c : C}

/-- So many steps of a call, in which nothing fails. -/
def alone (c : C) (n : ℕ) (σ : SharedDisk C) : SharedDisk C :=
  Interleave.exec SharedDisk.step σ (List.replicate n (c, true))

theorem alone_succ (n : ℕ) : alone c (n + 1) σ = alone c n (σ.step c true) := rfl

theorem goto_calls (call : DiskCall) : (σ.goto c call).calls c = call := Function.update_self ..

/-- A call that has ended stays as it is. -/
theorem alone_of_step_eq (h : σ.step c true = σ) (n : ℕ) : alone c n σ = σ := by
  induction n with
  | zero => rfl
  | succ n ih => rwa [alone_succ, h]

theorem alone_read {lba : ℤ} (hcall : σ.calls c = .read lba .seek) :
    (alone c 2 σ).calls c = .read lba (.done ((blockRead lba).run σ.fs).1) ∧
      (alone c 2 σ).fs = ((blockRead lba).run σ.fs).2 := by
  have hstep : ∀ {σ' : SharedDisk C} {pc}, σ'.calls c = .read lba pc →
      σ'.step c true = σ'.readStep c true lba pc := by
    intro σ' pc h
    rw [SharedDisk.step, h]
  have hdone : ∀ r, (alone c 1 (σ.goto c (.read lba (.done r)))).calls c = .read lba (.done r) ∧
      (alone c 1 (σ.goto c (.read lba (.done r)))).fs = σ.fs := by
    intro r
    rw [alone_of_step_eq (hstep (goto_calls _))]
    exact ⟨goto_calls _, rfl⟩
  rw [alone_succ, hstep hcall, readStep]
  by_cases hoverflow : lba * 4096 < -2 ^ 31 ∨ 2 ^ 31 ≤ lba * 4096
  · have hrun : (blockRead lba).run σ.fs = (.fault .overflow, σ.fs) := if_pos hoverflow
    rw [if_pos hoverflow, hrun]
    exact hdone _
  have hrun : (blockRead lba).run σ.fs =
      if 0 ≤ lba ∧ lba < σ.fs.img.nblocks then (.ok (σ.fs.img.block lba.toNat), σ.fs)
      else (.err Errno.EIO, σ.fs) := if_neg hoverflow
  rw [if_neg hoverflow, hrun]
  -- The `lseek` fails for a negative offset, and the `read` beyond the end.
  by_cases hlba : 0 ≤ lba
  · rw [if_pos ⟨rfl, hlba⟩, alone_succ, hstep (goto_calls _), readStep]
    by_cases hn : lba < σ.fs.img.nblocks
    · have hn' : lba.toNat < σ.fs.img.nblocks := by omega
      rw [if_pos ⟨rfl, hn'⟩, if_pos ⟨hlba, hn⟩]
      exact ⟨Function.update_self .., rfl⟩
    · have hn' : ¬ lba.toNat < σ.fs.img.nblocks := by omega
      rw [if_neg fun h => hn' h.2, if_neg fun h => hn h.2]
      exact ⟨goto_calls _, rfl⟩
  · rw [if_neg fun h => hlba h.2, if_neg fun h => hlba h.1]
    exact hdone _

/-- The steps of a `block_write` in a call. -/
theorem alone_store (call : WritePc → DiskCall) (lba : ℤ) (data : Block)
    (hstep : ∀ (σ' : SharedDisk C) {pc}, σ'.fs = σ.fs → σ'.calls c = call pc →
      σ'.step c true = σ'.writeStep c true call lba data pc)
    (hcall : σ.calls c = call .seekEnd) :
    (alone c 3 σ).calls c = call (.done ((blockWrite lba data).run σ.fs).1) ∧
      (alone c 3 σ).fs = ((blockWrite lba data).run σ.fs).2 := by
  -- A call that has returned stays where it is.
  have hdone : ∀ r, (alone c 2 (σ.goto c (call (.done r)))).calls c = call (.done r) ∧
      (alone c 2 (σ.goto c (call (.done r)))).fs = σ.fs := by
    intro r
    rw [alone_of_step_eq (hstep (σ.goto c (call (.done r))) rfl (goto_calls _))]
    exact ⟨goto_calls _, rfl⟩
  rw [alone_succ, hstep σ rfl hcall, writeStep]
  by_cases hoverflow : lba * 4096 < -2 ^ 31 ∨ 2 ^ 31 ≤ (lba + 1) * 4096
  · have hrun : (blockWrite lba data).run σ.fs = (.fault .overflow, σ.fs) := if_pos hoverflow
    rw [if_pos hoverflow, hrun]
    exact hdone _
  by_cases hlba : lba ≤ 0
  · have hrun : (blockWrite lba data).run σ.fs = (.fault .assertion, σ.fs) :=
      (if_neg hoverflow).trans (if_pos hlba)
    rw [if_neg hoverflow, if_pos hlba, hrun]
    exact hdone _
  · have hrun : (blockWrite lba data).run σ.fs = (.ok (),
        { σ.fs with
          img := σ.fs.img.put ⟨lba.toNat, data⟩
          log := σ.fs.log ++ [⟨lba.toNat, data⟩] }) := (if_neg hoverflow).trans (if_neg hlba)
    -- The two seeks change only the offset.
    have hgoto : ∀ (σ' : SharedDisk C) (b : ℕ) (pc : WritePc), σ'.fs = σ.fs →
        ((σ'.seekTo b).goto c (call pc)).step c true =
          ((σ'.seekTo b).goto c (call pc)).writeStep c true call lba data pc :=
      fun σ' b pc h => hstep ((σ'.seekTo b).goto c (call pc)) h (goto_calls _)
    have hsecond : ((σ.seekTo (lba + 1).toNat).goto c (call .seek)).fs = σ.fs := rfl
    rw [if_neg hoverflow, if_neg hlba, if_pos rfl, hrun, alone_succ, hgoto σ _ _ rfl, writeStep,
      if_pos rfl, alone_succ, hgoto _ _ _ hsecond, writeStep, if_pos rfl]
    exact ⟨Function.update_self .., rfl⟩

theorem alone_write {lba : ℤ} {data : Block} (hcall : σ.calls c = .write lba data .seekEnd) :
    (alone c 3 σ).calls c = .write lba data (.done ((blockWrite lba data).run σ.fs).1) ∧
      (alone c 3 σ).fs = ((blockWrite lba data).run σ.fs).2 := by
  refine alone_store (.write lba data) lba data (fun σ' pc _ h => ?_) hcall
  rw [SharedDisk.step, h]

theorem alone_alloc (hcall : σ.calls c = .alloc .scan) : ∃ pc,
    (alone c 5 σ).calls c = .alloc pc ∧ pc.result = some (allocateBlock.run σ.fs).1 ∧
      (alone c 5 σ).fs = (allocateBlock.run σ.fs).2 := by
  have hstep : ∀ {σ' : SharedDisk C} {pc}, σ'.calls c = .alloc pc →
      σ'.step c true = σ'.allocStep c true pc := by
    intro σ' pc h
    rw [SharedDisk.step, h]
  have hfailed : ∀ n r, alone c n (σ.goto c (.alloc (.failed r))) = σ.goto c (.alloc (.failed r)) :=
    fun n r => alone_of_step_eq (hstep (goto_calls _)) n
  rw [alone_succ, hstep hcall, allocStep, allocateBlock, FsM.bind_get]
  dsimp only
  cases (List.range' 2 ((FsSuper.decode σ.fs.superblock).diskSize.toNat - 2)).find? fun i =>
    !bitTest σ.fs.bitmap i with
  | none =>
    dsimp only
    rw [hfailed]
    exact ⟨_, goto_calls _, rfl, rfl⟩
  | some i =>
    dsimp only
    by_cases hlt : 32768 ≤ i
    · rw [if_pos hlt, if_pos hlt, hfailed]
      exact ⟨_, goto_calls _, rfl, rfl⟩
    · rw [if_neg hlt, if_neg hlt, alone_succ, hstep (goto_calls _), allocStep]
      -- The bit has been set in memory; the rest is a `block_write` of the bitmap.
      let σ₁ : SharedDisk C := { σ with
        fs := { σ.fs with bitmap := bitSet σ.fs.bitmap i }
        calls := Function.update (Function.update σ.calls c (.alloc (.set i))) c
          (.alloc (.store i .seekEnd))
        events := σ.events ++ [.marked c i] }
      have hstore := alone_store (σ := σ₁) (fun pc => .alloc (.store i pc)) 1 (bitSet σ.fs.bitmap i)
        ?_ (Function.update_self ..)
      · exact ⟨_, hstore.1, rfl, hstore.2⟩
      · intro σ' pc hfs h
        rw [hstep h, allocStep, hfs]

theorem alone_free {b : ℤ} (hcall : σ.calls c = .free b .clear) : ∃ pc,
    (alone c 4 σ).calls c = .free b pc ∧ pc.result = some ((freeBlock b).run σ.fs).1 ∧
      (alone c 4 σ).fs = ((freeBlock b).run σ.fs).2 := by
  have hstep : ∀ {σ' : SharedDisk C} {pc}, σ'.calls c = .free b pc →
      σ'.step c true = σ'.freeStep c true b pc := by
    intro σ' pc h
    rw [SharedDisk.step, h]
  rw [alone_succ, hstep hcall, freeStep, freeBlock, FsM.bind_get]
  by_cases hb : b < 0 ∨ 32768 ≤ b
  · rw [if_pos hb, if_pos hb, alone_of_step_eq (hstep (goto_calls _))]
    exact ⟨_, goto_calls _, rfl, rfl⟩
  · rw [if_neg hb, if_neg hb]
    let σ₁ : SharedDisk C := { σ with
      fs := { σ.fs with bitmap := bitClear σ.fs.bitmap b.toNat }
      calls := Function.update σ.calls c (.free b (.store .seekEnd))
      events := σ.events ++ [.freed c b.toNat] }
    have hstore := alone_store (σ := σ₁) (fun pc => .free b (.store pc)) 1
      (bitClear σ.fs.bitmap b.toNat) ?_ (Function.update_self ..)
    · exact ⟨_, hstore.1, rfl, hstore.2⟩
    · intro σ' pc hfs h
      rw [hstep h, freeStep, hfs]

end Alone

end Cs5600
