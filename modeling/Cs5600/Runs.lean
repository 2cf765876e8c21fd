import Cs5600.Format

/-!
# Runs of the file system

A run is a sequence of calls, with any surroundings, whose arguments are as FUSE
passes them (`Op.Ok`). The calls that write end in one of the ways of
`Op.Ends`, by which they keep the state well-formed (`Op.Ends.wf`) and do not
run into a fault; the other calls do not change the state (`exec_reads`). Hence
every state of a run from a well-formed state is well-formed
(`reachable_wf`).
-/

namespace Cs5600

open LabelledGraph Table FsM WriteLog

/-- The result of a call, with its value changed. -/
def Res.map {α β : Type} (f : α → β) : Res α → Res β
  | .ok a => .ok (f a)
  | .err e => .err e
  | .fault t => .fault t

theorem map_run {α β : Type} {x : FsM α} {s s' : FsState} {r : Res α} (f : α → β)
    (h : x.run s = (r, s')) : (f <$> x).run s = (r.map f, s') := by
  change (x >>= fun a => pure (f a)).run s = _
  rw [bind_run, h]
  cases r <;> rfl

/-! ## Calls that write -/

namespace Op

/-- The calls that may write. -/
def Modifies : Op → Prop
  | getattr _ | readdir _ _ | read _ _ _ | statfs => False
  | _ => True

/-- The arguments are as FUSE passes them: typed modes, paths whose parent is a directory where
    the operation does not check it, and writes within the largest size of a file. -/
def Ok (img : Image) : Op → Prop
  | create _ mode => RegMode mode
  | mkdir _ mode => PlainMode mode
  | unlink path => img.table.ParentDir path
  | rmdir path => img.table.ParentDir path
  | rename src _ => img.table.ParentDir src
  | write _ buf offset => 0 ≤ offset ∧ offset + buf.length ≤ 1019 * 4096
  | _ => True

/-- How a call that writes ends: its result, and the blocks it writes. -/
inductive Ends (env : Env) (img : Image) : Op → Res Out → List Write → Prop
  | create {path : FsPath} {mode : UInt32} {r : Res Unit} {ws : List Write} :
      img.NewEnds path 1 (newFile env mode) r ws →
      Ends env img (.create path mode) (r.map fun _ => .done) ws
  | mkdir {path : FsPath} {mode : UInt32} {r : Res Unit} {ws : List Write} :
      img.NewEnds path 2 (newDir env mode) r ws →
      Ends env img (.mkdir path mode) (r.map fun _ => .done) ws
  | unlink {path : FsPath} {r : Res Unit} {ws : List Write} :
      img.RemoveEnds path img.table.unlinkCheck r ws →
      Ends env img (.unlink path) (r.map fun _ => .done) ws
  | rmdir {path : FsPath} {r : Res Unit} {ws : List Write} :
      img.RemoveEnds path img.table.rmdirCheck r ws →
      Ends env img (.rmdir path) (r.map fun _ => .done) ws
  | rename {src dst : FsPath} {r : Res Unit} {ws : List Write} :
      img.RenameEnds src dst r ws → Ends env img (.rename src dst) (r.map fun _ => .done) ws
  | chmod {path : FsPath} {mode : UInt32} {r : Res Unit} {ws : List Write} :
      img.SetEnds path (.chmod mode) r ws → Ends env img (.chmod path mode) (r.map fun _ => .done) ws
  | utime {path : FsPath} {modtime : Int64} {r : Res Unit} {ws : List Write} :
      img.SetEnds path (.utime modtime) r ws →
      Ends env img (.utime path modtime) (r.map fun _ => .done) ws
  | truncate {path : FsPath} {len : ℤ} {r : Res Unit} {ws : List Write} :
      img.TruncateEnds env path len r ws →
      Ends env img (.truncate path len) (r.map fun _ => .done) ws
  | write {path : FsPath} {buf : List UInt8} {o : ℕ} {r : Res ℕ} {ws : List Write} :
      img.WriteEnds env path buf o r ws → Ends env img (.write path buf o) (r.map .count) ws

variable {env : Env} {img : Image} {op : Op} {r : Res Out} {ws : List Write}

theorem exists_ends (env : Env) (hm : op.Modifies) (hop : op.Ok img) : ∃ r ws, Ends env img op r ws := by
  cases op with
  | getattr => cases hm
  | readdir => cases hm
  | create path mode =>
    obtain ⟨r, ws, he⟩ := img.exists_newEnds path 1 (newFile env mode)
    exact ⟨_, _, .create he⟩
  | mkdir path mode =>
    obtain ⟨r, ws, he⟩ := img.exists_newEnds path 2 (newDir env mode)
    exact ⟨_, _, .mkdir he⟩
  | unlink path =>
    obtain ⟨r, ws, he⟩ := img.exists_removeEnds path img.table.unlinkCheck
    exact ⟨_, _, .unlink he⟩
  | rmdir path =>
    obtain ⟨r, ws, he⟩ := img.exists_removeEnds path img.table.rmdirCheck
    exact ⟨_, _, .rmdir he⟩
  | rename src dst =>
    obtain ⟨r, ws, he⟩ := img.exists_renameEnds src dst
    exact ⟨_, _, .rename he⟩
  | chmod path mode =>
    obtain ⟨r, ws, he⟩ := img.exists_setEnds path (.chmod mode)
    exact ⟨_, _, .chmod he⟩
  | utime path modtime =>
    obtain ⟨r, ws, he⟩ := img.exists_setEnds path (.utime modtime)
    exact ⟨_, _, .utime he⟩
  | truncate path len =>
    obtain ⟨r, ws, he⟩ := img.exists_truncateEnds env path len
    exact ⟨_, _, .truncate he⟩
  | read => cases hm
  | write path buf offset =>
    obtain ⟨o, rfl⟩ := Int.eq_ofNat_of_zero_le hop.1
    obtain ⟨r, ws, he⟩ := img.exists_writeEnds env path buf o
    exact ⟨_, _, .write he⟩
  | statfs => cases hm

/-- A call that writes does not run into a fault. -/
theorem Ends.ne_fault (he : Ends env img op r ws) (t : Fault) : r ≠ .fault t := by
  cases he with
  | create he => cases he <;> exact nofun
  | mkdir he => cases he <;> exact nofun
  | unlink he => cases he <;> exact nofun
  | rmdir he => cases he <;> exact nofun
  | rename he => cases he <;> exact nofun
  | chmod he => cases he <;> exact nofun
  | utime he => cases he <;> exact nofun
  | truncate he => cases he <;> exact nofun
  | write he => cases he <;> exact nofun

theorem unlinkCheck_leaf {t : Table} (i : ℕ) (hc : t.unlinkCheck i = none)
    (hd : (t.inode i).isDir = true) (j : Fin 128) : (t.dir i j).valid = false := by
  rw [unlinkCheck, if_pos hd] at hc
  cases hc

theorem rmdirCheck_leaf {t : Table} (i : ℕ) (hc : t.rmdirCheck i = none)
    (hd : (t.inode i).isDir = true) (j : Fin 128) : (t.dir i j).valid = false := by
  rw [rmdirCheck, if_pos hd] at hc
  split_ifs at hc with hne
  exact DirBlock.find_eq_none.1 (DirBlock.find_isSome_eq_false.1 (by simpa using hne)) j

variable (h : img.WF) (hop : op.Ok img) (he : Ends env img op r ws)
include h hop he

/-- A call does not write outside the image, or to the superblock. -/
theorem Ends.writable : Writable img.nblocks ws := by
  cases he with
  | create he => exact he.writable h (Image.makes_newFile h hop)
  | mkdir he => exact he.writable h (Image.makes_newDir h hop)
  | unlink he => exact he.writable h hop
  | rmdir he => exact he.writable h hop
  | rename he => exact he.writable h hop
  | chmod he => exact he.writable h
  | utime he => exact he.writable h
  | truncate he => exact he.writable h
  | write he => exact he.writable h (by have := hop.2; omega)

/-- But for `fs_truncate`, the image is well-formed at every write. -/
theorem Ends.along (ht : ∀ path len, op ≠ .truncate path len) : Along Image.put Image.WF img ws := by
  cases he with
  | create he => exact he.along h (Image.makes_newFile h hop)
  | mkdir he => exact he.along h (Image.makes_newDir h hop)
  | unlink he => exact he.along h hop unlinkCheck_leaf
  | rmdir he => exact he.along h hop rmdirCheck_leaf
  | rename he => exact he.along h hop
  | chmod he => exact he.along h (Image.chmod_keeps _)
  | utime he => exact he.along h (Image.utime_keeps _)
  | truncate => exact absurd rfl (ht _ _)
  | write he => exact he.along h (by have := hop.2; omega)

/-- The image is well-formed after the call. -/
theorem Ends.wf : (img.puts ws).WF := by
  by_cases ht : ∃ path len, op = .truncate path len
  · obtain ⟨path, len, rfl⟩ := ht
    cases he with
    | truncate he => exact he.wf h
  · exact (Ends.along h hop he fun path len h => ht ⟨path, len, h⟩).last

end Op

section Exec

variable {s : FsState} {env : Env} {op : Op}

/-- A call that writes ends as it should. -/
theorem exec_run (h : s.WF) (hop : op.Ok s.img) {r : Res Out} {ws : List Write}
    (he : op.Ends env s.img r ws) : (op.exec env).run s = (r, s.wrote ws) := by
  cases he with
  | create he => exact map_run _ (fsCreate_run h he)
  | mkdir he => exact map_run _ (fsMkdir_run h he)
  | unlink he => exact map_run _ (fsUnlink_run h hop he)
  | rmdir he => exact map_run _ (fsRmdir_run h hop he)
  | rename he => exact map_run _ (fsRename_run h hop he)
  | chmod he => exact map_run _ (fsChmod_run h he)
  | utime he => exact map_run _ (fsUtime_run h he)
  | truncate he => exact map_run _ (fsTruncate_run h he)
  | write he => exact map_run _ (fsWrite_run h (by have := hop.2; omega) he)

end Exec

/-! ## Calls that only read -/

/-- The call does not change the state. -/
def FsM.Reads {α : Type} (x : FsM α) : Prop := ∀ s, (x.run s).2 = s

/-- The call does not change the state, nor does it run into the assertion of `block_write`. -/
def FsM.Idle {α : Type} (x : FsM α) : Prop :=
  ∀ s, (x.run s).2 = s ∧ (x.run s).1 ≠ .fault .assertion

section Idle

variable {α β : Type} {x : FsM α}

theorem idle_pure (a : α) : (pure a : FsM α).Idle := fun _ => ⟨rfl, nofun⟩

theorem idle_err (e : Errno) : (err e : FsM α).Idle := fun _ => ⟨rfl, nofun⟩

theorem idle_fault {t : Fault} (h : t ≠ .assertion) : (fault t : FsM α).Idle :=
  fun _ => ⟨rfl, fun he => h (Res.fault.inj he)⟩

theorem idle_get : FsM.get.Idle := fun _ => ⟨rfl, nofun⟩

theorem FsM.Idle.bind {f : α → FsM β} (hx : x.Idle) (hf : ∀ a, (f a).Idle) : (x >>= f).Idle := by
  intro s
  obtain ⟨hs, hr⟩ := hx s
  rw [bind_run]
  rcases hrun : x.run s with ⟨r, s'⟩
  rw [hrun] at hs hr
  subst hs
  cases r with
  | ok a => exact hf a _
  | err e => exact ⟨rfl, nofun⟩
  | fault t => exact ⟨rfl, fun he => hr (congrArg Res.fault (Res.fault.inj he))⟩

theorem FsM.Idle.attempt (hx : x.Idle) : x.attempt.Idle := by
  intro s
  obtain ⟨hs, hr⟩ := hx s
  simp only [FsM.attempt]
  rcases hrun : x.run s with ⟨r, s'⟩
  rw [hrun] at hs hr
  subst hs
  cases r with
  | ok a => exact ⟨rfl, by simp⟩
  | err e => exact ⟨rfl, by simp⟩
  | fault t => exact ⟨rfl, fun he => hr (congrArg Res.fault (Res.fault.inj he))⟩

theorem idle_failIf (c : Bool) (e : Errno) : (failIf c e).Idle := by
  rw [failIf]
  split_ifs
  · exact idle_err e
  · exact idle_pure ()

theorem idle_blockRead (b : ℤ) : (blockRead b).Idle := by
  intro s
  simp only [blockRead]
  split_ifs <;> exact ⟨rfl, by simp⟩

theorem idle_readInode (i : ℕ) : (readInode i).Idle :=
  (idle_blockRead i).bind fun _ => idle_pure _

theorem idle_readDir (p : UInt32) : (readDir p).Idle :=
  (idle_blockRead _).bind fun _ => idle_pure _

theorem idle_ptr (x : FsInode) (i : ℤ) : (x.ptr i).Idle := by
  rw [FsInode.ptr]
  split_ifs
  · exact idle_pure _
  · exact idle_fault (by simp)

theorem idle_inodeToStat (x : FsInode) : (inodeToStat x).Idle := by
  refine FsM.Idle.bind ?_ fun _ => idle_pure _
  rw [nblocksOf]
  split_ifs
  · exact idle_fault (by decide)
  · exact idle_pure _

theorem idle_walkFrom (i : ℕ) (cs : List (List UInt8)) : (walkFrom i cs).Idle := by
  induction cs generalizing i with
  | nil => exact idle_pure i
  | cons c cs ih =>
    refine (idle_readInode i).bind fun x => (idle_failIf _ _).bind fun _ =>
      (idle_readDir _).bind fun dir => ?_
    split
    · exact idle_err _
    · exact ih _

theorem idle_translate (path : List UInt8) : (Cs5600.translate path).Idle := by
  rw [Cs5600.translate]
  split_ifs
  · exact idle_pure _
  · exact idle_walkFrom _ _

theorem idle_readdirLoop (dir : DirBlock) (filler : Calls → Bool) (calls : Calls)
    (ks : List (Fin 128)) : (readdirLoop dir filler calls ks).Idle := by
  induction ks generalizing calls with
  | nil => exact idle_pure _
  | cons k ks ih =>
    rw [readdirLoop]
    split_ifs
    · refine (idle_readInode _).attempt.bind fun x => ?_
      split
      · exact ih _
      · refine (idle_inodeToStat _).bind fun st => ?_
        simp only []
        split_ifs
        · exact idle_pure _
        · exact ih _
    · exact ih _

theorem idle_readLoop (x : FsInode) (len : ℕ) (start : ℤ) (boff : Fin 4096) :
    (readLoop x len start boff).Idle := by
  induction len using Nat.strong_induction_on generalizing start boff with
  | _ len ih =>
    rw [readLoop]
    split_ifs with hlen
    · exact idle_pure _
    · exact (idle_ptr _ _).bind fun blk => (idle_blockRead _).bind fun b =>
        (ih _ (by omega) _ _).bind fun _ => idle_pure _

theorem idle_readFile (x : FsInode) (len : ℕ) (offset : ℤ) : (readFile x len offset).Idle := by
  simp only [readFile]
  split_ifs
  · exact idle_pure _
  · exact idle_fault (by decide)
  · exact idle_readLoop _ _ _ _
  · exact idle_fault (by decide)
  · exact idle_readLoop _ _ _ _

theorem FsM.Idle.map (hx : x.Idle) (f : α → β) : (f <$> x).Idle := hx.bind fun _ => idle_pure _

theorem exec_idle {env : Env} {op : Op} (hm : ¬op.Modifies) : (op.exec env).Idle := by
  cases op with
  | getattr path =>
    exact ((idle_translate _).bind fun _ => (idle_readInode _).bind fun _ =>
      idle_inodeToStat _).map _
  | readdir path filler =>
    exact ((idle_translate _).bind fun _ => (idle_readInode _).bind fun _ =>
      (idle_failIf _ _).bind fun _ => (idle_readDir _).bind fun _ =>
        idle_readdirLoop _ _ _ _).map _
  | read path len offset =>
    exact ((idle_translate _).bind fun _ => (idle_readInode _).bind fun _ =>
      (idle_failIf _ _).bind fun _ => idle_readFile _ _ _).map _
  | statfs =>
    refine (idle_get.bind fun s => ?_).map _
    simp only []
    split_ifs
    · exact idle_fault (by decide)
    · exact idle_pure _
  | _ => exact absurd trivial hm

/-- A call that does not write does not change the state. -/
theorem exec_reads {env : Env} {op : Op} (hm : ¬op.Modifies) : (op.exec env).Reads :=
  fun s => (exec_idle hm s).1

end Idle

/-! ## Reachable states -/

/-- The states of runs from `s`. -/
inductive Reachable (s : FsState) : FsState → Prop
  | init : Reachable s s
  | call {s' : FsState} (env : Env) (op : Op) : Reachable s s' → op.Ok s'.img →
      Reachable s ((op.exec env).run s').2

/-- A call keeps the state well-formed. -/
theorem exec_wf {s : FsState} (h : s.WF) (env : Env) {op : Op} (hop : op.Ok s.img) :
    ((op.exec env).run s).2.WF := by
  by_cases hm : op.Modifies
  · obtain ⟨r, ws, he⟩ := Op.exists_ends env hm hop
    rw [exec_run h hop he]
    exact h.wrote (he.writable h.img hop) (he.wf h.img hop)
  · rw [exec_reads hm]
    exact h

theorem Reachable.wf {s s' : FsState} (h : s.WF) (hs : Reachable s s') : s'.WF := by
  induction hs with
  | init => exact h
  | call env op _ hop ih => exact exec_wf ih env hop

/-- Every state of a run is well-formed, and there no call that writes runs into a fault. -/
theorem reachable_wf {s s' : FsState} (h : s.WF) (hs : Reachable s s') :
    s'.WF ∧ ∀ (env : Env) (op : Op), op.Modifies → op.Ok s'.img →
      ∀ t, ((op.exec env).run s').1 ≠ .fault t := by
  refine ⟨hs.wf h, fun env op hm hop t => ?_⟩
  obtain ⟨r, ws, he⟩ := Op.exists_ends env hm hop
  rw [exec_run (hs.wf h) hop he]
  exact he.ne_fault t

/-- A run that makes a file in an empty file system. -/
theorem reachable_wf_create :
    (((Op.create ⟨[slash, 97], rfl, by decide, by decide⟩ 0o100644).exec ⟨500, 500, 0⟩).run
      (.mount (.format 8))).2.WF :=
  (reachable_wf (FsState.mount_wf (Image.format_wf (by decide) (by decide)))
    (.call ⟨500, 500, 0⟩ (.create ⟨[slash, 97], rfl, by decide, by decide⟩ 0o100644) .init
      (show RegMode _ from rfl))).1

end Cs5600
