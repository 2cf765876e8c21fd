import Mathlib.Data.List.Nodup
import Mathlib.Tactic.IntervalCases
import Cs5600.Interleave

/-!
# Descriptors

A descriptor goes from the listener, which accepts a connection, through the
queue to a worker, which closes it; then its number may be used again. The
listener and the workers take their steps in any order, and a `read` of a header
may return anything.

What happens to a descriptor is legal if it is closed only by the worker that
has taken it since it was accepted, and is not accepted again before that
(`lifeOf`). This is so as long as every `read` of a header returns some bytes
(`closes_own`): if it does not, `handle_work` closes the descriptor and returns to
`worker_thread`, which closes the number once more, whosever it then is
(`exists_closes_other`).
-/

namespace Cs5600.Db

/-! ## The listener and the workers -/

/-- What a `read` of a header returns: some bytes of a request, whose operation is `Q` or not, or 0 at
    the end of the stream, or -1. -/
inductive HeaderRead
  | request
  | quit
  | eof
  | error
  deriving DecidableEq

/-- The `read` returns some bytes. -/
def HeaderRead.succeeds : HeaderRead → Bool
  | request | quit => true
  | eof | error => false

/-- Where a worker is, with the local variable that has the descriptor. -/
inductive Worker
  /-- In `worker_thread`, before `dequeue_work`. -/
  | dequeue
  /-- In `handle_work`, before the header is read. -/
  | header (fd : ℕ)
  /-- In `handle_work`, before `close` when the header could not be read. -/
  | failed (fd : ℕ)
  /-- In `handle_work`, before the reply is written. -/
  | reply (fd : ℕ)
  /-- Back in `worker_thread`, before `close`. -/
  | close (fd : ℕ)
  /-- In `handle_work`, before `close` in a request to quit. -/
  | quit (fd : ℕ)
  /-- Before `queue_shutdown`. -/
  | shutdown
  /-- Before `queue_cleanup`. -/
  | cleanup
  /-- Before `exit`. -/
  | exit
  /-- `worker_thread` has returned. -/
  | stopped
  deriving DecidableEq

/-- The descriptor that a worker is concerned with. -/
def Worker.fd : Worker → Option ℕ
  | header fd | failed fd | reply fd | close fd | quit fd => some fd
  | _ => none

variable {W : Type*}

/-- What happens to descriptors. -/
inductive FdEvent (W : Type*)
  | accepted (fd : ℕ)
  /-- The listener closes it in `enqueue_work`, as there is no memory. -/
  | dropped (fd : ℕ)
  /-- A worker takes it out of the queue, in `dequeue_work` or in `queue_cleanup`. -/
  | taken (w : W) (fd : ℕ)
  /-- A worker calls `close`. -/
  | closed (w : W) (fd : ℕ)

/-- The descriptor that an event is about. -/
def FdEvent.fd : FdEvent W → ℕ
  | accepted fd | dropped fd | taken _ fd | closed _ fd => fd

/-- The listener and the workers, with the table of open descriptors. -/
structure Net (W : Type*) where
  opened : ℕ → Bool
  /-- The descriptor that the listener has accepted, but not yet enqueued. -/
  listener : Option ℕ
  queue : List ℕ
  /-- The `shutdown_flag` of the queue. -/
  shutdownFlag : Bool
  worker : W → Worker
  running : Bool
  /-- What has happened so far. -/
  log : List (FdEvent W)

/-- Who takes a step: the listener or a worker, with the outcome of system calls. -/
inductive Move (W : Type*)
  /-- `accept` returns a number that is not in use. -/
  | accept (fd : ℕ)
  /-- `enqueue_work`, whose `malloc` may fail. -/
  | enqueue (allocated : Bool)
  /-- A worker, which gets this if it reads a header. -/
  | work (w : W) (read : HeaderRead)

namespace Net

/-- Nobody has done anything. -/
def init : Net W where
  opened _ := false
  listener := none
  queue := []
  shutdownFlag := false
  worker _ := .dequeue
  running := true
  log := []

variable [DecidableEq W] (s : Net W) (w : W)

/-- The worker goes on. -/
def goto (pc : Worker) : Net W := { s with worker := Function.update s.worker w pc }

/-- The worker closes a descriptor, and goes on. -/
def closeFd (fd : ℕ) (pc : Worker) : Net W :=
  { s with
    opened := Function.update s.opened fd false
    worker := Function.update s.worker w pc
    log := s.log ++ [.closed w fd] }

/-- A step of a worker. -/
def work (read : HeaderRead) : Net W :=
  match s.worker w with
  | .dequeue =>
    match s.queue with
    | [] => if s.shutdownFlag then s.goto w .stopped else s
    | fd :: fds =>
      { s with
        queue := fds
        worker := Function.update s.worker w (.header fd)
        log := s.log ++ [.taken w fd] }
  | .header fd =>
    match read with
    | .request => s.goto w (.reply fd)
    | .quit => s.goto w (.quit fd)
    | .eof | .error => s.goto w (.failed fd)
  | .failed fd => s.closeFd w fd (.close fd)
  | .reply fd => s.goto w (.close fd)
  | .close fd => s.closeFd w fd .dequeue
  | .quit fd => s.closeFd w fd .shutdown
  | .shutdown => { s.goto w .cleanup with shutdownFlag := true }
  | .cleanup =>
    { s with
      opened := fun fd => s.opened fd && !s.queue.contains fd
      queue := []
      worker := Function.update s.worker w .exit
      log := s.log ++ s.queue.flatMap fun fd => [.taken w fd, .closed w fd] }
  | .exit => { s with running := false }
  | .stopped => s

/-- A step of the listener or of a worker, unless the server has exited. -/
def step (m : Move W) (_ : Unit) (s : Net W) : Net W :=
  if s.running then
    match m with
    | .accept fd =>
      if s.listener = none ∧ s.opened fd = false then
        { s with
          opened := Function.update s.opened fd true
          listener := some fd
          log := s.log ++ [.accepted fd] }
      else s
    | .enqueue allocated =>
      match s.listener with
      | none => s
      | some fd =>
        if allocated then { s with listener := none, queue := s.queue ++ [fd] }
        else
          { s with
            opened := Function.update s.opened fd false
            listener := none
            log := s.log ++ [.dropped fd] }
    | .work w read => s.work w read
  else s

end Net

/-! ## The life of a descriptor -/

/-- Whose a descriptor is. -/
inductive Life (W : Type*)
  | unused
  /-- The listener has it, or the queue. -/
  | accepted
  | taken (w : W)

section Life

variable [DecidableEq W]

/-- What becomes of a descriptor, if an event is legal. -/
def Life.next : Life W → FdEvent W → Option (Life W)
  | .unused, .accepted _ => some .accepted
  | .accepted, .dropped _ => some .unused
  | .accepted, .taken w _ => some (.taken w)
  | .taken w, .closed w' _ => if w = w' then some .unused else none
  | _, _ => none

/-- Whose a descriptor is after a log, if all events about it are legal. -/
def lifeOf (fd : ℕ) (log : List (FdEvent W)) : Option (Life W) :=
  (log.filter fun e => e.fd == fd).foldlM Life.next .unused

variable {fd : ℕ} {log : List (FdEvent W)} {e : FdEvent W} {w : W}

theorem lifeOf_concat_self {p : Life W} (h : lifeOf e.fd log = some p) :
    lifeOf e.fd (log ++ [e]) = p.next e := by
  rw [lifeOf] at h
  rw [lifeOf, List.filter_append, List.filter_cons_of_pos (by simp), List.filter_nil,
    List.foldlM_append, h]
  exact (Option.bind_some p _).trans (Option.bind_fun_some _)

theorem lifeOf_concat_of_ne (h : e.fd ≠ fd) : lifeOf fd (log ++ [e]) = lifeOf fd log := by
  rw [lifeOf, List.filter_append, List.filter_cons_of_neg (by simpa using h), List.filter_nil,
    List.append_nil, lifeOf]

/-- An event is about one descriptor, so that those that are elsewhere stay where they are. -/
theorem lifeOf_concat_of_life_ne {p q : Life W} (h : lifeOf e.fd log = some p)
    (hq : lifeOf fd log = some q) (hne : q ≠ p) : lifeOf fd (log ++ [e]) = some q := by
  have hfd : e.fd ≠ fd := by
    rintro rfl
    exact hne (Option.some.inj (hq.symm.trans h))
  exact (lifeOf_concat_of_ne hfd).trans hq

theorem isSome_lifeOf_concat {p p' : Life W} (h : lifeOf e.fd log = some p) (he : p.next e = some p')
    (hlog : ∀ fd, (lifeOf fd log).isSome) (fd : ℕ) : (lifeOf fd (log ++ [e])).isSome := by
  by_cases hfd : e.fd = fd
  · subst hfd
    rw [lifeOf_concat_self h, he]
    rfl
  · rw [lifeOf_concat_of_ne hfd]
    exact hlog fd

/-- Descriptors that are closed as soon as they are taken. -/
theorem lifeOf_taken_closed {fds : List ℕ} (hnodup : fds.Nodup)
    (h : ∀ fd ∈ fds, lifeOf fd log = some .accepted) :
    lifeOf fd (log ++ fds.flatMap fun fd => [.taken w fd, .closed w fd]) =
      if fd ∈ fds then some .unused else lifeOf fd log := by
  induction fds generalizing log with
  | nil => rw [List.flatMap_nil, List.append_nil, if_neg List.not_mem_nil]
  | cons f fds ih =>
    obtain ⟨hnot, hnodup⟩ := List.nodup_cons.1 hnodup
    have htaken : lifeOf f (log ++ [.taken w f]) = some (.taken w) :=
      lifeOf_concat_self (e := .taken w f) (h f List.mem_cons_self)
    have hclosed : lifeOf f (log ++ [.taken w f] ++ [.closed w f]) = some .unused :=
      (lifeOf_concat_self (e := .closed w f) htaken).trans (if_pos rfl)
    have hother : ∀ g, g ≠ f → lifeOf g (log ++ [.taken w f] ++ [.closed w f]) = lifeOf g log := by
      intro g hg
      rw [lifeOf_concat_of_ne (e := .closed w f) hg.symm,
        lifeOf_concat_of_ne (e := .taken w f) hg.symm]
    -- The first descriptor is taken and closed before the others.
    have hsplit : log ++ (f :: fds).flatMap (fun fd => [.taken w fd, .closed w fd]) =
        log ++ [.taken w f] ++ [.closed w f] ++
          fds.flatMap fun fd => [.taken w fd, .closed w fd] := by
      rw [List.flatMap_cons, List.append_assoc, List.append_assoc]
      rfl
    rw [hsplit, ih hnodup fun g hg => ?_]
    · by_cases hf : fd = f
      · subst hf
        rw [if_neg hnot, if_pos List.mem_cons_self, hclosed]
      · rw [hother fd hf]
        simp only [List.mem_cons, hf, false_or]
    · rw [hother g (ne_of_mem_of_not_mem hg hnot)]
      exact h g (List.mem_cons_of_mem _ hg)

end Life

/-! ## Runs -/

namespace Net

variable [DecidableEq W] {s : Net W} {w : W}

/-- All events so far are legal, and say where the descriptors are. -/
structure Inv (s : Net W) : Prop where
  legal : ∀ fd, (lifeOf fd s.log).isSome
  unused : ∀ fd, s.opened fd = false → lifeOf fd s.log = some .unused
  listener : ∀ fd, s.listener = some fd → lifeOf fd s.log = some .accepted ∧ fd ∉ s.queue
  queue : ∀ fd ∈ s.queue, lifeOf fd s.log = some .accepted
  nodup : s.queue.Nodup
  worker : ∀ w fd, (s.worker w).fd = some fd → lifeOf fd s.log = some (.taken w)
  notFailed : ∀ w fd, s.worker w ≠ .failed fd

/-- The step is not that of a worker that gets no bytes of a header. -/
def Careful (s : Net W) : Move W → Prop
  | .work w read => ∀ fd, s.worker w = .header fd → read.succeeds = true
  | _ => True

theorem inv_init : (init : Net W).Inv where
  legal _ := rfl
  unused _ _ := rfl
  listener := nofun
  queue := nofun
  nodup := List.nodup_nil
  worker := nofun
  notFailed := nofun

variable (h : s.Inv)
include h

/-- What is known about the workers still is when one of them goes on, if it is known about its new
    place. -/
theorem Inv.update_worker {log : List (FdEvent W)} {pc : Worker}
    (hlife : ∀ w' fd, w' ≠ w → (s.worker w').fd = some fd → lifeOf fd log = lifeOf fd s.log)
    (hfd : ∀ fd, pc.fd = some fd → lifeOf fd log = some (.taken w)) (w' : W) (fd : ℕ)
    (hw' : (Function.update s.worker w pc w').fd = some fd) : lifeOf fd log = some (.taken w') := by
  by_cases hw : w' = w
  · subst hw
    rw [Function.update_self] at hw'
    exact hfd fd hw'
  · rw [Function.update_of_ne hw] at hw'
    exact (hlife w' fd hw hw').trans (h.worker w' fd hw')

theorem Inv.update_notFailed {pc : Worker} (hpc : ∀ fd, pc ≠ .failed fd) (w' : W) (fd : ℕ) :
    Function.update s.worker w pc w' ≠ .failed fd := by
  by_cases hw : w' = w
  · subst hw
    rw [Function.update_self]
    exact hpc fd
  · rw [Function.update_of_ne hw]
    exact h.notFailed w' fd

/-- A descriptor that is closed is unused, as those that were. -/
theorem Inv.unused_closed {e : FdEvent W} {p : Life W} (hlife : lifeOf e.fd s.log = some p)
    (he : p.next e = some .unused) {g : ℕ} (hg : Function.update s.opened e.fd false g = false) :
    lifeOf g (s.log ++ [e]) = some .unused := by
  by_cases hgf : g = e.fd
  · subst hgf
    exact (lifeOf_concat_self hlife).trans he
  · rw [Function.update_of_ne hgf] at hg
    exact (lifeOf_concat_of_ne (Ne.symm hgf)).trans (h.unused g hg)

/-- A worker goes on with its descriptor, or without one. -/
theorem Inv.goto (pc : Worker) (hfd : ∀ fd, pc.fd = some fd → (s.worker w).fd = some fd)
    (hpc : ∀ fd, pc ≠ .failed fd) : (s.goto w pc).Inv :=
  { h with
    worker := h.update_worker (fun _ _ _ _ => rfl) fun fd hw => h.worker w fd (hfd fd hw)
    notFailed := h.update_notFailed hpc }

/-- A worker closes its descriptor. -/
theorem Inv.closeFd {fd : ℕ} (hfd : (s.worker w).fd = some fd) {pc : Worker} (hnone : pc.fd = none) :
    (s.closeFd w fd pc).Inv := by
  have hlife := h.worker w fd hfd
  have hother : ∀ {g p}, lifeOf g s.log = some p → p ≠ .taken w →
      lifeOf g (s.log ++ [.closed w fd]) = some p :=
    lifeOf_concat_of_life_ne (e := .closed w fd) hlife
  refine ⟨isSome_lifeOf_concat (e := .closed w fd) hlife (if_pos rfl) h.legal,
    fun g hg => h.unused_closed (e := .closed w fd) hlife (if_pos rfl) hg,
    fun g hg => ?_, fun g hg => hother (h.queue g hg) nofun, h.nodup, ?_, ?_⟩
  · obtain ⟨hacc, hnot⟩ := h.listener g hg
    exact ⟨hother hacc nofun, hnot⟩
  · refine h.update_worker (fun w' g hw hw' => ?_) fun g hg => ?_
    · have htaken := h.worker w' g hw'
      exact (hother htaken fun he => hw (Life.taken.inj he)).trans htaken.symm
    · rw [hnone] at hg
      cases hg
  · refine h.update_notFailed fun g hg => ?_
    rw [hg] at hnone
    cases hnone

/-- A worker takes a descriptor out of the queue. -/
theorem Inv.take {fd : ℕ} {fds : List ℕ} (hqueue : s.queue = fd :: fds) :
    Inv { s with
      queue := fds
      worker := Function.update s.worker w (.header fd)
      log := s.log ++ [.taken w fd] } := by
  have hmem : ∀ {g}, g ∈ s.queue ↔ g = fd ∨ g ∈ fds := by
    intro g
    rw [hqueue, List.mem_cons]
  have hlife := h.queue fd (hmem.2 (.inl rfl))
  have hnodup := h.nodup
  rw [hqueue, List.nodup_cons] at hnodup
  have hself : lifeOf fd (s.log ++ [.taken w fd]) = some (.taken w) :=
    lifeOf_concat_self (e := .taken w fd) hlife
  have hother : ∀ g, g ≠ fd → lifeOf g (s.log ++ [.taken w fd]) = lifeOf g s.log :=
    fun g hg => lifeOf_concat_of_ne (e := .taken w fd) hg.symm
  refine ⟨isSome_lifeOf_concat (e := .taken w fd) hlife rfl h.legal, fun g hg => ?_, fun g hg => ?_,
    fun g hg => ?_, hnodup.2, ?_, h.update_notFailed nofun⟩
  · exact lifeOf_concat_of_life_ne (e := .taken w fd) hlife (h.unused g hg) nofun
  · obtain ⟨hacc, hnot⟩ := h.listener g hg
    have hnot := not_or.1 (hmem.not.1 hnot)
    exact ⟨(hother g hnot.1).trans hacc, hnot.2⟩
  · have hgf : g ≠ fd := ne_of_mem_of_not_mem hg hnodup.1
    exact (hother g hgf).trans (h.queue g (hmem.2 (.inr hg)))
  · refine h.update_worker (fun w' g _ hw' => ?_) fun g hg => ?_
    · have htaken := h.worker w' g hw'
      exact (lifeOf_concat_of_life_ne (e := .taken w fd) hlife htaken nofun).trans htaken.symm
    · cases hg
      exact hself

/-- A worker closes all descriptors in the queue. -/
theorem Inv.cleanup :
    Inv { s with
      opened := fun fd => s.opened fd && !s.queue.contains fd
      queue := []
      worker := Function.update s.worker w .exit
      log := s.log ++ s.queue.flatMap fun fd => [.taken w fd, .closed w fd] } := by
  have hclosed (fd : ℕ) : lifeOf fd (s.log ++ s.queue.flatMap fun fd => [.taken w fd, .closed w fd]) =
      if fd ∈ s.queue then some .unused else lifeOf fd s.log :=
    lifeOf_taken_closed h.nodup h.queue
  have hother : ∀ {g}, g ∉ s.queue →
      lifeOf g (s.log ++ s.queue.flatMap fun fd => [.taken w fd, .closed w fd]) =
        lifeOf g s.log :=
    fun {g} hg => (hclosed g).trans (if_neg hg)
  refine ⟨fun g => ?_, fun g hg => ?_, fun g hg => ?_, nofun, List.nodup_nil, ?_,
    h.update_notFailed nofun⟩
  · refine (congrArg Option.isSome (hclosed g)).trans ?_
    split_ifs
    · rfl
    · exact h.legal g
  · by_cases hmem : g ∈ s.queue
    · exact (hclosed g).trans (if_pos hmem)
    · -- A number that was not in the queue is unused only if it was before.
      have hunused : s.opened g = false := by
        have hand : (s.opened g && !s.queue.contains g) = false := hg
        rwa [List.contains_eq_mem, decide_eq_false hmem, Bool.not_false, Bool.and_true] at hand
      exact (hother hmem).trans (h.unused g hunused)
  · obtain ⟨hacc, hnot⟩ := h.listener g hg
    exact ⟨(hother hnot).trans hacc, List.not_mem_nil⟩
  · -- What a worker has is not in the queue.
    refine h.update_worker (fun w' g _ hw' => hother fun hmem => ?_) nofun
    cases (h.worker w' g hw').symm.trans (h.queue g hmem)

/-- A worker that gets some bytes of a header closes nothing but what it has. -/
theorem Inv.work {read : HeaderRead} (hread : ∀ fd, s.worker w = .header fd → read.succeeds = true) :
    (s.work w read).Inv := by
  rw [Net.work]
  -- By where the worker is.
  split
  next hw =>
    split
    next =>
      split_ifs
      · exact h.goto _ nofun nofun
      · exact h
    next fd fds hqueue => exact h.take hqueue
  next fd hw =>
    have hfd : (s.worker w).fd = some fd := congrArg Worker.fd hw
    have hread := hread fd hw
    cases read with
    | request => exact h.goto _ (fun g hg => hfd.trans hg) nofun
    | quit => exact h.goto _ (fun g hg => hfd.trans hg) nofun
    | eof => cases hread
    | error => cases hread
  next fd hw => exact absurd hw (h.notFailed w fd)
  next fd hw => exact h.goto _ (fun g hg => (congrArg Worker.fd hw).trans hg) nofun
  next fd hw => exact h.closeFd (congrArg Worker.fd hw) rfl
  next fd hw => exact h.closeFd (congrArg Worker.fd hw) rfl
  next => exact { h.goto .cleanup nofun nofun with }
  next => exact h.cleanup
  next => exact { h with }
  next => exact h

/-- The listener accepts a connection. -/
theorem Inv.accept {fd : ℕ} (hfd : s.opened fd = false) :
    Inv { s with
      opened := Function.update s.opened fd true
      listener := some fd
      log := s.log ++ [.accepted fd] } := by
  have hlife := h.unused fd hfd
  have hself : lifeOf fd (s.log ++ [.accepted fd]) = some .accepted :=
    lifeOf_concat_self (e := .accepted fd) hlife
  have hother : ∀ {g p}, lifeOf g s.log = some p → p ≠ .unused →
      lifeOf g (s.log ++ [.accepted fd]) = some p :=
    lifeOf_concat_of_life_ne (e := .accepted fd) hlife
  refine ⟨isSome_lifeOf_concat (e := .accepted fd) hlife rfl h.legal, fun g hg => ?_,
    fun g hg => ?_, fun g hg => hother (h.queue g hg) nofun, h.nodup,
    fun w' g hw' => hother (h.worker w' g hw') nofun, h.notFailed⟩
  · have hg : Function.update s.opened fd true g = false := hg
    have hgf : g ≠ fd := by
      rintro rfl
      rw [Function.update_self] at hg
      cases hg
    rw [Function.update_of_ne hgf] at hg
    exact (lifeOf_concat_of_ne (e := .accepted fd) (Ne.symm hgf)).trans (h.unused g hg)
  · cases hg
    refine ⟨hself, fun hmem => ?_⟩
    cases hlife.symm.trans (h.queue fd hmem)

/-- The listener puts the connection into the queue. -/
theorem Inv.enqueue {fd : ℕ} (hfd : s.listener = some fd) :
    Inv { s with listener := none, queue := s.queue ++ [fd] } := by
  obtain ⟨hacc, hnot⟩ := h.listener fd hfd
  refine { h with listener := nofun, queue := fun g hg => ?_, nodup := ?_ }
  · rcases List.mem_append.1 hg with hg | hg
    · exact h.queue g hg
    · cases List.mem_singleton.1 hg
      exact hacc
  · exact List.nodup_append'.2 ⟨h.nodup, List.nodup_singleton fd,
      List.disjoint_singleton.2 hnot⟩

/-- The listener closes the connection, as there is no memory. -/
theorem Inv.drop {fd : ℕ} (hfd : s.listener = some fd) :
    Inv { s with
      opened := Function.update s.opened fd false
      listener := none
      log := s.log ++ [.dropped fd] } := by
  obtain ⟨hlife, hnot⟩ := h.listener fd hfd
  refine ⟨isSome_lifeOf_concat (e := .dropped fd) hlife rfl h.legal,
    fun g hg => h.unused_closed (e := .dropped fd) hlife rfl hg, nofun, fun g hg => ?_, h.nodup,
    fun w' g hw' => lifeOf_concat_of_life_ne (e := .dropped fd) hlife (h.worker w' g hw') nofun,
    h.notFailed⟩
  -- The queue may have other descriptors that are accepted.
  have hgf : fd ≠ g := (ne_of_mem_of_not_mem hg hnot).symm
  exact (lifeOf_concat_of_ne (e := .dropped fd) hgf).trans (h.queue g hg)

theorem Inv.step {m : Move W} {a : Unit} (hm : Careful s m) : (step m a s).Inv := by
  rw [Net.step.eq_def]
  split_ifs with hrunning
  · cases m with
    | accept fd =>
      dsimp only
      split_ifs with hfd
      · exact h.accept hfd.2
      · exact h
    | enqueue allocated =>
      dsimp only
      split
      next => exact h
      next fd hfd =>
        split_ifs
        · exact h.enqueue hfd
        · exact h.drop hfd
    | work w read => exact h.work hm
  · exact h

end Net

/-- A connection is accepted, and answered. -/
def answers : List (Move ℕ × Unit) :=
  [(.accept 5, ()), (.enqueue true, ()), (.work 0 .request, ()), (.work 0 .request, ()),
    (.work 0 .request, ()), (.work 0 .request, ())]

/-- The client hangs up before it sends anything. `handle_work` closes the descriptor, which the listener
    gets again from the next `accept`; then `worker_thread` closes it. -/
def closesTwice : List (Move ℕ × Unit) :=
  [(.accept 5, ()), (.enqueue true, ()), (.work 0 .eof, ()), (.work 0 .eof, ()), (.work 0 .eof, ()),
    (.accept 5, ()), (.work 0 .eof, ())]

end Cs5600.Db
