import Cs5600.Db.Queue

/-!
# Shutting down

The threads of the server when it quits. `main` sets a flag, closes the socket that
the listener accepts connections on, and calls `queue_shutdown` and
`queue_cleanup`; the listener returns when it sees the flag, and a worker when
`dequeue_work` returns -1. The functions of the queue are those of `queue.c`, with
their critical sections as steps.

When all of them have returned, a connection has been handled by a worker, closed by
`queue_cleanup`, or refused by `enqueue_work`, or it is still in the queue
(`Inv.perm`). There it is if the listener puts it there when all workers have
returned and `queue_cleanup` has been called, and only then
(`quit_strandsNothing`): `enqueue_work` does not look at the flag.
-/

namespace Cs5600.Db

/-! ## Where connections go -/

/-- The descriptor that `enqueue_work` closes, as there is no memory. -/
def Event.refused : Event → Option ℕ
  | dropped sockFd => some sockFd
  | _ => none

/-- The descriptor that `dequeue_work` returns. -/
def Event.handedOver : Event → Option ℕ
  | returned v => v.toNat?
  | _ => none

/-- The descriptor that `queue_cleanup` closes. -/
def Event.cleaned : Event → Option ℕ
  | closed sockFd => some sockFd
  | _ => none

/-- What is removed from the queue goes to a worker, or is closed. -/
theorem Event.perm_removed (log : List Event) : (log.filterMap removed).Perm
    (log.filterMap handedOver ++ log.filterMap cleaned) := by
  induction log with
  | nil => exact .nil
  | cons e log ih =>
    cases e with
    | dropped sockFd => exact ih
    | enqueued sockFd => exact ih
    | returned v =>
      cases hv : v.toNat? with
      | none => simpa only [List.filterMap_cons, removed, handedOver, cleaned, hv] using ih
      | some fd =>
        simpa only [List.filterMap_cons, removed, handedOver, cleaned, hv, List.cons_append] using
          ih.cons fd
    | closed sockFd => exact (ih.cons sockFd).trans List.perm_middle.symm

theorem Event.filterMap_concat_of_none {f : Event → Option ℕ} {e : Event} (hf : f e = none)
    (log : List Event) : (log ++ [e]).filterMap f = log.filterMap f := by
  rw [List.filterMap_append, List.filterMap_cons_none hf, List.filterMap_nil, List.append_nil]

theorem Event.filterMap_concat_of_some {f : Event → Option ℕ} {e : Event} {fd : ℕ}
    (hf : f e = some fd) (log : List Event) :
    (log ++ [e]).filterMap f = log.filterMap f ++ [fd] := by
  rw [List.filterMap_append, List.filterMap_cons_some hf, List.filterMap_nil]

namespace Shutdown

variable {W : Type*}

/-! ## The threads -/

/-- The threads of the server. -/
inductive Thread (W : Type*)
  | listener
  | worker (w : W)
  | main
  deriving DecidableEq

/-- Where `listener_thread` is. -/
inductive Listener
  /-- Before it opens its socket. -/
  | start
  /-- Before it looks at the flag. -/
  | loop
  | accept
  /-- Before it looks at the flag as `accept` has failed. -/
  | failed
  /-- In `enqueue_work`, before `malloc`. -/
  | malloc (fd : ℕ)
  /-- In `enqueue_work`, before the critical section. -/
  | enqueue (fd : ℕ)
  /-- Before it closes its socket. -/
  | close
  | returned

/-- The descriptor that the listener has accepted, but not yet enqueued. -/
def Listener.fd : Listener → Option ℕ
  | malloc fd | enqueue fd => some fd
  | _ => none

/-- Where a worker is. -/
inductive Worker
  | dequeue
  | handle (fd : ℕ)
  /-- In a request to quit, before `queue_shutdown`. -/
  | shutdown
  /-- In a request to quit, before `queue_cleanup`. -/
  | cleanup
  | exit
  | returned
  deriving DecidableEq

/-- Where `main` is. -/
inductive Main
  | commands
  /-- Before it closes the socket of the listener. -/
  | close
  /-- Before `queue_shutdown`. -/
  | shutdown
  /-- Before `queue_cleanup`. -/
  | cleanup
  /-- It has done all that `quit` says. -/
  | done
  deriving DecidableEq

/-- The server, with what has happened to connections. -/
structure State (W : Type*) where
  /-- The queue, and the threads that use it. -/
  pool : Threads (Thread W)
  listener : Listener
  worker : W → Worker
  main : Main
  /-- The `shutdown_flag` of `dbserver.c`, which is not that of the queue. -/
  shutdownFlag : Bool
  /-- Whether no thread has called `exit`. -/
  running : Bool
  /-- The descriptors that `accept` has returned. -/
  accepted : List ℕ
  /-- The descriptors that `dequeue_work` has returned, and to whom. -/
  taken : List (W × ℕ)
  /-- The descriptors that workers have handled. -/
  handled : List (W × ℕ)

/-- Who takes a step. -/
inductive Move (W : Type*)
  /-- The listener, with what `accept` or `malloc` returns if it calls them, or whether it can
      open its socket. -/
  | listener (result : Option ℕ)
  /-- A worker, which may handle a request to quit. -/
  | worker (w : W) (quits : Bool)
  | main

namespace State

/-- Before anyone has done anything. -/
def init : State W where
  pool := .init
  listener := .start
  worker _ := .dequeue
  main := .commands
  shutdownFlag := false
  running := true
  accepted := []
  taken := []
  handled := []

variable [DecidableEq W] (s : State W)

/-- A step of the listener. -/
def listen (result : Option ℕ) : State W :=
  match s.listener with
  | .start =>
    match result with
    | none => { s with running := false }
    | some _ => { s with listener := .loop }
  | .loop => { s with listener := if s.shutdownFlag then .close else .accept }
  | .accept =>
    -- It may fail at any time, but also return a connection when the socket has just been closed.
    match result with
    | none => { s with listener := .failed }
    | some fd => { s with listener := .malloc fd, accepted := s.accepted ++ [fd] }
  | .failed => { s with listener := if s.shutdownFlag then .close else .loop }
  | .malloc fd =>
    match result with
    | none => { s with pool := s.pool.step .listener (.malloc fd none), listener := .loop }
    | some item =>
      if s.pool.queue.memory.lookup item = none then
        { s with pool := s.pool.step .listener (.malloc fd (some item)), listener := .enqueue fd }
      else s
  | .enqueue _ => { s with pool := s.pool.step .listener .enqueue, listener := .loop }
  | .close => { s with listener := .returned }
  | .returned => s

variable (w : W)

/-- The worker goes on. -/
def goto (pc : Worker) : State W := { s with worker := Function.update s.worker w pc }

/-- A step of a worker. -/
def work (quits : Bool) : State W :=
  match s.worker w with
  | .dequeue =>
    match s.pool.queue.dequeueWork with
    | some (.returns v, _) =>
      if v = -1 then { s.goto w .returned with pool := s.pool.step (.worker w) .dequeue }
      else
        { s.goto w (.handle v.toNat) with
          pool := s.pool.step (.worker w) .dequeue
          taken := s.taken ++ [(w, v.toNat)] }
    | _ => { s with pool := s.pool.step (.worker w) .dequeue }
  | .handle fd =>
    if quits then
      { s.goto w .shutdown with shutdownFlag := true, handled := s.handled ++ [(w, fd)] }
    else { s.goto w .dequeue with handled := s.handled ++ [(w, fd)] }
  | .shutdown => { s.goto w .cleanup with pool := s.pool.step (.worker w) .shutdown }
  | .cleanup => { s.goto w .exit with pool := s.pool.step (.worker w) .cleanup }
  | .exit => { s with running := false }
  | .returned => s

/-- A step of `main`, which may get the command `quit` at any time. -/
def mainStep : State W :=
  match s.main with
  | .commands => { s with shutdownFlag := true, main := .close }
  | .close => { s with main := .shutdown }
  | .shutdown => { s with pool := s.pool.step .main .shutdown, main := .cleanup }
  | .cleanup => { s with pool := s.pool.step .main .cleanup, main := .done }
  | .done => s

/-- A step of a thread, unless the server has exited. -/
def step (m : Move W) (_ : Unit) (s : State W) : State W :=
  if s.running then
    match m with
    | .listener result => s.listen result
    | .worker w quits => s.work w quits
    | .main => s.mainStep
  else s

/-! ## What is promised -/

omit [DecidableEq W]

/-- All threads have returned, except `main`, which has done what `quit` says. -/
def Complete (s : State W) : Prop :=
  s.main = .done ∧ s.listener = .returned ∧ ∀ w, s.worker w = .returned

/-- The queue is empty, and every descriptor that was accepted has been handled by a worker or
    closed by `queue_cleanup`. -/
def StrandsNothing (s : State W) : Prop :=
  s.pool.queue.queueHead = none ∧
    s.accepted.Perm (s.handled.map Prod.snd ++ s.pool.log.filterMap Event.cleaned)

/-- The step is not one of the listener that puts a connection into the queue when `main` has called
    `queue_cleanup` and all workers have returned, nor one for which there is no memory. -/
def InTime (s : State W) : Move W → Prop
  | .listener result =>
    match s.listener with
    | .malloc _ => result ≠ none
    | .enqueue _ => ¬ (s.main = .done ∧ ∀ w, s.worker w = .returned)
    | _ => True
  | _ => True

/-- A descriptor has been refused, or nobody will take it out of the queue. -/
def Stranded (s : State W) : Prop :=
  s.pool.log.filterMap Event.refused ≠ [] ∨
    s.main = .done ∧ (∀ w, s.worker w = .returned) ∧ s.pool.queue.queueHead ≠ none

/-! ## Where all connections are -/

variable {s : State W}

/-- What the lists of descriptors, the log of the queue and the places of the threads have to do
    with each other. -/
structure Inv [DecidableEq W] (s : State W) : Prop where
  pool : ∃ items, s.pool.Inv items
  idle : (∀ fd, s.listener ≠ .enqueue fd) → s.pool.item .listener = none
  item : ∀ fd, s.listener = .enqueue fd → ∃ a, s.pool.item .listener = some (a, fd)
  accepted : s.accepted.Perm (s.pool.log.filterMap Event.added ++
    s.pool.log.filterMap Event.refused ++ s.listener.fd.toList)
  taken : s.pool.log.filterMap Event.handedOver = s.taken.map Prod.snd
  handled : ∀ w fd, s.taken.count (w, fd) =
    s.handled.count (w, fd) + if s.worker w = .handle fd then 1 else 0

variable [DecidableEq W]

theorem inv_init : (init : State W).Inv where
  pool := ⟨[], Threads.inv_init⟩
  idle _ := rfl
  item := nofun
  accepted := .nil
  taken := rfl
  handled _ _ := rfl

theorem worker_goto {w w' : W} {pc : Worker} :
    (s.goto w pc).worker w' = if w' = w then pc else s.worker w' := Function.update_apply ..

section Invariant

variable (h : s.Inv)
include h

/-- Nothing changes for connections. -/
theorem Inv.congr {s' : State W} (hpool : s'.pool = s.pool)
    (hlistener : s'.listener = s.listener ∨ s.listener.fd = none ∧ s'.listener.fd = none)
    (haccepted : s'.accepted = s.accepted) (htaken : s'.taken = s.taken)
    (hhandled : s'.handled = s.handled)
    (hworker : ∀ w fd, s'.worker w = .handle fd ↔ s.worker w = .handle fd) : s'.Inv := by
  have hne : ∀ {l : Listener}, l.fd = none → ∀ fd, l ≠ .enqueue fd := by
    rintro _ hl fd rfl
    cases hl
  -- The listener may go on, but only between places where it has no connection in its hands.
  refine ⟨?_, fun hs' => ?_, fun fd hs' => ?_, ?_, ?_, fun w fd => ?_⟩
  · rw [hpool]
    exact h.pool
  · rw [hpool]
    rcases hlistener with hl | ⟨hl, _⟩
    · exact h.idle (hl ▸ hs')
    · exact h.idle (hne hl)
  · rw [hpool]
    rcases hlistener with hl | ⟨_, hl⟩
    · exact h.item fd (hl ▸ hs')
    · exact absurd hs' (hne hl fd)
  · have hfd : s'.listener.fd = s.listener.fd := by
      rcases hlistener with hl | ⟨hl, hl'⟩
      · rw [hl]
      · rw [hl, hl']
    rw [haccepted, hpool, hfd]
    exact h.accepted
  · rw [hpool, htaken]
    exact h.taken
  · rw [htaken, hhandled, h.handled w fd]
    simp only [hworker]

/-- A worker goes on that has nothing to handle. -/
theorem Inv.goto {w : W} {pc : Worker} (hw : ∀ fd, s.worker w ≠ .handle fd)
    (hpc : ∀ fd, pc ≠ .handle fd) : (s.goto w pc).Inv := by
  refine h.congr rfl (.inl rfl) rfl rfl rfl fun w' fd => ?_
  rw [worker_goto]
  split_ifs with hww
  · rw [hww]
    exact iff_of_false (hpc fd) (hw fd)
  · rfl

/-- `queue_shutdown` and `queue_cleanup`. -/
theorem Inv.quitQueue (t : Thread W) {c : QueueStep} (hc : c = .shutdown ∨ c = .cleanup) :
    Inv { s with pool := s.pool.step t c } := by
  obtain ⟨items, hitems⟩ := h.pool
  obtain ⟨items', hitems', _⟩ := hitems.step t c
  -- The log says only what has been closed.
  have hlog : ∃ fds : List ℕ, (s.pool.step t c).log = s.pool.log ++ fds.map Event.closed ∧
      (s.pool.step t c).item = s.pool.item := by
    rcases hc with rfl | rfl
    · exact ⟨[], (List.append_nil _).symm, rfl⟩
    · obtain ⟨q, hq, _⟩ := hitems.holds.queueCleanup
      rw [Threads.step, hq]
      exact ⟨_, rfl, rfl⟩
  obtain ⟨fds, hlog, hitem⟩ := hlog
  have hnone : ∀ f : Event → Option ℕ, (∀ fd, f (.closed fd) = none) →
      (s.pool.step t c).log.filterMap f = s.pool.log.filterMap f := by
    intro f hf
    have hnil : (fds.map Event.closed).filterMap f = [] := by
      rw [List.filterMap_map]
      exact List.filterMap_eq_nil_iff.2 fun fd _ => hf fd
    rw [hlog, List.filterMap_append, hnil, List.append_nil]
  refine ⟨⟨items', hitems'⟩, fun hs => ?_, fun fd hs => ?_, ?_, ?_, h.handled⟩
  · exact (congrFun hitem _).trans (h.idle hs)
  · obtain ⟨a, ha⟩ := h.item fd hs
    exact ⟨a, (congrFun hitem _).trans ha⟩
  · dsimp only
    rw [hnone _ fun _ => rfl, hnone _ fun _ => rfl]
    exact h.accepted
  · exact (hnone _ fun _ => rfl).trans h.taken

/-- A worker takes a connection out of the queue, or returns. -/
theorem Inv.dequeue {w : W} (hw : s.worker w = .dequeue) (quits : Bool) : (s.work w quits).Inv := by
  obtain ⟨items, hitems⟩ := h.pool
  obtain ⟨items', hitems', _⟩ := hitems.step (.worker w) .dequeue
  have hne : ∀ fd, s.worker w ≠ .handle fd := by
    simp [hw]
  have hpool : ∀ {v q}, s.pool.queue.dequeueWork = some (.returns v, q) →
      s.pool.step (.worker w) .dequeue =
        { s.pool with queue := q, log := s.pool.log ++ [.returned v] } := by
    intro v q hq
    rw [Threads.step, hq]
  rcases hitems.holds.dequeueWork with ⟨_, _, hq⟩ | ⟨item, fd, rest, q, _, hq, _⟩
  · cases hflag : s.pool.queue.shutdownFlag with
    | false =>
      -- The worker waits.
      rw [hflag] at hq
      have hstep : s.pool.step (.worker w) .dequeue = s.pool := by
        rw [Threads.step, hq]
        rfl
      rw [work, hw, hq, hstep]
      exact h
    | true =>
      rw [hflag] at hq
      have hstep := hpool hq
      rw [work, hw, hq]
      refine Inv.goto (s := { s with pool := s.pool.step (.worker w) .dequeue }) ?_ hne (by simp)
      rw [hstep] at hitems' ⊢
      refine ⟨⟨items', hitems'⟩, h.idle, h.item, ?_, ?_, h.handled⟩
      · rw [Event.filterMap_concat_of_none rfl, Event.filterMap_concat_of_none rfl]
        exact h.accepted
      · rw [Event.filterMap_concat_of_none rfl]
        exact h.taken
  · have hstep := hpool hq
    have hv : (fd : ℤ) ≠ -1 := by omega
    rw [work, hw, hq]
    dsimp only
    rw [if_neg hv]
    rw [hstep] at hitems' ⊢
    refine ⟨⟨items', hitems'⟩, h.idle, h.item, ?_, ?_, fun w' fd' => ?_⟩
    · dsimp only
      rw [Event.filterMap_concat_of_none rfl, Event.filterMap_concat_of_none rfl]
      exact h.accepted
    · dsimp only
      rw [Event.filterMap_concat_of_some (Int.mem_toNat?.2 rfl), List.map_append, h.taken]
      rfl
    · change (s.taken ++ [(w, fd)]).count (w', fd') = s.handled.count (w', fd') +
        if (s.goto w (.handle fd)).worker w' = .handle fd' then 1 else 0
      rw [List.count_append, h.handled w' fd', worker_goto, List.count_singleton]
      by_cases hww : w' = w
      · subst hww
        simp [hw]
      · simp [hww, Ne.symm hww]

/-- A worker handles what it has taken. -/
theorem Inv.handle {w : W} {fd : ℕ} (hw : s.worker w = .handle fd) (pc : Worker)
    (hpc : ∀ fd, pc ≠ .handle fd) :
    Inv { s.goto w pc with handled := s.handled ++ [(w, fd)] } := by
  refine ⟨h.pool, h.idle, h.item, h.accepted, h.taken, fun w' fd' => ?_⟩
  change s.taken.count (w', fd') = (s.handled ++ [(w, fd)]).count (w', fd') +
    if (s.goto w pc).worker w' = .handle fd' then 1 else 0
  rw [List.count_append, h.handled w' fd', worker_goto, List.count_singleton]
  by_cases hww : w' = w
  · subst hww
    simp [hw, hpc]
  · simp [hww, Ne.symm hww]

theorem Inv.work (w : W) (quits : Bool) : (s.work w quits).Inv := by
  cases hw : s.worker w with
  | dequeue => exact h.dequeue hw quits
  | handle fd =>
    rw [State.work, hw]
    cases quits with
    | true =>
      exact (h.handle hw .shutdown (by simp)).congr rfl (.inl rfl) rfl rfl rfl fun _ _ => Iff.rfl
    | false => exact h.handle hw .dequeue (by simp)
  | shutdown =>
    rw [State.work, hw]
    exact (h.quitQueue (.worker w) (.inl rfl)).goto (by simp [hw]) (by simp)
  | cleanup =>
    rw [State.work, hw]
    exact (h.quitQueue (.worker w) (.inr rfl)).goto (by simp [hw]) (by simp)
  | exit =>
    rw [State.work, hw]
    exact h.congr rfl (.inl rfl) rfl rfl rfl fun _ _ => Iff.rfl
  | returned =>
    rw [State.work, hw]
    exact h

theorem Inv.mainStep : s.mainStep.Inv := by
  rw [State.mainStep]
  cases s.main with
  | commands => exact h.congr rfl (.inl rfl) rfl rfl rfl fun _ _ => Iff.rfl
  | close => exact h.congr rfl (.inl rfl) rfl rfl rfl fun _ _ => Iff.rfl
  | shutdown =>
    exact (h.quitQueue .main (.inl rfl)).congr rfl (.inl rfl) rfl rfl rfl fun _ _ => Iff.rfl
  | cleanup =>
    exact (h.quitQueue .main (.inr rfl)).congr rfl (.inl rfl) rfl rfl rfl fun _ _ => Iff.rfl
  | done => exact h

/-- The listener has a connection. -/
theorem Inv.accept (hs : s.listener = .accept) (fd : ℕ) :
    Inv { s with listener := .malloc fd, accepted := s.accepted ++ [fd] } := by
  have hacc := h.accepted
  rw [hs] at hacc
  refine ⟨h.pool, fun _ => h.idle (by simp [hs]), by simp, ?_, h.taken, h.handled⟩
  have hperm := hacc.append_right [fd]
  simpa only [Listener.fd, Option.toList_none, Option.toList_some, List.append_nil] using hperm

/-- There is no memory for an item. -/
theorem Inv.refuse {fd : ℕ} (hs : s.listener = .malloc fd) :
    Inv { s with pool := s.pool.step .listener (.malloc fd none), listener := .loop } := by
  obtain ⟨items, hitems⟩ := h.pool
  have hidle := h.idle (by simp [hs])
  have hacc := h.accepted
  rw [hs, List.append_assoc] at hacc
  refine ⟨⟨items, (hitems.malloc .listener fd none).1⟩, fun _ => hidle, by simp, ?_, ?_, h.handled⟩
  · dsimp only [Threads.step]
    rw [Event.filterMap_concat_of_none rfl, Event.filterMap_concat_of_some rfl]
    simpa only [Listener.fd, Option.toList_none, Option.toList_some, List.append_nil] using hacc
  · dsimp only [Threads.step]
    rw [Event.filterMap_concat_of_none rfl]
    exact h.taken

/-- There is memory for an item. -/
theorem Inv.malloc {fd item : ℕ} (hs : s.listener = .malloc fd)
    (hitem : s.pool.queue.memory.lookup item = none) :
    Inv { s with
      pool := s.pool.step .listener (.malloc fd (some item)), listener := .enqueue fd } := by
  obtain ⟨items, hitems⟩ := h.pool
  have hidle := h.idle (by simp [hs])
  have hacc := h.accepted
  rw [hs] at hacc
  have hstep : s.pool.step .listener (.malloc fd (some item)) =
      { s.pool with
        queue := s.pool.queue.newItem item fd
        item := Function.update s.pool.item .listener (some (item, fd)) } := by
    rw [Threads.step, if_pos ⟨hidle, hitem⟩]
  have hinv := (hitems.malloc .listener fd (some item)).1
  rw [hstep] at hinv ⊢
  refine ⟨⟨items, hinv⟩, fun hne => absurd rfl (hne fd), ?_, hacc, h.taken, h.handled⟩
  rintro _ ⟨⟩
  refine ⟨item, ?_⟩
  dsimp only
  exact Function.update_self ..

/-- The listener puts a connection into the queue. -/
theorem Inv.enqueue {fd : ℕ} (hs : s.listener = .enqueue fd) :
    Inv { s with pool := s.pool.step .listener .enqueue, listener := .loop } := by
  obtain ⟨items, hitems⟩ := h.pool
  obtain ⟨a, ha⟩ := h.item fd hs
  have hacc := h.accepted
  rw [hs, List.append_assoc] at hacc
  obtain ⟨q, hq, _⟩ :=
    hitems.holds.enqueueItem (hitems.pending.node ha) (hitems.pending.notMem ha)
  have hstep : s.pool.step .listener .enqueue =
      { s.pool with
        queue := q
        item := Function.update s.pool.item .listener none
        log := s.pool.log ++ [.enqueued fd] } := by
    rw [Threads.step, ha]
    simp only [hq]
  obtain ⟨items', hinv, _⟩ := hitems.enqueue .listener
  rw [hstep] at hinv ⊢
  refine ⟨⟨items', hinv⟩, fun _ => ?_, by simp, ?_, ?_, h.handled⟩
  · dsimp only
    exact Function.update_self ..
  · dsimp only
    rw [Event.filterMap_concat_of_some rfl, Event.filterMap_concat_of_none rfl, List.append_assoc,
      List.append_assoc]
    -- The connection is now in the queue, and no longer with the listener.
    refine hacc.trans (List.Perm.append_left _ (List.perm_append_comm.trans ?_))
    exact List.Perm.append_left _ (.of_eq (List.append_nil _).symm)
  · dsimp only
    rw [Event.filterMap_concat_of_none rfl]
    exact h.taken

theorem Inv.listen (result : Option ℕ) : (s.listen result).Inv := by
  -- Steps that have nothing to do with a connection.
  have hcongr : ∀ {pc : Listener} {running : Bool}, s.listener.fd = none → pc.fd = none →
      Inv { s with listener := pc, running := running } :=
    fun hs hpc => h.congr rfl (.inr ⟨hs, hpc⟩) rfl rfl rfl fun _ _ => Iff.rfl
  cases hs : s.listener with
  | start =>
    rw [State.listen.eq_def, hs]
    cases result with
    | none => exact hcongr (by rw [hs]; rfl) rfl
    | some fd => exact hcongr (by rw [hs]; rfl) rfl
  | loop =>
    rw [State.listen.eq_def, hs]
    refine hcongr (by rw [hs]; rfl) ?_
    cases s.shutdownFlag <;> rfl
  | accept =>
    rw [State.listen.eq_def, hs]
    dsimp only
    split
    · exact hcongr (by rw [hs]; rfl) rfl
    · exact h.accept hs _
  | failed =>
    rw [State.listen.eq_def, hs]
    refine hcongr (by rw [hs]; rfl) ?_
    cases s.shutdownFlag <;> rfl
  | malloc fd =>
    rw [State.listen.eq_def, hs]
    cases result with
    | none => exact h.refuse hs
    | some item =>
      dsimp only
      split_ifs with hitem
      · exact h.malloc hs hitem
      · exact h
  | enqueue fd =>
    rw [State.listen.eq_def, hs]
    exact h.enqueue hs
  | close =>
    rw [State.listen.eq_def, hs]
    exact hcongr (by rw [hs]; rfl) rfl
  | returned =>
    rw [State.listen.eq_def, hs]
    exact h

theorem Inv.step (m : Move W) (a : Unit) : (step m a s).Inv := by
  rw [State.step.eq_def]
  split_ifs
  · cases m with
    | listener result => exact h.listen result
    | worker w quits => exact h.work w quits
    | main => exact h.mainStep
  · exact h

/-- When all have returned, a descriptor that was accepted has been handled, closed or refused, or
    is in the queue. -/
theorem Inv.perm (hc : s.Complete) {items : List (ℕ × ℕ)} (hitems : s.pool.Inv items) :
    s.accepted.Perm (s.handled.map Prod.snd ++ s.pool.log.filterMap Event.cleaned ++
      items.map Prod.snd ++ s.pool.log.filterMap Event.refused) := by
  obtain ⟨_, hlistener, hworker⟩ := hc
  have hhandled : s.taken.Perm s.handled := List.perm_iff_count.2 fun ⟨w, fd⟩ => by
    rw [h.handled w fd, hworker w]
    rfl
  have hremoved : (s.pool.log.filterMap Event.removed).Perm
      (s.handled.map Prod.snd ++ s.pool.log.filterMap Event.cleaned) := by
    refine (Event.perm_removed _).trans ?_
    rw [h.taken]
    exact (hhandled.map _).append_right _
  have hacc := h.accepted
  rw [hlistener, Listener.fd.eq_def, Option.toList_none, List.append_nil, hitems.log] at hacc
  exact hacc.trans ((hremoved.append_right _).append_right _)

end Invariant

theorem Inv.strandsNothing_iff (h : s.Inv) (hc : s.Complete) : s.StrandsNothing ↔ ¬ s.Stranded := by
  obtain ⟨items, hitems⟩ := h.pool
  have hperm := h.perm hc hitems
  rw [StrandsNothing, Stranded, not_or, not_not]
  constructor
  · rintro ⟨hhead, hperm'⟩
    obtain rfl := hitems.queueHead_eq_none.1 hhead
    have hlength := (hperm.symm.trans hperm').length_eq
    rw [List.length_append, List.map_nil, List.append_nil] at hlength
    exact ⟨List.length_eq_zero_iff.1 (by omega), fun hs => hs.2.2 hhead⟩
  · rintro ⟨hrefused, hs⟩
    have hhead : s.pool.queue.queueHead = none := by
      by_contra hne
      exact hs ⟨hc.1, hc.2.2, hne⟩
    obtain rfl := hitems.queueHead_eq_none.1 hhead
    rw [hrefused, List.map_nil, List.append_nil, List.append_nil] at hperm
    exact ⟨hhead, hperm⟩

end State

/-- Only a failed `malloc` makes `enqueue_work` refuse a connection. -/
theorem refused_step {T : Type*} [DecidableEq T] (p : Threads T) (t : T) {c : QueueStep}
    (hc : ∀ fd, c ≠ .malloc fd none) :
    (p.step t c).log.filterMap Event.refused = p.log.filterMap Event.refused := by
  cases c with
  | malloc fd address =>
    cases address with
    | none => exact absurd rfl (hc fd)
    | some item =>
      rw [Threads.step]
      split_ifs <;> rfl
  | enqueue =>
    rw [Threads.step]
    split
    · rfl
    · split
      · rfl
      · exact Event.filterMap_concat_of_none rfl _
  | dequeue =>
    rw [Threads.step]
    split
    · rfl
    · rfl
    · exact Event.filterMap_concat_of_none rfl _
  | shutdown => rfl
  | length => rfl
  | cleanup =>
    rw [Threads.step]
    split
    · rfl
    · -- What is closed in the queue has not been refused.
      rw [List.filterMap_append, List.filterMap_map]
      exact (congrArg _ (List.filterMap_eq_nil_iff.2 fun _ _ => rfl)).trans (List.append_nil _)

namespace State

variable [DecidableEq W] {s : State W}

/-- A worker that takes a step refuses nothing, and returns only if the queue is empty. -/
theorem Inv.work_spec (h : s.Inv) {w : W} (hw : s.worker w ≠ .returned) (quits : Bool) :
    (s.work w quits).pool.log.filterMap Event.refused = s.pool.log.filterMap Event.refused ∧
      ((s.work w quits).worker w = .returned → (s.work w quits).pool.queue.queueHead = none) := by
  have hgoto : ∀ {pc : Worker}, (s.goto w pc).worker w = pc := worker_goto.trans (if_pos rfl)
  cases hpc : s.worker w with
  | dequeue =>
    obtain ⟨items, hitems⟩ := h.pool
    have hrefused := refused_step s.pool (.worker w) (c := .dequeue) (by simp)
    have hstay : s.worker w = .returned →
        (s.pool.step (.worker w) .dequeue).queue.queueHead = none := fun hret => absurd hret hw
    rw [State.work, hpc]
    rcases hitems.holds.dequeueWork with ⟨_, hhead, hq⟩ | ⟨item, fd, rest, q, _, hq, _⟩
    · -- The queue is empty: the worker returns if the queue is shut down, and waits otherwise.
      have hqueue : (s.pool.step (.worker w) .dequeue).queue = s.pool.queue := by
        rw [Threads.step, hq]
        cases s.pool.queue.shutdownFlag <;> rfl
      rw [hq]
      cases hflag : s.pool.queue.shutdownFlag with
      | false => exact ⟨hrefused, hstay⟩
      | true => exact ⟨hrefused, fun _ => (congrArg WorkQueue.queueHead hqueue).trans hhead⟩
    · -- No descriptor is taken for the -1 of a queue that is shut down.
      have hv : (fd : ℤ) ≠ -1 := by omega
      rw [hq]
      dsimp only
      rw [if_neg hv]
      refine ⟨hrefused, fun hret => ?_⟩
      cases hgoto.symm.trans hret
  | handle fd =>
    rw [State.work, hpc]
    cases quits <;> exact ⟨rfl, fun hret => by cases hgoto.symm.trans hret⟩
  | shutdown =>
    rw [State.work, hpc]
    exact ⟨rfl, fun hret => by cases hgoto.symm.trans hret⟩
  | cleanup =>
    rw [State.work, hpc]
    exact ⟨refused_step s.pool (.worker w) (by simp), fun hret => by cases hgoto.symm.trans hret⟩
  | exit =>
    rw [State.work, hpc]
    exact ⟨rfl, fun hret => absurd hret hw⟩
  | returned => exact absurd hpc hw

theorem Inv.stranded_work (h : s.Inv) (w : W) (quits : Bool) :
    (s.work w quits).Stranded ↔ s.Stranded := by
  by_cases hw : s.worker w = .returned
  · rw [State.work, hw]
  · obtain ⟨hrefused, hhead⟩ := h.work_spec hw quits
    rw [Stranded, Stranded, hrefused]
    refine or_congr_right (iff_of_false ?_ ?_)
    · rintro ⟨_, hret, hne⟩
      exact hne (hhead (hret w))
    · rintro ⟨_, hret, _⟩
      exact hw (hret w)

theorem Inv.stranded_mainStep (h : s.Inv) : s.mainStep.Stranded ↔ s.Stranded := by
  obtain ⟨items, hitems⟩ := h.pool
  have hne : s.main ≠ .done → s.mainStep.pool.log.filterMap Event.refused =
      s.pool.log.filterMap Event.refused ∧
        (s.mainStep.main = .done → s.mainStep.pool.queue.queueHead = none) := by
    intro hmain
    rw [State.mainStep]
    cases hpc : s.main with
    | commands => exact ⟨rfl, by simp⟩
    | close => exact ⟨rfl, by simp⟩
    | shutdown => exact ⟨rfl, by simp⟩
    | cleanup =>
      obtain ⟨q, hq, hholds, _⟩ := hitems.holds.queueCleanup
      refine ⟨refused_step s.pool .main (by simp), fun _ => ?_⟩
      dsimp only
      rw [Threads.step, hq]
      exact hholds.chain.eq_none
    | done => exact absurd hpc hmain
  by_cases hmain : s.main = .done
  · rw [State.mainStep, hmain]
  · obtain ⟨hrefused, hhead⟩ := hne hmain
    rw [Stranded, Stranded, hrefused]
    refine or_congr_right (iff_of_false ?_ fun hs => hmain hs.1)
    rintro ⟨hdone, _, hhead'⟩
    exact hhead' (hhead hdone)

/-- What the listener does to the queue. -/
theorem Inv.listen_spec (h : s.Inv) (result : Option ℕ) :
    (s.listen result).main = s.main ∧ (s.listen result).worker = s.worker ∧
      ((s.listen result).pool.log.filterMap Event.refused ≠ [] ↔
        s.pool.log.filterMap Event.refused ≠ [] ∨ ∃ fd, s.listener = .malloc fd ∧ result = none) ∧
      ((s.listen result).pool.queue.queueHead ≠ none ↔
        s.pool.queue.queueHead ≠ none ∨ ∃ fd, s.listener = .enqueue fd) := by
  rw [State.listen.eq_def]
  cases hs : s.listener with
  | start => cases result <;> simp
  | loop => simp
  | accept =>
    dsimp only
    split <;> simp
  | failed => simp
  | malloc fd =>
    have hhead : (∃ g, Listener.malloc fd = .enqueue g) ↔ False := by simp
    cases result with
    | none =>
      refine ⟨rfl, rfl, iff_of_true ?_ (.inr ⟨fd, rfl, rfl⟩), ?_⟩
      · dsimp only [Threads.step]
        rw [Event.filterMap_concat_of_some rfl]
        simp
      · rw [hhead, or_false]
        exact Iff.rfl
    | some item =>
      have hidle := h.idle (by simp [hs])
      dsimp only
      split_ifs with hitem
      · refine ⟨rfl, rfl, ?_, ?_⟩
        · rw [refused_step s.pool .listener (by simp)]
          simp
        · rw [Threads.step, if_pos ⟨hidle, hitem⟩]
          simp [WorkQueue.newItem]
      · simp
  | enqueue fd =>
    obtain ⟨items, hitems⟩ := h.pool
    obtain ⟨a, ha⟩ := h.item fd hs
    obtain ⟨q, hq, hholds, _⟩ :=
      hitems.holds.enqueueItem (hitems.pending.node ha) (hitems.pending.notMem ha)
    refine ⟨rfl, rfl, ?_, iff_of_true ?_ (.inr ⟨fd, rfl⟩)⟩
    · rw [refused_step s.pool .listener (by simp)]
      simp
    · -- The queue has an item now.
      rw [Threads.step, ha]
      simp only [hq]
      intro hnone
      exact absurd (hholds.eq_nil hnone) (by simp)
  | close => simp
  | returned => simp

/-- The listener strands a connection if it puts it into the queue too late, or has no memory for
    it. -/
theorem Inv.stranded_listen (h : s.Inv) (result : Option ℕ) :
    (s.listen result).Stranded ↔ s.Stranded ∨ ¬ s.InTime (.listener result) := by
  obtain ⟨hmain, hworker, hrefused, hhead⟩ := h.listen_spec result
  have htime : ¬ s.InTime (.listener result) ↔ (∃ fd, s.listener = .malloc fd ∧ result = none) ∨
      (∃ fd, s.listener = .enqueue fd) ∧ s.main = .done ∧ ∀ w, s.worker w = .returned := by
    rw [InTime]
    cases s.listener <;> simp
  rw [Stranded, Stranded, hrefused, hhead, hmain, hworker, htime]
  constructor
  · rintro ((hr | hm) | ⟨hd, hw, hh | he⟩)
    · exact .inl (.inl hr)
    · exact .inr (.inl hm)
    · exact .inl (.inr ⟨hd, hw, hh⟩)
    · exact .inr (.inr ⟨he, hd, hw⟩)
  · rintro ((hr | ⟨hd, hw, hh⟩) | (hm | ⟨he, hd, hw⟩))
    · exact .inl (.inl hr)
    · exact .inr ⟨hd, hw, .inl hh⟩
    · exact .inl (.inr hm)
    · exact .inr ⟨hd, hw, .inr he⟩

/-- A step strands a connection if and only if it is not in time. -/
theorem Inv.stranded_step (h : s.Inv) (hs : ¬ s.Stranded) (m : Move W) (a : Unit) :
    (State.step m a s).Stranded ↔ s.running = true ∧ ¬ s.InTime m := by
  rw [State.step.eq_def]
  split_ifs with hrunning
  · rw [and_iff_right hrunning]
    cases m with
    | listener result => rw [h.stranded_listen result, or_iff_right hs]
    | worker w quits =>
      exact iff_of_false (fun hs' => hs ((h.stranded_work w quits).1 hs')) (not_not.2 trivial)
    | main => exact iff_of_false (fun hs' => hs (h.stranded_mainStep.1 hs')) (not_not.2 trivial)
  · exact iff_of_false hs fun h => hrunning h.1

/-- What is stranded stays so. -/
theorem Inv.stranded_step_of_stranded (h : s.Inv) (hs : s.Stranded) (m : Move W) (a : Unit) :
    (State.step m a s).Stranded := by
  rw [State.step.eq_def]
  split_ifs
  · cases m with
    | listener result => exact (h.stranded_listen result).2 (.inl hs)
    | worker w quits => exact (h.stranded_work w quits).2 hs
    | main => exact h.stranded_mainStep.2 hs
  · exact hs

end State

/-- In runs in which the listener enqueues connections in time, and there is memory for them, none
    is stranded when all threads have returned. After a step that is not so, one is stranded. -/
theorem quit_strandsNothing [DecidableEq W] {s : State W}
    (h : Interleave.Runs State.step State.InTime State.init s) :
    (s.Complete → s.StrandsNothing) ∧
      ∀ m, s.running = true → ¬ s.InTime m → ∀ s',
        Interleave.Runs State.step (fun _ _ => True) (State.step m () s) s' →
          s'.Complete → ¬ s'.StrandsNothing := by
  have hinv : s.Inv ∧ ¬ s.Stranded := by
    refine h.invariant (I := fun s : State W => s.Inv ∧ ¬ s.Stranded) ⟨State.inv_init, ?_⟩
      fun s m a ⟨hs, hnot⟩ hm => ⟨hs.step m a, fun hstep => ?_⟩
    · exact not_or.2 ⟨fun h => h rfl, fun h => nomatch h.1⟩
    · exact ((hs.stranded_step hnot m a).1 hstep).2 hm
  refine ⟨fun hc => (hinv.1.strandsNothing_iff hc).2 hinv.2, fun m hrunning hm s' h' hc' => ?_⟩
  have hinv' : s'.Inv ∧ s'.Stranded := by
    refine h'.invariant (I := fun s : State W => s.Inv ∧ s.Stranded)
      ⟨hinv.1.step m (), (hinv.1.stranded_step hinv.2 m ()).2 ⟨hrunning, hm⟩⟩
      fun s m a ⟨hs, hstranded⟩ _ => ⟨hs.step m a, hs.stranded_step_of_stranded hstranded m a⟩
  rw [hinv'.1.strandsNothing_iff hc', not_not]
  exact hinv'.2

/-- A listener that accepts a connection. -/
def accepts : List (Move (Fin 4)) := [.listener (some 0), .listener none, .listener (some 5)]

/-- A listener that enqueues the connection. -/
def enqueues : List (Move (Fin 4)) := [.listener (some 0), .listener none]

/-- The steps of `quit`, after which the workers return. -/
def quits : List (Move (Fin 4)) :=
  [.main, .main, .main, .main, .worker 0 false, .worker 1 false, .worker 2 false, .worker 3 false]

/-- A listener that sees the flag. -/
def returns : List (Move (Fin 4)) := [.listener none, .listener none]

/-- A connection is accepted and handled, and then the server quits. -/
def handlesOne : List (Move (Fin 4) × Unit) :=
  (accepts ++ enqueues ++ [Move.worker 0 false, Move.worker 0 false] ++ quits ++ returns).map (·, ())

theorem quit_strandsNothing_handlesOne :
    (Interleave.exec State.step State.init handlesOne).StrandsNothing := by
  refine (quit_strandsNothing (Interleave.runs_exec _ handlesOne fun k hk => ?_)).1
    ⟨rfl, rfl, by decide⟩
  change k < 17 at hk
  interval_cases k
  all_goals first | exact trivial | exact nofun

/-- The listener has accepted a connection when the server quits, and enqueues it afterwards. -/
def enqueuesLate : List (Move (Fin 4) × Unit) :=
  (accepts ++ quits ++ enqueues ++ returns).map (·, ())

/-- All threads have returned, and the connection is still in the queue. -/
theorem exists_strands :
    ¬ ∀ s, Interleave.Runs State.step (fun _ _ => True) (State.init : State (Fin 4)) s →
      s.Complete → s.StrandsNothing := by
  intro h
  have hstrands := h _ (Interleave.runs_exec _ enqueuesLate fun _ _ => trivial)
    ⟨rfl, rfl, by decide⟩
  cases hstrands.1

end Shutdown

end Cs5600.Db
