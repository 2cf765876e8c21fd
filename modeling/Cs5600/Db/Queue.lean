import Mathlib.Data.List.AList
import Mathlib.Tactic.IntervalCases
import Cs5600.Interleave
import Cs5600.LinkedQueue

/-!
# The work queue

The functions of `queue.c`, which hand connections over from the listener to the
workers. The queue is a chain of `work_item`s in memory, under a mutex: its
critical sections are the steps, and threads take them in any order. Memory is
allocated and freed, and no address is used that is not allocated.

Along with the queue there is a log of what happens to connections. It says that
they leave the queue in the order they came: those that were enqueued are those
that were removed, by `dequeue_work` or by `queue_cleanup`, followed by those that
are in the queue (`queue_delivers`).

The counter that `queue_length` returns is changed with the list, but not by
`queue_cleanup`. So it is the length of the list as long as `queue_cleanup` finds
no items (`queueLength_counts`).
-/

namespace Cs5600.Db

open LinkedQueue

/-! ## The functions of `queue.c` -/

/-- The variables of `queue.c`, and the `work_item`s in memory. -/
structure WorkQueue where
  queueHead : Option ℕ
  queueTail : Option ℕ
  queuedRequests : ℤ
  shutdownFlag : Bool
  /-- The value of a node is its `sock_fd`. -/
  memory : AList fun _ : ℕ => Node ℕ ℕ

/-- What `dequeue_work` does when it has the mutex. -/
inductive Dequeued
  | waits
  | returns (v : ℤ)

namespace WorkQueue

/-- `queue_init`. -/
def init : WorkQueue where
  queueHead := none
  queueTail := none
  queuedRequests := 0
  shutdownFlag := false
  memory := ∅

variable (q : WorkQueue)

/-- `queue_shutdown`. -/
def queueShutdown : WorkQueue := { q with shutdownFlag := true }

/-- The beginning of `enqueue_work`, if `malloc` returns this address. -/
def newItem (item sockFd : ℕ) : WorkQueue :=
  { q with memory := q.memory.insert item { value := sockFd, next := none } }

/-- The critical section of `enqueue_work`, unless it uses memory that is not allocated. -/
def enqueueItem (item : ℕ) : Option WorkQueue :=
  match q.queueTail with
  | none =>
    some { q with
      queueHead := some item
      queueTail := some item
      queuedRequests := q.queuedRequests + 1 }
  | some tail => do
    let last ← q.memory.lookup tail
    some { q with
      memory := q.memory.insert tail { last with next := some item }
      queueTail := some item
      queuedRequests := q.queuedRequests + 1 }

/-- `dequeue_work`, when it has the mutex, unless it uses memory that is not allocated. -/
def dequeueWork : Option (Dequeued × WorkQueue) :=
  if q.queueHead = none ∧ q.shutdownFlag = false then some (.waits, q)
  else if q.shutdownFlag = true ∧ q.queueHead = none then some (.returns (-1), q)
  else do
    let item ← q.queueHead
    let node ← q.memory.lookup item
    some (.returns node.value,
      { q with
        queueHead := node.next
        queueTail := if node.next = none then none else q.queueTail
        queuedRequests := q.queuedRequests - 1
        memory := q.memory.erase item })

/-- `queue_length`. -/
def queueLength : ℤ := q.queuedRequests

/-- The loop of `queue_cleanup`, if it ends after at most this many rounds: the descriptors that it
    closes. -/
def cleanupLoop : ℕ → WorkQueue → Option (List ℕ × WorkQueue)
  | 0, q => if q.queueHead = none then some ([], q) else none
  | rounds + 1, q =>
    match q.queueHead with
    | none => some ([], q)
    | some item => do
      let node ← q.memory.lookup item
      let (closed, q) ← cleanupLoop rounds
        { q with queueHead := node.next, memory := q.memory.erase item }
      some (node.value :: closed, q)

/-- `queue_cleanup`, unless it uses memory that is not allocated. In every round it frees a node, so
    there are not more rounds than nodes. -/
def queueCleanup : Option (List ℕ × WorkQueue) := do
  let (closed, q) ← cleanupLoop q.memory.keys.length q
  some (closed, { q with queueTail := none })

end WorkQueue

/-! ## Threads -/

/-- What happens to connections. -/
inductive Event
  /-- `enqueue_work` closes a descriptor, as there is no memory. -/
  | dropped (sockFd : ℕ)
  | enqueued (sockFd : ℕ)
  /-- `dequeue_work` returns. -/
  | returned (v : ℤ)
  /-- `queue_cleanup` closes a descriptor. -/
  | closed (sockFd : ℕ)

/-- The descriptor that is put into the queue. -/
def Event.added : Event → Option ℕ
  | enqueued sockFd => some sockFd
  | _ => none

/-- The descriptor that is removed from the queue. -/
def Event.removed : Event → Option ℕ
  | returned v => v.toNat?
  | closed sockFd => some sockFd
  | _ => none

/-- Threads that use the queue. -/
structure Threads (T : Type*) where
  queue : WorkQueue
  /-- The address and the descriptor of the item that a thread has allocated in `enqueue_work`. -/
  item : T → Option (ℕ × ℕ)
  /-- What has happened so far. -/
  log : List Event
  /-- Whether all memory that was used was allocated. -/
  sound : Bool

/-- What a thread does next. -/
inductive QueueStep
  /-- It calls `enqueue_work`, in which `malloc` returns an address, or fails. -/
  | malloc (sockFd : ℕ) (address : Option ℕ)
  | enqueue
  | dequeue
  | shutdown
  | length
  | cleanup
  deriving DecidableEq

namespace Threads

variable {T : Type*} [DecidableEq T]

/-- No thread has done anything. -/
def init : Threads T where
  queue := .init
  item _ := none
  log := []
  sound := true

/-- A step of a thread. An address that `malloc` returns is not allocated. -/
def step (t : T) : QueueStep → Threads T → Threads T
  | .malloc sockFd none, s => { s with log := s.log ++ [.dropped sockFd] }
  | .malloc sockFd (some item), s =>
    if s.item t = none ∧ s.queue.memory.lookup item = none then
      { s with
        queue := s.queue.newItem item sockFd
        item := Function.update s.item t (some (item, sockFd)) }
    else s
  | .enqueue, s =>
    match s.item t with
    | none => s
    | some (item, sockFd) =>
      match s.queue.enqueueItem item with
      | none => { s with sound := false }
      | some q =>
        { s with
          queue := q
          item := Function.update s.item t none
          log := s.log ++ [.enqueued sockFd] }
  | .dequeue, s =>
    match s.queue.dequeueWork with
    | none => { s with sound := false }
    | some (.waits, q) => { s with queue := q }
    | some (.returns v, q) => { s with queue := q, log := s.log ++ [.returned v] }
  | .shutdown, s => { s with queue := s.queue.queueShutdown }
  | .length, s => s
  | .cleanup, s =>
    match s.queue.queueCleanup with
    | none => { s with sound := false }
    | some (closed, q) => { s with queue := q, log := s.log ++ closed.map .closed }

end Threads

/-! ## The chain of nodes -/

namespace WorkQueue

variable {q : WorkQueue} {items : List (ℕ × ℕ)} {item sockFd : ℕ}

/-- The node at an address. -/
def node (q : WorkQueue) (a : ℕ) : Option (Node ℕ ℕ) := q.memory.lookup a

/-- The queue has these items: their addresses, and their descriptors. -/
def Holds (q : WorkQueue) (items : List (ℕ × ℕ)) : Prop :=
  IsQueue q.node q.queueHead q.queueTail items

theorem holds_init : init.Holds [] := IsQueue.empty _

/-- An item is added at the end. -/
theorem Holds.enqueueItem (h : q.Holds items)
    (hitem : q.node item = some { value := sockFd, next := none })
    (hnot : item ∉ items.map Prod.fst) :
    ∃ q', q.enqueueItem item = some q' ∧ q'.Holds (items ++ [(item, sockFd)]) ∧
      (∀ a ∉ items.map Prod.fst, q'.node a = q.node a) ∧ q'.shutdownFlag = q.shutdownFlag ∧
      q'.queuedRequests = q.queuedRequests + 1 := by
  rw [WorkQueue.enqueueItem]
  cases htail : q.queueTail with
  | none =>
    -- The list is empty, and the item becomes its head and its tail.
    obtain rfl := h.eq_nil (h.head_eq_none.2 htail)
    exact ⟨_, rfl, IsQueue.single hitem, fun _ _ => rfl, rfl, rfl⟩
  | some tail =>
    -- The old tail now points to the item.
    obtain ⟨last, hlast⟩ := Option.isSome_iff_exists.1 (h.tail_isSome htail)
    have hne : ∀ a ∉ items.map Prod.fst, a ≠ tail := by
      rintro a ha rfl
      exact ha (h.tail_mem htail)
    have hlookup : q.memory.lookup tail = some last := hlast
    simp only [hlookup, Option.bind_eq_bind, Option.bind_some]
    refine ⟨_, rfl, h.push htail (fun m hm => ?_) (fun a ha => AList.lookup_insert_ne ha) hitem hnot,
      fun a ha => AList.lookup_insert_ne (hne a ha), rfl, rfl⟩
    obtain rfl := Option.some.inj (hlast.symm.trans hm)
    exact AList.lookup_insert _

/-- An item is removed from the front, unless there is none. -/
theorem Holds.dequeueWork (h : q.Holds items) :
    (items = [] ∧ q.queueHead = none ∧
      q.dequeueWork = some (if q.shutdownFlag then .returns (-1) else .waits, q)) ∨
    ∃ item sockFd rest q', items = (item, sockFd) :: rest ∧
      q.dequeueWork = some (.returns sockFd, q') ∧ q'.Holds rest ∧
      (∀ a, a ≠ item → q'.node a = q.node a) ∧ q'.shutdownFlag = q.shutdownFlag ∧
      q'.queuedRequests = q.queuedRequests - 1 := by
  rw [WorkQueue.dequeueWork]
  cases hhead : q.queueHead with
  | none =>
    refine .inl ⟨h.eq_nil hhead, rfl, ?_⟩
    cases q.shutdownFlag <;> rfl
  | some item =>
    obtain ⟨n, rest, hn, rfl, hrest, hnot⟩ := h.pop hhead
    have hlookup : q.memory.lookup item = some n := hn
    refine .inr ⟨item, n.value, rest,
      { q with
        queueHead := n.next
        queueTail := if n.next = none then none else q.queueTail
        queuedRequests := q.queuedRequests - 1
        memory := q.memory.erase item }, rfl, ?_, hrest.congr fun a ha => ?_,
      fun a ha => AList.lookup_erase_ne ha, rfl, rfl⟩
    · simp only [reduceCtorEq, false_and, and_false, if_false, Option.bind_eq_bind, Option.bind_some,
        hlookup]
    · exact AList.lookup_erase_ne fun he => hnot (he ▸ ha)

/-- The loop of `queue_cleanup` closes the descriptors of all items, in order. -/
theorem cleanupLoop_eq {tail : Option ℕ} (h : IsQueue q.node q.queueHead tail items) {rounds : ℕ}
    (hrounds : items.length ≤ rounds) :
    ∃ q', cleanupLoop rounds q = some (items.map Prod.snd, q') ∧ q'.queueHead = none ∧
      (∀ a ∉ items.map Prod.fst, q'.node a = q.node a) ∧ q'.shutdownFlag = q.shutdownFlag ∧
      q'.queuedRequests = q.queuedRequests := by
  induction items generalizing q tail rounds with
  | nil =>
    have hhead := h.chain.eq_none
    refine ⟨q, ?_, hhead, fun _ _ => rfl, rfl, rfl⟩
    cases rounds with
    | zero => rw [cleanupLoop, if_pos hhead]; rfl
    | succ rounds => rw [cleanupLoop, hhead]; rfl
  | cons i items ih =>
    obtain ⟨rounds, rfl⟩ := Nat.exists_eq_succ_of_ne_zero (Nat.pos_iff_ne_zero.1
      (lt_of_lt_of_le (Nat.succ_pos _) hrounds))
    cases hhead : q.queueHead with
    | none => cases h.eq_nil hhead
    | some item =>
      obtain ⟨n, rest, hn, he, hrest, hnot⟩ := h.pop hhead
      obtain ⟨rfl, rfl⟩ := List.cons.inj he
      have hlookup : q.memory.lookup item = some n := hn
      -- The first item is freed, and the loop goes on with the rest.
      obtain ⟨q', hloop, hnone, hmem, hflag, hcount⟩ := ih
        (q := { q with queueHead := n.next, memory := q.memory.erase item })
        (hrest.congr fun a ha => AList.lookup_erase_ne fun he => hnot (he ▸ ha))
        (Nat.le_of_succ_le_succ hrounds)
      refine ⟨q', ?_, hnone, fun a ha => ?_, hflag, hcount⟩
      · rw [cleanupLoop, hhead]
        simp only [hlookup, hloop, Option.bind_eq_bind, Option.bind_some]
        rfl
      · obtain ⟨hne, ha⟩ := not_or.1 (List.mem_cons.not.1 ha)
        exact (hmem a ha).trans (AList.lookup_erase_ne hne)

/-- `queue_cleanup` ends, and leaves an empty queue. -/
theorem Holds.queueCleanup (h : q.Holds items) :
    ∃ q', q.queueCleanup = some (items.map Prod.snd, q') ∧ q'.Holds [] ∧
      (∀ a ∉ items.map Prod.fst, q'.node a = q.node a) ∧ q'.shutdownFlag = q.shutdownFlag ∧
      q'.queuedRequests = q.queuedRequests := by
  have hsubset : items.map Prod.fst ⊆ q.memory.keys := fun a ha =>
    AList.mem_keys.1 (AList.lookup_isSome.1 (h.chain.isSome a ha))
  have hle := (List.subperm_of_subset h.nodup hsubset).length_le
  rw [List.length_map] at hle
  obtain ⟨q', hloop, hnone, hmem, hflag, hcount⟩ := cleanupLoop_eq h hle
  refine ⟨{ q' with queueTail := none }, ?_, ?_, hmem, hflag, hcount⟩
  · rw [WorkQueue.queueCleanup, hloop]
    rfl
  · rw [Holds, hnone]
    exact IsQueue.empty _

end WorkQueue

/-! ## Runs -/

namespace Threads

variable {T : Type*} {s : Threads T} {items : List (ℕ × ℕ)}

/-- The items that threads have allocated, but not yet enqueued, are in memory, and nobody else has
    them. -/
structure Pending (s : Threads T) (items : List (ℕ × ℕ)) : Prop where
  node : ∀ {t item sockFd}, s.item t = some (item, sockFd) →
    s.queue.node item = some { value := sockFd, next := none }
  notMem : ∀ {t item sockFd}, s.item t = some (item, sockFd) → item ∉ items.map Prod.fst
  unique : ∀ {t t' item sockFd sockFd'}, s.item t = some (item, sockFd) →
    s.item t' = some (item, sockFd') → t = t'

/-- The queue has these items, and the log says so. -/
structure Inv (s : Threads T) (items : List (ℕ × ℕ)) : Prop where
  holds : s.queue.Holds items
  pending : s.Pending items
  log : s.log.filterMap Event.added = s.log.filterMap Event.removed ++ items.map Prod.snd
  sound : s.sound = true

/-- By how much the counter is more than the number of items. -/
def surplus (s : Threads T) (items : List (ℕ × ℕ)) : ℤ := s.queue.queuedRequests - items.length

theorem inv_init : (init : Threads T).Inv [] where
  holds := WorkQueue.holds_init
  pending := ⟨nofun, nofun, nofun⟩
  log := rfl
  sound := rfl

/-- Items that are not removed from memory stay pending. -/
theorem Pending.keep (h : s.Pending items) {s' : Threads T} {items' : List (ℕ × ℕ)}
    (hitem : s'.item = s.item) (hsub : items'.map Prod.fst ⊆ items.map Prod.fst)
    (hnode : ∀ a ∉ items.map Prod.fst, s'.queue.node a = s.queue.node a) : s'.Pending items' := by
  refine ⟨fun {t item sockFd} ht => ?_, fun {t item sockFd} ht hmem => ?_, fun ht ht' => ?_⟩
  · rw [hitem] at ht
    rw [hnode item (h.notMem ht), h.node ht]
  · rw [hitem] at ht
    exact h.notMem ht (hsub hmem)
  · rw [hitem] at ht ht'
    exact h.unique ht ht'

theorem filterMap_added_closed (fds : List ℕ) : (fds.map Event.closed).filterMap Event.added = [] :=
  List.filterMap_eq_nil_iff.2 fun e he => by
    obtain ⟨fd, _, rfl⟩ := List.mem_map.1 he
    rfl

theorem filterMap_removed_closed (fds : List ℕ) :
    (fds.map Event.closed).filterMap Event.removed = fds := by
  rw [List.filterMap_map]
  exact List.filterMap_some

variable [DecidableEq T] (h : s.Inv items) (t : T)
include h

/-- Memory is allocated for an item. -/
theorem Inv.malloc (sockFd : ℕ) (address : Option ℕ) :
    (step t (.malloc sockFd address) s).Inv items ∧
      (step t (.malloc sockFd address) s).queue.queuedRequests = s.queue.queuedRequests := by
  cases address with
  | none =>
    refine ⟨⟨h.holds, h.pending.keep rfl (fun _ h => h) fun _ _ => rfl, ?_, h.sound⟩, rfl⟩
    rw [step, List.filterMap_append, List.filterMap_append]
    exact (List.append_nil _).trans (h.log.trans (congrArg (· ++ _) (List.append_nil _).symm))
  | some item =>
    rw [step]
    split_ifs with hnew
    · obtain ⟨hidle, hnone⟩ := hnew
      -- An address that is not allocated is neither in the queue nor with another thread.
      have hnot : item ∉ items.map Prod.fst := fun hmem => by
        have hsome := h.holds.chain.isSome item hmem
        rw [WorkQueue.node, hnone] at hsome
        cases hsome
      have hother : ∀ {t' a fd}, s.item t' = some (a, fd) → a ≠ item := by
        rintro t' a fd ht' rfl
        have hnode := h.pending.node ht'
        rw [WorkQueue.node, hnone] at hnode
        cases hnode
      have hkeep : ∀ a, a ≠ item → (s.queue.newItem item sockFd).node a = s.queue.node a :=
        fun a ha => AList.lookup_insert_ne ha
      have hcases : ∀ {t' a fd}, Function.update s.item t (some (item, sockFd)) t' = some (a, fd) →
          (t' = t ∧ a = item ∧ fd = sockFd) ∨ s.item t' = some (a, fd) := by
        intro t' a fd ht'
        by_cases htt : t' = t
        · rw [htt, Function.update_self] at ht'
          obtain ⟨rfl, rfl⟩ := Prod.mk.inj (Option.some.inj ht')
          exact .inl ⟨htt, rfl, rfl⟩
        · rw [Function.update_of_ne htt] at ht'
          exact .inr ht'
      refine ⟨⟨h.holds.congr fun a ha => hkeep a fun he => hnot (he ▸ ha),
        ⟨fun ht' => ?_, fun ht' => ?_, fun h₁ h₂ => ?_⟩, h.log, h.sound⟩, rfl⟩
      · rcases hcases ht' with ⟨_, rfl, rfl⟩ | ht'
        · exact AList.lookup_insert _
        · exact (hkeep _ (hother ht')).trans (h.pending.node ht')
      · rcases hcases ht' with ⟨_, rfl, _⟩ | ht'
        · exact hnot
        · exact h.pending.notMem ht'
      · rcases hcases h₁ with ⟨ht₁, ha₁, _⟩ | h₁
        · rcases hcases h₂ with ⟨ht₂, _⟩ | h₂
          · exact ht₁.trans ht₂.symm
          · exact absurd ha₁ (hother h₂)
        · rcases hcases h₂ with ⟨_, ha₂, _⟩ | h₂
          · exact absurd ha₂ (hother h₁)
          · exact h.pending.unique h₁ h₂
    · exact ⟨h, rfl⟩

/-- The item of a thread is put at the end of the queue. -/
theorem Inv.enqueue : ∃ items', (step t .enqueue s).Inv items' ∧
    (step t .enqueue s).surplus items' = s.surplus items := by
  rw [step]
  cases ht : s.item t with
  | none => exact ⟨items, h, rfl⟩
  | some i =>
    obtain ⟨item, sockFd⟩ := i
    obtain ⟨q, hq, hholds, hmem, _, hcount⟩ :=
      h.holds.enqueueItem (h.pending.node ht) (h.pending.notMem ht)
    simp only [hq]
    -- The items of other threads are other items.
    have hother : ∀ {t' a fd}, Function.update s.item t none t' = some (a, fd) →
        s.item t' = some (a, fd) ∧ a ≠ item := by
      intro t' a fd ht'
      by_cases htt : t' = t
      · rw [htt, Function.update_self] at ht'
        cases ht'
      · rw [Function.update_of_ne htt] at ht'
        exact ⟨ht', fun he => htt (h.pending.unique (he ▸ ht') ht)⟩
    refine ⟨items ++ [(item, sockFd)], ⟨hholds,
      ⟨fun ht' => ?_, fun ht' hmem' => ?_, fun h₁ h₂ => ?_⟩, ?_, h.sound⟩, ?_⟩
    · obtain ⟨ht', _⟩ := hother ht'
      exact (hmem _ (h.pending.notMem ht')).trans (h.pending.node ht')
    · obtain ⟨ht', hne⟩ := hother ht'
      rw [List.map_append, List.mem_append] at hmem'
      exact hmem'.elim (h.pending.notMem ht') fun he => hne (List.mem_singleton.1 he)
    · exact h.pending.unique (hother h₁).1 (hother h₂).1
    · rw [List.filterMap_append, List.filterMap_append, List.map_append, h.log]
      change _ ++ [sockFd] = (_ ++ []) ++ (_ ++ [sockFd])
      rw [List.append_nil, List.append_assoc]
    · rw [surplus, surplus, List.length_append, List.length_singleton]
      dsimp only
      omega

/-- The first item is removed. -/
theorem Inv.dequeue : ∃ items', (step t .dequeue s).Inv items' ∧
    (step t .dequeue s).surplus items' = s.surplus items := by
  rw [step]
  rcases h.holds.dequeueWork with
    ⟨rfl, hhead, hq⟩ | ⟨item, sockFd, rest, q, rfl, hq, hholds, hmem, _, hcount⟩
  · rw [hq]
    cases s.queue.shutdownFlag with
    | false => exact ⟨[], h, rfl⟩
    | true =>
      have hlog : (s.log ++ [Event.returned (-1)]).filterMap Event.added =
          (s.log ++ [Event.returned (-1)]).filterMap Event.removed ++ [] := by
        rw [List.filterMap_append, List.filterMap_append]
        exact (List.append_nil _).trans (h.log.trans (congrArg (· ++ _) (List.append_nil _).symm))
      exact ⟨[], ⟨h.holds, h.pending.keep rfl (fun _ h => h) fun _ _ => rfl, hlog, h.sound⟩, rfl⟩
  · rw [hq]
    refine ⟨rest, ⟨hholds, h.pending.keep rfl (fun a ha => List.mem_cons_of_mem _ ha)
      fun a ha => hmem a (not_or.1 (List.mem_cons.not.1 ha)).1, ?_, h.sound⟩, ?_⟩
    · rw [List.filterMap_append, List.filterMap_append, List.append_assoc]
      exact (List.append_nil _).trans h.log
    · rw [surplus, surplus, List.length_cons]
      dsimp only
      omega

/-- All items are closed, and the counter stays as it was. -/
theorem Inv.cleanup : (step t .cleanup s).Inv [] ∧
    (step t .cleanup s).queue.queuedRequests = s.queue.queuedRequests := by
  obtain ⟨q, hq, hholds, hmem, _, hcount⟩ := h.holds.queueCleanup
  rw [step, hq]
  refine ⟨⟨hholds, h.pending.keep rfl (List.nil_subset _) hmem, ?_, h.sound⟩, hcount⟩
  rw [List.filterMap_append, List.filterMap_append, filterMap_added_closed,
    filterMap_removed_closed]
  exact (List.append_nil _).trans (h.log.trans (List.append_nil _).symm)

/-- The counter is changed with the list, except by `queue_cleanup`. -/
theorem Inv.step (c : QueueStep) : ∃ items', (step t c s).Inv items' ∧
    (step t c s).surplus items' =
      s.surplus items + if c = .cleanup then (items.length : ℤ) else 0 := by
  cases c with
  | malloc sockFd address =>
    obtain ⟨hinv, hcount⟩ := h.malloc t sockFd address
    exact ⟨items, hinv, by rw [surplus, surplus, hcount, if_neg nofun, Int.add_zero]⟩
  | enqueue =>
    obtain ⟨items', hinv, hsurplus⟩ := h.enqueue t
    exact ⟨items', hinv, by rw [hsurplus, if_neg nofun, Int.add_zero]⟩
  | dequeue =>
    obtain ⟨items', hinv, hsurplus⟩ := h.dequeue t
    exact ⟨items', hinv, by rw [hsurplus, if_neg nofun, Int.add_zero]⟩
  | shutdown =>
    exact ⟨items, ⟨h.holds, h.pending.keep rfl (fun _ h => h) fun _ _ => rfl, h.log, h.sound⟩,
      (Int.add_zero _).symm⟩
  | length => exact ⟨items, h, (Int.add_zero _).symm⟩
  | cleanup =>
    obtain ⟨hinv, hcount⟩ := h.cleanup t
    refine ⟨[], hinv, ?_⟩
    rw [surplus, surplus, hcount, if_pos rfl, List.length_nil]
    omega

end Threads

/-- In every state of a run, the pointers to the first and the last item are both null or not. The
    items are a chain of nodes at different addresses, and the descriptors that have been enqueued
    are, in order, those that `dequeue_work` returned or `queue_cleanup` closed, and then those of
    the items. `dequeue_work` returns -1 only if there are no items after a shutdown. No memory is
    used that is not allocated. -/
theorem queue_delivers {T : Type*} [DecidableEq T] {s : Threads T}
    (h : Interleave.Runs Threads.step (fun _ _ => True) .init s) :
    (s.queue.queueHead = none ↔ s.queue.queueTail = none) ∧
      (∃ items, s.queue.Holds items ∧
        s.log.filterMap Event.added = s.log.filterMap Event.removed ++ items.map Prod.snd) ∧
      (∀ q, s.queue.dequeueWork = some (.returns (-1), q) →
        s.queue.shutdownFlag = true ∧ s.queue.queueHead = none) ∧
      s.sound = true := by
  obtain ⟨items, hinv⟩ : ∃ items, s.Inv items :=
    h.invariant (I := fun s : Threads T => ∃ items, s.Inv items) ⟨[], Threads.inv_init⟩
      fun _ t c ⟨_, hinv⟩ _ => (hinv.step t c).imp fun _ h => h.1
  refine ⟨hinv.holds.head_eq_none, ⟨items, hinv.holds, hinv.log⟩, fun q hq => ?_, hinv.sound⟩
  rcases hinv.holds.dequeueWork with ⟨_, hhead, hd⟩ | ⟨_, sockFd, _, _, _, hd, _⟩
  · rw [hd] at hq
    cases hflag : s.queue.shutdownFlag with
    | true => exact ⟨rfl, hhead⟩
    | false =>
      rw [hflag] at hq
      cases hq
  · have hreturn := (Prod.mk.inj (Option.some.inj (hd.symm.trans hq))).1
    injection hreturn with hv
    omega

/-- A descriptor is handed over, and then another one is enqueued and closed. -/
theorem queue_delivers_handover : (Interleave.exec Threads.step .init
    [(true, .malloc 7 (some 0)), (true, .enqueue), (false, .dequeue), (true, .malloc 8 (some 0)),
      (true, .enqueue), (false, .shutdown), (false, .cleanup), (true, .dequeue)]).sound = true :=
  (queue_delivers (Interleave.runs_exec _ [(true, .malloc 7 (some 0)), (true, .enqueue),
    (false, .dequeue), (true, .malloc 8 (some 0)), (true, .enqueue), (false, .shutdown),
    (false, .cleanup), (true, .dequeue)] fun _ _ => trivial)).2.2.2

/-! ## The counter -/

namespace Threads

variable {T : Type*} {s : Threads T} {items : List (ℕ × ℕ)}

/-- A thread takes a step. -/
def act [DecidableEq T] (m : T × QueueStep) (_ : Unit) (s : Threads T) : Threads T := step m.1 m.2 s

/-- `queue_length` is the number of items that are reached from `queue_head`. -/
def Counts (s : Threads T) : Prop :=
  ∃ items, Chain s.queue.node s.queue.queueHead items ∧ s.queue.queueLength = items.length

/-- The step is not `queue_cleanup` while there are items. -/
def CleansEmpty (s : Threads T) (m : T × QueueStep) : Prop :=
  m.2 = .cleanup → s.queue.queueHead = none

theorem Inv.counts_iff (h : s.Inv items) : s.Counts ↔ s.surplus items = 0 := by
  rw [surplus, sub_eq_zero]
  constructor
  · rintro ⟨items', hchain, hlength⟩
    rwa [hchain.unique h.holds.chain] at hlength
  · exact fun hlength => ⟨items, h.holds.chain, hlength⟩

theorem Inv.queueHead_eq_none (h : s.Inv items) : s.queue.queueHead = none ↔ items = [] := by
  refine ⟨h.holds.eq_nil, ?_⟩
  rintro rfl
  exact h.holds.chain.eq_none

/-- A step keeps the counter right if and only if it is not `queue_cleanup` while there are
    items. -/
theorem Inv.counts_act [DecidableEq T] (h : s.Inv items) (hcounts : s.Counts) (m : T × QueueStep) :
    (act m () s).Counts ↔ CleansEmpty s m := by
  obtain ⟨items', hinv, hsurplus⟩ := h.step m.1 m.2
  rw [h.counts_iff] at hcounts
  rw [act, hinv.counts_iff, hsurplus, hcounts, CleansEmpty, h.queueHead_eq_none, zero_add]
  split_ifs with hm
  · rw [Nat.cast_eq_zero, List.length_eq_zero_iff]
    exact ⟨fun hitems _ => hitems, fun hitems => hitems hm⟩
  · exact iff_of_true rfl fun h => absurd h hm

end Threads

/-- In runs in which `queue_cleanup` finds no items, `queue_length` is the number of items. After
    such a run, another step keeps it so if and only if it is not a `queue_cleanup` that finds
    items. -/
theorem queueLength_counts {T : Type*} [DecidableEq T] {s : Threads T}
    (h : Interleave.Runs Threads.act Threads.CleansEmpty .init s) :
    s.Counts ∧ ∀ m, (Threads.act m () s).Counts ↔ Threads.CleansEmpty s m := by
  obtain ⟨⟨items, hinv⟩, hcounts⟩ : (∃ items, s.Inv items) ∧ s.Counts := by
    refine h.invariant (I := fun s : Threads T => (∃ items, s.Inv items) ∧ s.Counts)
      ⟨⟨[], Threads.inv_init⟩, Threads.inv_init.counts_iff.2 rfl⟩
      fun s m _ ⟨⟨items, hs⟩, hc⟩ hm => ?_
    obtain ⟨items', hs', _⟩ := hs.step m.1 m.2
    exact ⟨⟨items', hs'⟩, (hs.counts_act hc m).2 hm⟩
  exact ⟨hcounts, hinv.counts_act hcounts⟩

/-- Two items are enqueued, and one is dequeued. -/
theorem queueLength_counts_handover :
    (Interleave.exec Threads.act .init
      [((true, .malloc 7 (some 0)), ()), ((true, .enqueue), ()), ((true, .malloc 8 (some 1)), ()),
        ((true, .enqueue), ()), ((false, .dequeue), ())]).Counts := by
  refine (queueLength_counts (Interleave.runs_exec _ _ fun k hk => ?_)).1
  change k < 5 at hk
  interval_cases k <;> exact fun h => by cases h

/-- `queue_cleanup` closes the only item, and `queue_length` is 1 afterwards. -/
theorem exists_not_counts :
    ¬ ∀ s, Interleave.Runs Threads.act (fun _ _ => True) (.init : Threads Bool) s → s.Counts := by
  intro h
  obtain ⟨items, hchain, hlength⟩ := h _ (Interleave.runs_exec _ [((true, .malloc 7 (some 0)), ()),
    ((true, .enqueue), ()), ((false, .cleanup), ())] fun _ _ => trivial)
  cases hchain
  cases hlength

end Cs5600.Db
