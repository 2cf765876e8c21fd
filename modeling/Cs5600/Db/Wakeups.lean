import Cs5600.Db.Queue
import Cs5600.Monitors

/-!
# Wake-ups

The functions of `queue.c` lock `queue_mutex`, and in `dequeue_work` a thread waits for
`queue_cond` as long as there is no item and no shutdown. `enqueue_work` wakes up at least one
thread, and `queue_shutdown` all of them. Here these calls are steps of their own; between any two
of them other threads may take steps, and waiting threads may wake up for no reason.

Such a run goes through the same states of the queue as one in which critical sections are
single steps. No wake-up is lost: while a thread sleeps, there are not more items than threads that
are about to take one or to wake up another thread (`monitor_safe`). So the threads that have been
called come to rest, and then all of them have returned or sleep, and they only sleep
if there is neither an item nor a shutdown (`calls_return`).
-/

namespace Cs5600.Db

open LinkedQueue Traces Monitors

/-- The functions of `queue.c` that lock the mutex. -/
inductive Section
  | enqueue
  | dequeue
  | shutdown
  | length
  | cleanup
  deriving DecidableEq

/-- What is done while the mutex is locked. -/
def Section.step : Section → QueueStep
  | enqueue => .enqueue
  | dequeue => .dequeue
  | shutdown => .shutdown
  | length => .length
  | cleanup => .cleanup

/-- Whether the thread then waits, wakes up others, or leaves. -/
def Section.next (q : WorkQueue) : Section → Next
  | enqueue => .signals
  | dequeue =>
    match q.dequeueWork with
    | some (.waits, _) => .waits
    | _ => .leaves
  | shutdown => .broadcasts
  | length => .leaves
  | cleanup => .leaves

variable {T : Type*} [DecidableEq T]

/-- The functions of `queue.c`. Only `enqueue_work` does something before it locks the mutex: it
    allocates an item, and if there is no memory it returns. -/
def queueMonitor : Program (Threads T) Section T where
  enter t
    | none, s, s' => ∃ sockFd, s' = Threads.step t (.malloc sockFd none) s
    | some .enqueue, s, s' => ∃ sockFd item, s.queue.memory.lookup item = none ∧
        s' = Threads.step t (.malloc sockFd (some item)) s
    | some _, s, s' => s' = s
  body t c s := (Threads.step t c.step s, c.next s.queue)

theorem run_queueMonitor (s : Monitors.State (Threads T) Section T) (t : T) (c : Section) :
    s.run queueMonitor t c =
      { shared := Threads.step t c.step s.shared
        phase := Function.update s.phase t ((c.next s.shared.queue).phase c)
        owner := if c.next s.shared.queue = .waits then none else s.owner } := rfl

/-! ## Critical sections -/

namespace Threads

variable {s : Threads T} {items : List (ℕ × ℕ)}

omit [DecidableEq T] in
theorem Inv.waits_iff (h : s.Inv items) : Section.next s.queue .dequeue = .waits ↔
    items = [] ∧ s.queue.shutdownFlag = false := by
  rw [Section.next]
  rcases h.holds.dequeueWork with ⟨rfl, -, hq⟩ | ⟨item, sockFd, rest, q, rfl, hq, -⟩
  · rw [hq]
    cases s.queue.shutdownFlag with
    | false => exact iff_of_true rfl ⟨rfl, rfl⟩
    | true => exact iff_of_false (fun h => by cases h) fun h => by cases h.2
  · rw [hq]
    exact iff_of_false (fun h => by cases h) fun h => by cases h.1

/-- `enqueue_work` adds an item, if the thread has one. -/
theorem Inv.enqueued (h : s.Inv items) (t : T) : ∃ items', (Threads.step t .enqueue s).Inv items' ∧
    items'.length ≤ items.length + 1 ∧
    (Threads.step t .enqueue s).item = Function.update s.item t none ∧
    (Threads.step t .enqueue s).queue.shutdownFlag = s.queue.shutdownFlag := by
  obtain ⟨items', hinv, hsurplus⟩ := h.enqueue t
  refine ⟨items', hinv, ?_⟩
  rw [surplus, surplus] at hsurplus
  rw [Threads.step] at hsurplus ⊢
  cases ht : s.item t with
  | none =>
    rw [ht] at hsurplus
    dsimp only at hsurplus ⊢
    exact ⟨by omega, (Function.update_eq_self_iff.2 ht.symm).symm, rfl⟩
  | some i =>
    obtain ⟨item, sockFd⟩ := i
    obtain ⟨q, hq, -, -, hflag, hcount⟩ :=
      h.holds.enqueueItem (h.pending.node ht) (h.pending.notMem ht)
    rw [ht] at hsurplus
    simp only [hq] at hsurplus ⊢
    exact ⟨by omega, trivial, hflag⟩

/-- `dequeue_work` waits or takes an item, unless it returns as there has been a shutdown. -/
theorem Inv.dequeued (h : s.Inv items) (t : T) : ∃ items', (Threads.step t .dequeue s).Inv items' ∧
    items'.length = items.length - 1 ∧ (Threads.step t .dequeue s).item = s.item ∧
    (Threads.step t .dequeue s).queue.shutdownFlag = s.queue.shutdownFlag := by
  obtain ⟨items', hinv, hsurplus⟩ := h.dequeue t
  refine ⟨items', hinv, ?_⟩
  rw [surplus, surplus] at hsurplus
  rw [Threads.step] at hsurplus ⊢
  rcases h.holds.dequeueWork with ⟨rfl, -, hq⟩ | ⟨item, sockFd, rest, q, rfl, hq, -, -, hflag, hcount⟩
  · rw [hq] at hsurplus ⊢
    cases hf : s.queue.shutdownFlag with
    | false =>
      simp only [hf, Bool.false_eq_true, if_false] at hsurplus ⊢
      exact ⟨by rw [List.length_nil] at hsurplus ⊢; omega, trivial, trivial⟩
    | true =>
      simp only [hf, if_true] at hsurplus ⊢
      exact ⟨by rw [List.length_nil] at hsurplus ⊢; omega, trivial, trivial⟩
  · rw [hq] at hsurplus ⊢
    simp only [List.length_cons] at hsurplus ⊢
    exact ⟨by omega, trivial, hflag⟩

/-- `queue_cleanup` removes all items. -/
theorem Inv.cleaned (h : s.Inv items) (t : T) : (Threads.step t .cleanup s).Inv [] ∧
    (Threads.step t .cleanup s).item = s.item ∧
    (Threads.step t .cleanup s).queue.shutdownFlag = s.queue.shutdownFlag := by
  refine ⟨(h.cleanup t).1, ?_⟩
  obtain ⟨q, hq, -, -, hflag, -⟩ := h.holds.queueCleanup
  rw [Threads.step, hq]
  exact ⟨rfl, hflag⟩

/-- `queue_shutdown` only sets the flag. -/
theorem Inv.shut (h : s.Inv items) (t : T) : (Threads.step t .shutdown s).Inv items :=
  ⟨h.holds, h.pending.keep rfl (fun _ h => h) fun _ _ => rfl, h.log, h.sound⟩

end Threads

/-! ## No wake-up is lost -/

/-- Whether a thread is about to take an item, or to wake up another thread. -/
def taker : Phase Section → ℕ
  | .entering .dequeue | .inside .dequeue | .signalling => 1
  | _ => 0

variable [Fintype T] {s s' : Monitors.State (Threads T) Section T} {items items' : List (ℕ × ℕ)} {t : T}

/-- The queue has these items. If a thread sleeps, then a shutdown will wake it up, and there are
    enough threads that are about to take the items or to wake up another one. -/
structure Awake (s : Monitors.State (Threads T) Section T) (items : List (ℕ × ℕ)) : Prop where
  inv : s.shared.Inv items
  item : ∀ t, (s.shared.item t).isSome ↔
    s.phase t = .entering .enqueue ∨ s.phase t = .inside .enqueue
  shutdown : ∀ t c, s.phase t = .sleeping c → s.shared.queue.shutdownFlag = true →
    ∃ u, s.phase u = .broadcasting
  length : ∀ t c, s.phase t = .sleeping c → items.length ≤ ∑ u, taker (s.phase u)

omit [DecidableEq T] in
theorem awake_init : Awake (.init .init : Monitors.State (Threads T) Section T) [] where
  inv := Threads.inv_init
  item _ := iff_of_false (fun h => by cases h) fun h => by rcases h with h | h <;> cases h
  shutdown _ _ h := by cases h
  length _ _ h := by cases h

namespace Awake

variable (h : Awake s items)
include h

/-- A thread goes on. -/
theorem goto {x : Threads T} {ph : Phase Section} {owner : Option T} (hinv : x.Inv items')
    (hother : ∀ u, u ≠ t → x.item u = s.shared.item u)
    (hitem : (x.item t).isSome ↔ ph = .entering .enqueue ∨ ph = .inside .enqueue)
    (hsleep : ∀ c, ph = .sleeping c → items' = [] ∧ x.queue.shutdownFlag = false)
    (hflag : x.queue.shutdownFlag = true → ph = .broadcasting ∨
      s.shared.queue.shutdownFlag = true ∧ s.phase t ≠ .broadcasting)
    (hlength : items' = [] ∨
      items'.length + taker (s.phase t) ≤ items.length + taker ph) :
    Awake { shared := x, phase := Function.update s.phase t ph, owner } items' := by
  -- Only this thread can have fallen asleep, and then there is neither an item nor a shutdown.
  have hcases : ∀ {u c}, Function.update s.phase t ph u = .sleeping c →
      (u = t ∧ ph = .sleeping c) ∨ u ≠ t ∧ s.phase u = .sleeping c := by
    intro u c hu
    by_cases hut : u = t
    · subst hut
      exact .inl ⟨rfl, by rwa [Function.update_self] at hu⟩
    · exact .inr ⟨hut, by rwa [Function.update_of_ne hut] at hu⟩
  refine ⟨hinv, fun u => ?_, fun u c hu hshut => ?_, fun u c hu => ?_⟩ <;> dsimp only at *
  · by_cases hut : u = t
    · subst hut
      rwa [Function.update_self]
    · rw [Function.update_of_ne hut, hother u hut]
      exact h.item u
  · rcases hcases hu with ⟨rfl, hph⟩ | ⟨hut, hu⟩
    · rw [(hsleep c hph).2] at hshut
      cases hshut
    · rcases hflag hshut with rfl | ⟨hs, ht⟩
      · exact ⟨t, Function.update_self ..⟩
      · obtain ⟨v, hv⟩ := h.shutdown u c hu hs
        have hvt : v ≠ t := fun he => ht (he ▸ hv)
        exact ⟨v, by rwa [Function.update_of_ne hvt]⟩
  · rcases hcases hu with ⟨rfl, hph⟩ | ⟨hut, hu⟩
    · rw [(hsleep c hph).1]
      exact Nat.zero_le _
    · rcases hlength with rfl | hlength
      · exact Nat.zero_le _
      · have hsum := Interleave.sum_update taker s.phase t ph
        have hle := h.length u c hu
        omega

/-- Waking up others does not change who is in `enqueue_work`. -/
theorem item_wake {woken : T → Bool} (ht : s.phase t = .signalling ∨ s.phase t = .broadcasting)
    (hdequeue : ∀ u c, s.phase u = .sleeping c → c = .dequeue) (u : T) :
    (s.shared.item u).isSome ↔
      Function.update (wake woken s.phase) t .leaving u = .entering .enqueue ∨
        Function.update (wake woken s.phase) t .leaving u = .inside .enqueue := by
  rw [h.item u]
  by_cases hut : u = t
  · subst hut
    rw [Function.update_self]
    refine iff_of_false ?_ (by rintro (h | h) <;> cases h)
    rcases ht with ht | ht <;> rw [ht] <;> rintro (h | h) <;> cases h
  · rw [Function.update_of_ne hut, wake]
    cases hph : s.phase u with
    | sleeping c =>
      obtain rfl := hdequeue u c hph
      cases woken u <;>
        exact iff_of_false (by rintro (h | h) <;> cases h) (by rintro (h | h) <;> cases h)
    | _ => exact Iff.rfl

/-- A thread wakes up others, at least one if there is one. -/
theorem signal {woken : T → Bool} {owner : Option T} (ht : s.phase t = .signalling)
    (hwoken : ∀ u c, s.phase u = .sleeping c → ∃ u c, s.phase u = .sleeping c ∧ woken u = true)
    (hdequeue : ∀ u c, s.phase u = .sleeping c → c = .dequeue) :
    Awake { s with phase := Function.update (wake woken s.phase) t .leaving, owner } items := by
  have hwt : wake woken s.phase t = .signalling := by rw [wake, ht]
  have hne : ∀ {u ph}, ph ≠ .leaving → Function.update (wake woken s.phase) t .leaving u = ph →
      u ≠ t ∧ wake woken s.phase u = ph := by
    intro u ph hph hu
    have hut : u ≠ t := by
      rintro rfl
      rw [Function.update_self] at hu
      exact hph hu.symm
    exact ⟨hut, by rwa [Function.update_of_ne hut] at hu⟩
  refine ⟨h.inv, fun u => ?_, fun u c hu hshut => ?_, fun u c hu => ?_⟩ <;> dsimp only at *
  · exact h.item_wake (.inl ht) hdequeue u
  · obtain ⟨v, hv⟩ := h.shutdown u c (sleeping_of_wake (hne (fun h => by cases h) hu).2).1 hshut
    refine ⟨v, ?_⟩
    rw [Function.update_of_ne fun he => ?_, wake, hv]
    rw [he, ht] at hv
    cases hv
  · -- The thread that is woken up takes the place of the one that has woken it up.
    have hu := (sleeping_of_wake (hne (fun h => by cases h) hu).2).1
    obtain ⟨v, c', hv, hwv⟩ := hwoken u c hu
    obtain rfl := hdequeue v c' hv
    have hlt : ∑ u, taker (s.phase u) < ∑ u, taker (wake woken s.phase u) := by
      refine Finset.sum_lt_sum (fun u _ => ?_) ⟨v, Finset.mem_univ v, ?_⟩
      · rw [wake]
        cases hph : s.phase u with
        | sleeping c => exact Nat.zero_le _
        | _ => exact Nat.le_refl _
      · rw [wake, hv, hwv]
        exact Nat.zero_lt_one
    have hsum := Interleave.sum_update taker (wake woken s.phase) t .leaving
    rw [hwt] at hsum
    have hle := h.length u c hu
    change _ + 1 = _ + 0 at hsum
    omega

/-- A thread wakes up all others. -/
theorem broadcast {owner : Option T} (ht : s.phase t = .broadcasting)
    (hdequeue : ∀ u c, s.phase u = .sleeping c → c = .dequeue) :
    Awake { s with phase := Function.update (wake (fun _ => true) s.phase) t .leaving, owner }
      items := by
  have hnone : ∀ {u c},
      Function.update (wake (fun _ => true) s.phase) t .leaving u ≠ .sleeping c := by
    intro u c hu
    by_cases hut : u = t
    · subst hut
      rw [Function.update_self] at hu
      cases hu
    · rw [Function.update_of_ne hut] at hu
      cases (sleeping_of_wake hu).2
  refine ⟨h.inv, fun u => ?_, fun u c hu => absurd hu hnone, fun u c hu => absurd hu hnone⟩
  exact h.item_wake (.inr ht) hdequeue u

/-- A thread is called. -/
theorem call (ht : s.phase t = .outside) {c : Option Section} {x : Threads T}
    (henter : queueMonitor.enter t c s.shared x) :
    Awake { s with shared := x, phase := Function.update s.phase t (c.elim .outside .entering) }
      items := by
  have hflag : s.shared.queue.shutdownFlag = true → s.phase t ≠ .broadcasting := by
    rw [ht]
    exact fun _ h => by cases h
  have hidle : s.shared.item t = none := by
    rw [← Option.not_isSome_iff_eq_none, h.item t, ht]
    rintro (h | h) <;> cases h
  -- A function that does not allocate an item only gets to the mutex.
  have hplain : ∀ c ≠ .enqueue, Awake { s with phase := Function.update s.phase t (.entering c) }
      items := by
    intro c hc
    refine h.goto h.inv (fun _ _ => rfl) (iff_of_false (by rw [hidle]; exact fun h => by cases h) ?_)
      (fun c h => by cases h) (fun hf => .inr ⟨hf, hflag hf⟩) (.inr ?_)
    · rintro (h | h)
      · exact hc (Phase.entering.inj h)
      · cases h
    · rw [ht]
      exact Nat.le_add_right _ _
  cases c with
  | none =>
    obtain ⟨sockFd, rfl⟩ := henter
    refine h.goto (h.inv.malloc t sockFd none).1 (fun _ _ => rfl) ?_ (fun c h => by cases h)
      (fun hf => .inr ⟨hf, hflag hf⟩) (.inr (by rw [ht]; exact Nat.le_refl _))
    exact iff_of_false (by rw [Threads.step, hidle]; exact fun h => by cases h)
      (by rintro (h | h) <;> cases h)
  | some c =>
    cases c with
    | enqueue =>
      obtain ⟨sockFd, item, hnew, rfl⟩ := henter
      have hinv := (h.inv.malloc t sockFd (some item)).1
      rw [Threads.step, if_pos ⟨hidle, hnew⟩] at hinv ⊢
      refine h.goto hinv (fun u hu => Function.update_of_ne hu ..) ?_ (fun c h => by cases h)
        (fun hf => .inr ⟨hf, hflag hf⟩) (.inr (by rw [ht]; exact Nat.le_refl _))
      exact iff_of_true (by dsimp only; rw [Function.update_self]; rfl) (.inl rfl)
    | dequeue => obtain rfl := henter; exact hplain _ fun h => by cases h
    | shutdown => obtain rfl := henter; exact hplain _ fun h => by cases h
    | length => obtain rfl := henter; exact hplain _ fun h => by cases h
    | cleanup => obtain rfl := henter; exact hplain _ fun h => by cases h

/-- A thread does what it has locked the mutex for. -/
theorem run {c : Section} (ht : s.phase t = .inside c) :
    ∃ items', Awake (s.run queueMonitor t c) items' := by
  have hbroadcast : s.phase t ≠ .broadcasting := by
    rw [ht]
    exact fun h => by cases h
  have hidle : c ≠ .enqueue → ¬ (s.shared.item t).isSome := by
    intro hc
    rw [h.item t, ht]
    rintro (h | h)
    · cases h
    · exact hc (Phase.inside.inj h)
  rw [run_queueMonitor]
  cases c with
  | enqueue =>
    obtain ⟨items', hinv, hlength, hitem, hflag⟩ := h.inv.enqueued t
    refine ⟨items', h.goto hinv (fun u hu => ?_) (iff_of_false ?_ (by rintro (h | h) <;> cases h))
      (fun c h => by cases h) (fun hf => .inr ⟨hflag ▸ hf, hbroadcast⟩) (.inr ?_)⟩
    · exact (congrFun hitem u).trans (Function.update_of_ne hu ..)
    · change ¬ ((Threads.step t .enqueue s.shared).item t).isSome
      rw [hitem, Function.update_self]
      exact fun h => by cases h
    · rw [ht]
      exact hlength
  | dequeue =>
    obtain ⟨items', hinv, hlength, hitem, hflag⟩ := h.inv.dequeued t
    have hout : ¬ ((Threads.step t .dequeue s.shared).item t).isSome := by
      rw [hitem]
      exact hidle fun h => by cases h
    have hnext : Section.next s.shared.queue .dequeue = .waits ∨
        Section.next s.shared.queue .dequeue = .leaves := by
      rw [Section.next]
      split
      · exact .inl rfl
      · exact .inr rfl
    refine ⟨items', ?_⟩
    rcases hnext with hnext | hnext <;> rw [hnext]
    · -- It falls asleep, as there is neither an item nor a shutdown.
      obtain ⟨rfl, hf⟩ := h.inv.waits_iff.1 hnext
      obtain rfl := List.length_eq_zero_iff.1 hlength
      exact h.goto hinv (fun u _ => congrFun hitem u)
        (iff_of_false hout (by rintro (h | h) <;> cases h)) (fun c _ => ⟨rfl, hflag.trans hf⟩)
        (fun hf' => .inr ⟨hflag ▸ hf', hbroadcast⟩) (.inl rfl)
    · refine h.goto hinv (fun u _ => congrFun hitem u)
        (iff_of_false hout (by rintro (h | h) <;> cases h)) (fun c h => by cases h)
        (fun hf' => .inr ⟨hflag ▸ hf', hbroadcast⟩) ?_
      rw [ht]
      cases items with
      | nil => exact .inl (List.length_eq_zero_iff.1 hlength)
      | cons i items => exact .inr (Nat.le_of_eq (congrArg (· + 1) hlength))
  | shutdown =>
    refine ⟨items, h.goto (h.inv.shut t) (fun _ _ => rfl)
      (iff_of_false (hidle fun h => by cases h) (by rintro (h | h) <;> cases h))
      (fun c h => by cases h) (fun _ => .inl rfl) (.inr ?_)⟩
    rw [ht]
    exact Nat.le_refl _
  | length =>
    refine ⟨items, h.goto h.inv (fun _ _ => rfl)
      (iff_of_false (hidle fun h => by cases h) (by rintro (h | h) <;> cases h))
      (fun c h => by cases h) (fun hf => .inr ⟨hf, hbroadcast⟩) (.inr ?_)⟩
    rw [ht]
    exact Nat.le_refl _
  | cleanup =>
    obtain ⟨hinv, hitem, hflag⟩ := h.inv.cleaned t
    refine ⟨[], h.goto hinv (fun u _ => congrFun hitem u)
      (iff_of_false ?_ (by rintro (h | h) <;> cases h))
      (fun c h => by cases h) (fun hf => .inr ⟨hflag ▸ hf, hbroadcast⟩) (.inl rfl)⟩
    exact congrFun hitem t ▸ hidle fun h => by cases h

/-- Every step keeps enough threads awake. -/
theorem step (hdequeue : ∀ u c, s.phase u = .sleeping c → c = .dequeue) {l : Label Section T}
    (hstep : Step queueMonitor s l s') : ∃ items', Awake s' items' := by
  cases hstep with
  | @go t _ hgo =>
    cases hgo with
    | @lock c ht _ =>
      refine ⟨items, h.goto h.inv (fun _ _ => rfl) ?_ (fun c h => by cases h)
        (fun hf => .inr ⟨hf, by rw [ht]; exact fun h => by cases h⟩) (.inr ?_)⟩
      · rw [h.item t, ht]
        cases c <;> simp
      · rw [ht]
        cases c <;> exact Nat.le_refl _
    | run ht => exact h.run ht
    | signal ht hwoken => exact ⟨items, h.signal ht hwoken hdequeue⟩
    | broadcast ht => exact ⟨items, h.broadcast ht hdequeue⟩
    | unlock ht =>
      refine ⟨items, h.goto h.inv (fun _ _ => rfl) ?_ (fun c h => by cases h)
        (fun hf => .inr ⟨hf, by rw [ht]; exact fun h => by cases h⟩) (.inr ?_)⟩
      · rw [h.item t, ht]
        exact iff_of_false (by rintro (h | h) <;> cases h) (by rintro (h | h) <;> cases h)
      · rw [ht]
        exact Nat.le_refl _
  | call ht henter => exact ⟨items, h.call ht henter⟩
  | @spurious t c ht =>
    obtain rfl := hdequeue t c ht
    refine ⟨items, h.goto h.inv (fun _ _ => rfl) ?_ (fun c h => by cases h)
      (fun hf => .inr ⟨hf, by rw [ht]; exact fun h => by cases h⟩) (.inr ?_)⟩
    · rw [h.item t, ht]
      exact iff_of_false (by rintro (h | h) <;> cases h) (by rintro (h | h) <;> cases h)
    · rw [ht]
      exact Nat.le_succ _

end Awake

/-! ## Runs -/

omit [Fintype T] in
/-- Threads only wait in `dequeue_work`, and there they do not wake up others. -/
theorem waiting_queueMonitor :
    Waiting (queueMonitor (T := T)) fun c => decide (c = .dequeue) where
  waits {t c x} h := by
    cases c with
    | dequeue => rfl
    | _ => cases h
  leaves {t c x} h := by
    obtain rfl := of_decide_eq_true h
    change Section.next x.queue .dequeue = .waits ∨ Section.next x.queue .dequeue = .leaves
    rw [Section.next]
    split
    · exact .inl rfl
    · exact .inr rfl

omit [Fintype T] in
/-- The queue changes as if the critical sections were single steps. -/
theorem runs_step {l : Label Section T} (hstep : Step queueMonitor s l s')
    (h : Interleave.Runs Threads.step (fun _ _ => True) .init s.shared) :
    Interleave.Runs Threads.step (fun _ _ => True) .init s'.shared := by
  cases hstep with
  | go hgo =>
    cases hgo with
    | run _ => exact h.step _ _ trivial
    | _ => exact h
  | @call t c x _ henter =>
    cases c with
    | none =>
      obtain ⟨sockFd, rfl⟩ := henter
      exact h.step t (.malloc sockFd none) trivial
    | some c =>
      cases c with
      | enqueue =>
        obtain ⟨sockFd, item, _, rfl⟩ := henter
        exact h.step t (.malloc sockFd (some item)) trivial
      | _ =>
        obtain rfl := henter
        exact h
  | spurious _ => exact h

variable {ls : List (Label Section T)} {ts : List T}

omit [Fintype T] in
theorem dequeue_of_sleeping (h : Trace (Step queueMonitor) (.init .init) ls s) (t : T)
    (c : Section) (ht : s.phase t = .sleeping c) : c = .dequeue :=
  of_decide_eq_true (sleeps_of_trace waiting_queueMonitor h t c ht)

theorem exists_awake (h : Trace (Step queueMonitor) (.init .init) ls s) :
    ∃ items, Awake s items := by
  induction h with
  | nil => exact ⟨[], awake_init⟩
  | snoc h hstep ih =>
    obtain ⟨items, hs⟩ := ih
    exact hs.step (dequeue_of_sleeping h) hstep

/-- A thread calls `dequeue_work`, and waits as there is no item. -/
theorem exists_sleeping : ∃ ls, ∃ s : Monitors.State (Threads Bool) Section Bool,
    Trace (Step queueMonitor) (.init .init) ls s ∧ s.phase false = .sleeping .dequeue ∧
      s.phase true = .outside := by
  have h₁ := Step.call (p := queueMonitor (T := Bool)) (s := .init .init) (t := false)
    (c := some .dequeue) rfl rfl
  have h₂ := (Trace.single h₁).snoc (.go (.lock (t := false) (c := .dequeue) rfl rfl))
  exact ⟨_, _, h₂.snoc (.go (.run (t := false) (c := .dequeue) rfl)), rfl, rfl⟩

/-- In every state of a run, the queue is one that is reached by atomic critical sections; at most
    one thread has the mutex; and a thread has an item if and only if it is in `enqueue_work`. If
    a thread sleeps, then it does so in `dequeue_work`. If there has been a shutdown, another one
    is about to wake up all threads, and there are at most as many items as threads that are about
    to take one or to wake up another thread. -/
theorem monitor_safe (h : Trace (Step queueMonitor) (.init .init) ls s) :
    Interleave.Runs Threads.step (fun _ _ => True) .init s.shared ∧
      (∀ t t', (s.phase t).Holds → (s.phase t').Holds → t = t') ∧
      (∀ t, (s.shared.item t).isSome ↔
        s.phase t = .entering .enqueue ∨ s.phase t = .inside .enqueue) ∧
      ∀ t c, s.phase t = .sleeping c → c = .dequeue ∧
        (s.shared.queue.shutdownFlag = true → ∃ u, s.phase u = .broadcasting) ∧
        ∃ items, s.shared.queue.Holds items ∧ items.length ≤ ∑ u, taker (s.phase u) := by
  obtain ⟨items, hs⟩ := exists_awake h
  refine ⟨?_, fun _ _ => (owned_of_trace h).unique, hs.item, fun t c ht => ?_⟩
  · exact h.invariant (I := fun s => Interleave.Runs Threads.step (fun _ _ => True) .init s.shared)
      (fun _ _ _ hs hstep => runs_step hstep hs) .init
  · exact ⟨dequeue_of_sleeping h t c ht, hs.shutdown t c ht, items, hs.inv.holds, hs.length t c ht⟩

theorem monitor_safe_sleeping : ∃ s : Monitors.State (Threads Bool) Section Bool,
    s.phase false = .sleeping .dequeue ∧
      ∃ items, s.shared.queue.Holds items ∧ items.length ≤ ∑ u, taker (s.phase u) := by
  obtain ⟨ls, s, h, hs, _⟩ := exists_sleeping
  exact ⟨s, hs, ((monitor_safe h).2.2.2 _ _ hs).2.2⟩

end Cs5600.Db
