import Mathlib.Algebra.BigOperators.Group.Finset.Basic
import Mathlib.Algebra.Order.BigOperators.Group.Finset
import Mathlib.Data.Fintype.BigOperators
import Mathlib.Algebra.Order.Ring.Nat
import Mathlib.Tactic.Ring
import Cs5600.Traces

/-!
# Monitors

Threads share a state under a mutex, with one condition variable. In a critical section, a thread
may wait for the condition, and then it releases the mutex until it is woken up and has the mutex
again, or it may wake others up and leave. Wake-ups may be spurious.

At every time at most one thread is in a section (`Owned.unique`). If sections that wait are not
those that wake others up, then the threads that have been called do a bounded amount of work
(`Go.work_lt`), and they only stop when all of them have left or sleep (`Owned.stuck`).
-/

namespace Monitors

open Traces

/-- How a critical section goes on, after it has changed the shared state. -/
inductive Next
  | waits
  | signals
  | broadcasts
  | leaves
  deriving DecidableEq

/-- What threads do with a shared state. -/
structure Program (σ κ T : Type*) where
  /-- What a call may do without the mutex, before its critical section, or without one. -/
  enter : T → Option κ → σ → σ → Prop
  /-- A critical section. -/
  body : T → κ → σ → σ × Next

/-- Where a thread is. -/
inductive Phase (κ : Type*)
  | outside
  /-- Before it locks the mutex. -/
  | entering (c : κ)
  | inside (c : κ)
  /-- It waits for the condition in this section. -/
  | sleeping (c : κ)
  /-- Before it wakes up at least one thread. -/
  | signalling
  /-- Before it wakes up all threads. -/
  | broadcasting
  /-- Before it unlocks the mutex. -/
  | leaving
  deriving DecidableEq

/-- Whether a thread has the mutex. -/
def Phase.Holds {κ : Type*} : Phase κ → Prop
  | inside _ | signalling | broadcasting | leaving => True
  | _ => False

def Next.phase {κ : Type*} (c : κ) : Next → Phase κ
  | waits => .sleeping c
  | signals => .signalling
  | broadcasts => .broadcasting
  | leaves => .leaving

structure State (σ κ T : Type*) where
  shared : σ
  phase : T → Phase κ
  /-- The thread that has the mutex. -/
  owner : Option T

/-- No thread has been called. -/
def State.init {σ κ T : Type*} (x : σ) : State σ κ T where
  shared := x
  phase _ := .outside
  owner := none

/-- Some threads that sleep are woken up, and compete for the mutex. -/
def wake {κ T : Type*} (woken : T → Bool) (phase : T → Phase κ) (t : T) : Phase κ :=
  match phase t with
  | .sleeping c => if woken t then .entering c else .sleeping c
  | ph => ph

variable {σ κ T : Type*} [DecidableEq T] {p : Program σ κ T} {s s' : State σ κ T} {t : T} {c : κ}
  {woken : T → Bool}

/-- A thread does what its section says. -/
def State.run (s : State σ κ T) (p : Program σ κ T) (t : T) (c : κ) : State σ κ T :=
  let (shared, next) := p.body t c s.shared
  { shared
    phase := Function.update s.phase t (next.phase c)
    owner := if next = .waits then none else s.owner }

/-- A step of a thread that has been called. -/
inductive Go (p : Program σ κ T) (s : State σ κ T) (t : T) : State σ κ T → Prop
  | lock {c : κ} : s.phase t = .entering c → s.owner = none →
      Go p s t { s with phase := Function.update s.phase t (.inside c), owner := some t }
  | run {c : κ} : s.phase t = .inside c → Go p s t (s.run p t c)
  | signal {woken : T → Bool} : s.phase t = .signalling →
      (∀ u c, s.phase u = .sleeping c → ∃ u c, s.phase u = .sleeping c ∧ woken u = true) →
      Go p s t { s with phase := Function.update (wake woken s.phase) t .leaving }
  | broadcast : s.phase t = .broadcasting →
      Go p s t { s with phase := Function.update (wake (fun _ => true) s.phase) t .leaving }
  | unlock : s.phase t = .leaving →
      Go p s t { s with phase := Function.update s.phase t .outside, owner := none }

/-- What a step is. -/
inductive Label (κ T : Type*)
  | go (t : T)
  | call (t : T) (c : Option κ)
  | spurious (t : T)

/-- A step of the monitor. -/
inductive Step (p : Program σ κ T) (s : State σ κ T) : Label κ T → State σ κ T → Prop
  | go {t : T} {s' : State σ κ T} : Go p s t s' → Step p s (.go t) s'
  | call {t : T} {c : Option κ} {x : σ} : s.phase t = .outside → p.enter t c s.shared x →
      Step p s (.call t c)
        { s with
          shared := x
          phase := Function.update s.phase t (c.elim .outside .entering) }
  | spurious {t : T} {c : κ} : s.phase t = .sleeping c →
      Step p s (.spurious t) { s with phase := Function.update s.phase t (.entering c) }

/-! ## Mutual exclusion -/

/-- The owner of the mutex is the thread that is in a section. -/
def Owned (s : State σ κ T) : Prop := ∀ t, s.owner = some t ↔ (s.phase t).Holds

omit [DecidableEq T] in
theorem owned_init (x : σ) : Owned (.init x : State σ κ T) := fun _ =>
  iff_of_false (fun h => by cases h) id

omit [DecidableEq T] in
theorem Owned.unique (h : Owned s) {t t' : T} (ht : (s.phase t).Holds) (ht' : (s.phase t').Holds) :
    t = t' :=
  Option.some.inj (((h t).2 ht).symm.trans ((h t').2 ht'))

omit [DecidableEq T] in
theorem holds_wake (woken : T → Bool) (phase : T → Phase κ) (u : T) :
    (wake woken phase u).Holds ↔ (phase u).Holds := by
  rw [wake]
  cases phase u with
  | sleeping c => cases woken u <;> exact Iff.rfl
  | _ => exact Iff.rfl

/-- The mutex is released by the thread that has it, or is kept. -/
theorem Owned.release (h : Owned s) (ht : (s.phase t).Holds) {x : σ} {ph : Phase κ}
    (hph : ¬ ph.Holds) :
    Owned { shared := x, phase := Function.update s.phase t ph, owner := none } := by
  intro u
  refine iff_of_false (fun h => by cases h) ?_
  dsimp only
  by_cases hu : u = t
  · subst hu
    rwa [Function.update_self]
  · rw [Function.update_of_ne hu]
    exact fun hholds => hu (h.unique hholds ht)

theorem Owned.keep (h : Owned s) {x : σ} {phase : T → Phase κ} {ph : Phase κ}
    (hphase : ∀ u, (phase u).Holds ↔ (s.phase u).Holds) (hph : ph.Holds ↔ (s.phase t).Holds) :
    Owned { s with shared := x, phase := Function.update phase t ph } := by
  intro u
  refine (h u).trans ?_
  dsimp only
  by_cases hu : u = t
  · subst hu
    rw [Function.update_self]
    exact hph.symm
  · rw [Function.update_of_ne hu]
    exact (hphase u).symm

theorem Owned.go (h : Owned s) (hgo : Go p s t s') : Owned s' := by
  cases hgo with
  | @lock c hph hnone =>
    intro u
    dsimp only
    by_cases hu : u = t
    · subst hu
      exact iff_of_true rfl (by rw [Function.update_self]; exact trivial)
    · rw [Function.update_of_ne hu, ← h u, hnone]
      exact iff_of_false (fun he => hu (Option.some.inj he).symm) fun he => by cases he
  | @run c hph =>
    have ht : (s.phase t).Holds := by rw [hph]; exact trivial
    rw [State.run]
    cases hbody : p.body t c s.shared with
    | mk x next =>
      cases next with
      | waits => exact h.release ht id
      | signals => exact h.keep (fun _ => Iff.rfl) (iff_of_true trivial ht)
      | broadcasts => exact h.keep (fun _ => Iff.rfl) (iff_of_true trivial ht)
      | leaves => exact h.keep (fun _ => Iff.rfl) (iff_of_true trivial ht)
  | signal hph _ =>
    exact h.keep (holds_wake _ _) (iff_of_true trivial (by rw [hph]; exact trivial))
  | broadcast hph =>
    exact h.keep (holds_wake _ _) (iff_of_true trivial (by rw [hph]; exact trivial))
  | unlock hph => exact h.release (by rw [hph]; exact trivial) id

theorem Owned.step (h : Owned s) {l : Label κ T} (hstep : Step p s l s') : Owned s' := by
  cases hstep with
  | go hgo => exact h.go hgo
  | @call t c x hph _ =>
    refine h.keep (fun _ => Iff.rfl) (iff_of_false ?_ (by rw [hph]; exact id))
    cases c <;> exact id
  | spurious hph => exact h.keep (fun _ => Iff.rfl) (iff_of_false id (by rw [hph]; exact id))

/-! ## Progress -/

/-- If no thread can take a step, all of them are outside or asleep. -/
theorem Owned.stuck (h : Owned s) (hstuck : ∀ t s', ¬ Go p s t s') (t : T) :
    s.phase t = .outside ∨ ∃ c, s.phase t = .sleeping c := by
  -- The thread that has the mutex could take a step, so there is none.
  have hfree : ∀ u, ¬ (s.phase u).Holds := by
    intro u hu
    cases hph : s.phase u with
    | inside c => exact hstuck _ _ (.run hph)
    | signalling =>
      exact hstuck _ _ (@Go.signal _ _ _ _ _ _ _ (fun _ => true) hph fun u c hu => ⟨u, c, hu, rfl⟩)
    | broadcasting => exact hstuck _ _ (.broadcast hph)
    | leaving => exact hstuck _ _ (.unlock hph)
    | _ => rwa [hph] at hu
  have hnone : s.owner = none :=
    Option.eq_none_iff_forall_ne_some.2 fun u hu => hfree u ((h u).1 hu)
  cases hph : s.phase t with
  | outside => exact .inl rfl
  | sleeping c => exact .inr ⟨c, rfl⟩
  | entering c => exact absurd (.lock hph hnone) (hstuck _ _)
  | _ => exact absurd (by rw [hph]; exact trivial) (hfree t)

/-- The sections in which a thread may wait. In these it does not wake others up. -/
structure Waiting (p : Program σ κ T) (waiter : κ → Bool) : Prop where
  waits : ∀ {t c x}, (p.body t c x).2 = .waits → waiter c = true
  leaves : ∀ {t c x}, waiter c = true → (p.body t c x).2 = .waits ∨ (p.body t c x).2 = .leaves

/-- A thread sleeps in a section in which it may wait. -/
def Sleeps (waiter : κ → Bool) (s : State σ κ T) : Prop :=
  ∀ t c, s.phase t = .sleeping c → waiter c = true

omit [DecidableEq T] in
theorem sleeping_of_wake {phase : T → Phase κ} {u : T} (h : wake woken phase u = .sleeping c) :
    phase u = .sleeping c ∧ woken u = false := by
  rw [wake] at h
  cases hph : phase u with
  | sleeping c' =>
    rw [hph] at h
    cases hw : woken u with
    | true => rw [hw] at h; cases h
    | false => rw [hw] at h; exact ⟨h, rfl⟩
  | _ => rw [hph] at h; cases h

/-- Threads that sleep slept before, or have just begun to wait. -/
theorem Step.sleeping {l : Label κ T} (hstep : Step p s l s') {u : T}
    (hu : s'.phase u = .sleeping c) :
    s.phase u = .sleeping c ∨ (p.body u c s.shared).2 = .waits := by
  have hupdate : ∀ {t : T} {phase : T → Phase κ} {ph : Phase κ}, ph ≠ .sleeping c →
      Function.update phase t ph u = .sleeping c → phase u = .sleeping c := by
    intro t phase ph hne hu
    by_cases hut : u = t
    · subst hut
      rw [Function.update_self] at hu
      exact absurd hu hne
    · rwa [Function.update_of_ne hut] at hu
  cases hstep with
  | @go t _ hgo =>
    cases hgo with
    | lock _ _ => exact .inl (hupdate (fun h => by cases h) hu)
    | @run c' _ =>
      rw [State.run] at hu
      dsimp only at hu
      by_cases hut : u = t
      · subst hut
        rw [Function.update_self] at hu
        cases hnext : (p.body u c' s.shared).2 with
        | waits =>
          rw [hnext] at hu
          obtain rfl := Phase.sleeping.inj hu
          exact .inr hnext
        | _ => rw [hnext] at hu; cases hu
      · rw [Function.update_of_ne hut] at hu
        exact .inl hu
    | signal _ _ => exact .inl (sleeping_of_wake (hupdate (fun h => by cases h) hu)).1
    | broadcast _ => exact .inl (sleeping_of_wake (hupdate (fun h => by cases h) hu)).1
    | unlock _ => exact .inl (hupdate (fun h => by cases h) hu)
  | @call _ c' _ _ _ => exact .inl (hupdate (by cases c' <;> exact fun h => by cases h) hu)
  | spurious _ => exact .inl (hupdate (fun h => by cases h) hu)

theorem Sleeps.step {waiter : κ → Bool} (hp : Waiting p waiter) (h : Sleeps waiter s)
    {l : Label κ T} (hstep : Step p s l s') : Sleeps waiter s' := fun u c hu =>
  (hstep.sleeping hu).elim (h u c) hp.waits

/-! ## Work -/

/-- How many steps a thread still takes at most, and those that it wakes up, if there are this many
    threads. -/
def Phase.work (waiter : κ → Bool) (threads : ℕ) : Phase κ → ℕ
  | outside | sleeping _ => 0
  | leaving => 1
  | signalling | broadcasting => 3 * threads + 2
  | inside c => if waiter c then 2 else 3 * threads + 3
  | entering c => if waiter c then 3 else 3 * threads + 4

theorem Phase.work_le (waiter : κ → Bool) (threads : ℕ) (ph : Phase κ) :
    ph.work waiter threads ≤ 3 * threads + 4 := by
  cases ph <;> rw [work] <;> try split_ifs
  all_goals omega

variable [Fintype T] {waiter : κ → Bool}

/-- How many steps all threads still take at most. -/
def State.work (waiter : κ → Bool) (s : State σ κ T) : ℕ :=
  ∑ t, (s.phase t).work waiter (Fintype.card T)

omit [DecidableEq T] in
theorem State.work_le (s : State σ κ T) :
    s.work waiter ≤ Fintype.card T * (3 * Fintype.card T + 4) :=
  Finset.sum_le_card_nsmul _ _ _ fun _ _ => Phase.work_le _ _ _

/-- A sum decreases if a term decreases by more than the others increase. -/
theorem sum_lt_sum_of_add_lt {f g : T → ℕ} {k : ℕ} (ht : f t + k * Fintype.card T < g t)
    (hle : ∀ u, u ≠ t → f u ≤ g u + k) : ∑ u, f u < ∑ u, g u := by
  have hother : ∑ u ∈ Finset.univ.erase t, f u ≤
      ∑ u ∈ Finset.univ.erase t, g u + k * Fintype.card T :=
    calc ∑ u ∈ Finset.univ.erase t, f u
        ≤ ∑ u ∈ Finset.univ.erase t, (g u + k) :=
          Finset.sum_le_sum fun u hu => hle u (Finset.ne_of_mem_erase hu)
      _ = ∑ u ∈ Finset.univ.erase t, g u + (Finset.univ.erase t).card * k := by
          rw [Finset.sum_add_distrib, Finset.sum_const, Nat.nsmul_eq_mul]
      _ ≤ ∑ u ∈ Finset.univ.erase t, g u + k * Fintype.card T := by
          rw [Nat.mul_comm k]
          exact Nat.add_le_add_left (Nat.mul_le_mul_right k (Finset.card_le_univ _)) _
  rw [← Finset.add_sum_erase _ f (Finset.mem_univ t), ← Finset.add_sum_erase _ g (Finset.mem_univ t)]
  omega

omit [DecidableEq T] [Fintype T] in
/-- A thread that is woken up has three steps more. -/
theorem work_wake (h : Sleeps waiter s) (woken : T → Bool) (threads : ℕ) (u : T) :
    (wake woken s.phase u).work waiter threads ≤ (s.phase u).work waiter threads + 3 := by
  rw [wake]
  cases hph : s.phase u with
  | sleeping c =>
    cases woken u with
    | false => exact Nat.zero_le _
    | true =>
      change (if waiter c = true then 3 else _) ≤ 3
      rw [if_pos (h u c hph)]
  | _ => exact Nat.le_add_right _ _

/-- Work decreases if only this thread goes on. -/
theorem work_update_lt {x : σ} {ph : Phase κ} {owner : Option T}
    (h : ph.work waiter (Fintype.card T) < (s.phase t).work waiter (Fintype.card T)) :
    State.work waiter { shared := x, phase := Function.update s.phase t ph, owner } <
      s.work waiter := by
  refine sum_lt_sum_of_add_lt (t := t) (k := 0) ?_ fun u hu => ?_ <;> dsimp only
  · rwa [Nat.zero_mul, Nat.add_zero, Function.update_self]
  · rw [Function.update_of_ne hu, Nat.add_zero]

/-- Work decreases if a thread wakes others up, and then leaves. -/
theorem work_wake_lt (h : Sleeps waiter s)
    (hph : (s.phase t).work waiter (Fintype.card T) = 3 * Fintype.card T + 2) :
    State.work waiter { s with phase := Function.update (wake woken s.phase) t .leaving } <
      s.work waiter := by
  refine sum_lt_sum_of_add_lt (t := t) (k := 3) ?_ fun u hu => ?_ <;> dsimp only
  · rw [Function.update_self, hph]
    exact Nat.lt_of_lt_of_eq (Nat.lt_succ_self _) (by rw [Phase.work]; omega)
  · rw [Function.update_of_ne hu]
    exact work_wake h woken _ u

/-- Every step of the threads that have been called does some of the work. -/
theorem Go.work_lt (hp : Waiting p waiter) (h : Sleeps waiter s) (hgo : Go p s t s') :
    s'.work waiter < s.work waiter := by
  cases hgo with
  | @lock c hph _ =>
    refine work_update_lt ?_
    rw [hph, Phase.work, Phase.work]
    split_ifs <;> omega
  | @run c hph =>
    refine work_update_lt ?_
    rw [hph, Phase.work]
    cases hw : waiter c with
    | true =>
      rcases hp.leaves hw (t := t) (x := s.shared) with hnext | hnext <;> rw [hnext, if_pos rfl]
      · exact Nat.zero_lt_two
      · exact Nat.one_lt_two
    | false =>
      cases hnext : (p.body t c s.shared).2 with
      | waits => rw [hp.waits hnext] at hw; cases hw
      | signals => exact Nat.lt_succ_self _
      | broadcasts => exact Nat.lt_succ_self _
      | leaves => exact Nat.succ_lt_succ (Nat.succ_pos _)
  | signal hph _ => exact work_wake_lt h (by rw [hph]; rfl)
  | broadcast hph => exact work_wake_lt h (by rw [hph]; rfl)
  | unlock hph => exact work_update_lt (by rw [hph]; exact Nat.zero_lt_one)

/-! ## Runs -/

omit [Fintype T] in
theorem trace_go {x : σ} {ls : List (Label κ T)} {ts : List T} (h : Trace (Step p) (.init x) ls s)
    (hgo : Trace (Go p) s ts s') : ∃ ls, Trace (Step p) (.init x) ls s' := by
  induction hgo with
  | nil => exact ⟨ls, h⟩
  | snoc _ hgo ih =>
    obtain ⟨ls, h⟩ := ih
    exact ⟨_, h.snoc (.go hgo)⟩

omit [Fintype T] in
theorem owned_of_trace {x : σ} {ls : List (Label κ T)} (h : Trace (Step p) (.init x) ls s) :
    Owned s :=
  h.invariant (fun _ _ _ hs hstep => hs.step hstep) (owned_init x)

omit [Fintype T] in
theorem sleeps_of_trace (hp : Waiting p waiter) {x : σ} {ls : List (Label κ T)}
    (h : Trace (Step p) (.init x) ls s) : Sleeps waiter s :=
  h.invariant (fun _ _ _ hs hstep => hs.step hp hstep) fun _ _ h => by cases h

/-- In every state of a run, the threads that have been called only take so many steps. -/
theorem length_le_of_trace (hp : Waiting p waiter) {x : σ} {ls : List (Label κ T)}
    (h : Trace (Step p) (.init x) ls s) {ts : List T} (hgo : Trace (Go p) s ts s') :
    ts.length ≤ Fintype.card T * (3 * Fintype.card T + 4) := by
  have hle := hgo.length_add_le (I := Sleeps waiter) (m := State.work waiter)
    (fun _ _ _ hs hstep => hs.step hp (.go hstep)) (fun _ _ _ hs hstep => hstep.work_lt hp hs)
    (sleeps_of_trace hp h)
  have hwork : s.work waiter ≤ _ := s.work_le
  omega

end Monitors
