import Mathlib.Algebra.BigOperators.Group.Finset.Basic
import Mathlib.Data.Fintype.BigOperators
import Mathlib.Data.List.Induction
import Mathlib.Logic.Function.Basic

/-!
# Interleaved steps

A number of parties share a state. In any order, one of them takes a step, whose
outcome may depend on a choice that nobody controls. `Runs` are the states that
are reached in this way if a condition holds before every step, on the state
and on the party that takes the step; what holds at the beginning, and is kept
by such steps, holds in all of them (`Runs.invariant`). An invariant about any two
parties is kept if it holds between the one that takes a step and all others
(`pairwise_update`). What the parties count for changes by the one that takes the step
(`sum_update`).
-/

namespace Interleave

variable {σ ι α : Type*} {step : ι → α → σ → σ} {P Q : σ → ι → Prop} {s s' : σ}

/-- The states of runs from `s` in which `P` holds before every step. -/
inductive Runs (step : ι → α → σ → σ) (P : σ → ι → Prop) (s : σ) : σ → Prop
  | init : Runs step P s s
  | step {s' : σ} (c : ι) (a : α) : Runs step P s s' → P s' c → Runs step P s (step c a s')

theorem Runs.invariant {I : σ → Prop} (h0 : I s)
    (hstep : ∀ s c a, I s → P s c → I (step c a s)) (h : Runs step P s s') : I s' := by
  induction h with
  | init => exact h0
  | step c a _ hP ih => exact hstep _ c a ih hP

theorem Runs.mono (hPQ : ∀ s c, P s c → Q s c) (h : Runs step P s s') : Runs step Q s s' := by
  induction h with
  | init => exact .init
  | step c a _ hP ih => exact ih.step c a (hPQ _ c hP)

/-- The state after steps in a given order, with given choices. -/
def exec (step : ι → α → σ → σ) (s : σ) (sched : List (ι × α)) : σ :=
  sched.foldl (fun s ca => step ca.1 ca.2 s) s

/-- A run whose steps are in a given order, if the condition holds before each of them. -/
theorem runs_exec (s : σ) (sched : List (ι × α))
    (h : ∀ k (hk : k < sched.length), P (exec step s (sched.take k)) sched[k].1) :
    Runs step P s (exec step s sched) := by
  induction sched using List.reverseRecOn with
  | nil => exact .init
  | append_singleton sched ca ih =>
    have hlast := h sched.length (by rw [List.length_append]; exact Nat.lt_succ_self _)
    rw [List.take_left, List.getElem_concat_length rfl] at hlast
    rw [exec, List.foldl_append]
    refine (ih fun k hk => ?_).step ca.1 ca.2 hlast
    have hk' := h k (by rw [List.length_append]; exact Nat.lt_succ_of_lt hk)
    rwa [List.take_append_of_le_length (Nat.le_of_lt hk), List.getElem_append_left hk] at hk'

/-- What holds between any two parties still does when one of them changes. -/
theorem pairwise_update [DecidableEq ι] {κ : Type*} {R : κ → κ → Prop} (hR : ∀ k k', R k k' → R k' k)
    {f : ι → κ} (h : ∀ c c', c ≠ c' → R (f c) (f c')) {c : ι} {k : κ}
    (hk : ∀ c', c' ≠ c → R k (f c')) (a b : ι) (hab : a ≠ b) :
    R (Function.update f c k a) (Function.update f c k b) := by
  by_cases ha : a = c
  · subst ha
    rw [Function.update_self, Function.update_of_ne hab.symm]
    exact hk b hab.symm
  · rw [Function.update_of_ne ha]
    by_cases hb : b = c
    · subst hb
      rw [Function.update_self]
      exact hR _ _ (hk a ha)
    · rw [Function.update_of_ne hb]
      exact h a b hab

/-- What a sum over the parties becomes when one of them changes. -/
theorem sum_update [Fintype ι] [DecidableEq ι] {κ : Type*} (w : κ → ℕ) (f : ι → κ) (c : ι) (k : κ) :
    ∑ a, w (Function.update f c k a) + w (f c) = ∑ a, w (f a) + w k := by
  have hother : ∑ a ∈ Finset.univ.erase c, w (Function.update f c k a) =
      ∑ a ∈ Finset.univ.erase c, w (f a) :=
    Finset.sum_congr rfl fun a ha => by rw [Function.update_of_ne (Finset.ne_of_mem_erase ha)]
  rw [← Finset.add_sum_erase _ (fun a => w (Function.update f c k a)) (Finset.mem_univ c),
    ← Finset.add_sum_erase _ (fun a => w (f a)) (Finset.mem_univ c), hother, Function.update_self]
  omega

end Interleave
