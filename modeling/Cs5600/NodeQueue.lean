import Mathlib.Algebra.Order.BigOperators.Group.List
import Mathlib.Algebra.Order.Ring.Nat
import Mathlib.Data.List.AList
import Cs5600.LinkedQueue

/-!
# The queue of nodes

The functions of `queue.c` in `project0`, which keep a queue of pointers as a chain of
nodes in memory. A node is allocated when a pointer is enqueued, at any address that
is not in use, and freed when it is dequeued.

In every run of calls, no memory is used that is not allocated, and the queue behaves
as a list to which one adds at the end and from which one takes at the front
(`run_represents`). What else is in memory stays as it is.
-/

namespace Cs5600.NodeQueue

open LinkedQueue

variable {α : Type*}

/-! ## The functions of `queue.c` -/

/-- The nodes in memory. The value of a node is its `data`, a pointer that may be NULL. -/
abbrev Heap (α : Type*) := AList fun _ : ℕ => Node ℕ (Option α)

/-- Why a program stops. -/
inductive Stop
  /-- It exits, as there is no memory. -/
  | exit
  /-- It uses memory that is not allocated. -/
  | invalid

/-- The variables of a `queue_t`, and the nodes in memory. -/
structure Queue (α : Type*) where
  front : Option ℕ
  rear : Option ℕ
  heap : Heap α

/-- A node is read. -/
def readNode (heap : Heap α) (a : ℕ) : Except Stop (Node ℕ (Option α)) :=
  match heap.lookup a with
  | none => .error .invalid
  | some node => .ok node

/-- `init_queue`. -/
def initQueue (heap : Heap α) : Queue α where
  front := none
  rear := none
  heap := heap

/-- `enqueue`, in which `malloc` returns this address, or NULL. -/
def enqueue (q : Queue α) (address : Option ℕ) (element : Option α) : Except Stop (Queue α) :=
  match address with
  | none => .error .exit
  | some newNode =>
    let heap := q.heap.insert newNode { value := element, next := none }
    match q.rear with
    | none => .ok { front := some newNode, rear := some newNode, heap }
    | some rear => do
      let last ← readNode heap rear
      .ok { q with
        rear := some newNode
        heap := heap.insert rear { last with next := some newNode } }

/-- `dequeue`. -/
def dequeue (q : Queue α) : Except Stop (Option α × Queue α) :=
  match q.front with
  | none => .ok (none, q)
  | some temp => do
    let node ← readNode q.heap temp
    .ok (node.value,
      { front := node.next
        rear := if node.next = none then none else q.rear
        heap := q.heap.erase temp })

/-- `is_empty`. -/
def isEmpty (q : Queue α) : ℤ := if q.front = none then 1 else 0

/-! ## Runs -/

/-- A call of a function. -/
inductive Call (α : Type*)
  | enqueue (element : Option α)
  | dequeue

/-- What `malloc` returns in the call of this number: an address that is not in use. -/
structure Malloc (α : Type*) where
  address : ℕ → Heap α → ℕ
  notMem : ∀ k heap, address k heap ∉ heap

/-- Calls, from one that has this number on: what `dequeue` returns, and the queue after them. -/
def run (malloc : Malloc α) : ℕ → List (Call α) → Queue α → Except Stop (List (Option α) × Queue α)
  | _, [], q => .ok ([], q)
  | k, .enqueue element :: calls, q => do
    let q ← enqueue q (some (malloc.address k q.heap)) element
    run malloc (k + 1) calls q
  | k, .dequeue :: calls, q => do
    let (element, q) ← dequeue q
    let (elements, q) ← run malloc (k + 1) calls q
    .ok (element :: elements, q)

/-- The same calls on a list: what is taken from the front, which is NULL if the list is empty, and
    the list after them. -/
def fifo : List (Call α) → List (Option α) → List (Option α) × List (Option α)
  | [], pending => ([], pending)
  | .enqueue element :: calls, pending => fifo calls (pending ++ [element])
  | .dequeue :: calls, pending =>
    let (elements, rest) := fifo calls pending.tail
    (pending.head?.join :: elements, rest)

/-- One can always allocate memory after all that is in use. -/
instance instInhabitedMalloc : Inhabited (Malloc α) where
  default.address _ heap := heap.keys.sum + 1
  default.notMem _ heap := fun hmem => by
    have hle := List.single_le_sum (fun _ _ => Nat.zero_le _) _ (AList.mem_keys.1 hmem)
    omega

/-! ## The chain of nodes -/

/-- The node at an address. -/
def Queue.node (q : Queue α) (a : ℕ) : Option (Node ℕ (Option α)) := q.heap.lookup a

/-- The queue has these nodes, with their addresses and pointers. Apart from them, memory is as it was
    before `init_queue`. -/
structure Queue.Holds (q : Queue α) (before : Heap α) (items : List (ℕ × Option α)) : Prop where
  isQueue : IsQueue q.node q.front q.rear items
  new : ∀ a ∈ items.map Prod.fst, a ∉ before
  frame : ∀ a ∉ items.map Prod.fst, q.node a = before.lookup a

variable {q : Queue α} {before : Heap α} {items : List (ℕ × Option α)} {a : ℕ} {v : Option α}

theorem holds_initQueue (before : Heap α) : (initQueue before).Holds before [] where
  isQueue := IsQueue.empty _
  new := fun _ h => absurd h List.not_mem_nil
  frame := fun _ _ => rfl

namespace Queue.Holds

variable (h : q.Holds before items)
include h

/-- The nodes of the queue are what has been allocated since `init_queue`, and not been freed. -/
theorem mem_iff : a ∈ items.map Prod.fst ↔ a ∈ q.heap ∧ a ∉ before := by
  constructor
  · intro ha
    exact ⟨AList.lookup_isSome.1 (h.isQueue.chain.isSome a ha), h.new a ha⟩
  · rintro ⟨hheap, hbefore⟩
    by_contra hnot
    have hsome := AList.lookup_isSome.2 hheap
    have hnode : q.heap.lookup a = before.lookup a := h.frame a hnot
    rw [hnode] at hsome
    exact hbefore (AList.lookup_isSome.1 hsome)

/-- A node is added at the end. -/
theorem enqueue (ha : a ∉ q.heap) (v : Option α) :
    ∃ q', NodeQueue.enqueue q (some a) v = .ok q' ∧ q'.Holds before (items ++ [(a, v)]) := by
  have hnot : a ∉ items.map Prod.fst := fun hmem => ha (h.mem_iff.1 hmem).1
  have hbefore : a ∉ before := fun hmem => by
    have hnode : q.heap.lookup a = before.lookup a := h.frame a hnot
    rw [← AList.lookup_isSome, hnode, AList.lookup_isSome] at ha
    exact ha hmem
  have hnew : ∀ b ∈ (items ++ [(a, v)]).map Prod.fst, b ∉ before := by
    intro b hb
    rw [List.map_append, List.mem_append] at hb
    rcases hb with hb | hb
    · exact h.new b hb
    · rwa [List.mem_singleton.1 hb]
  rw [NodeQueue.enqueue]
  cases hrear : q.rear with
  | none =>
    -- The queue is empty, and the node is the first and the last one.
    obtain rfl := h.isQueue.eq_nil (h.isQueue.head_eq_none.2 hrear)
    refine ⟨_, rfl, IsQueue.single (AList.lookup_insert _), hnew, fun b hb => ?_⟩
    exact (AList.lookup_insert_ne (List.ne_of_not_mem_cons hb)).trans (h.frame b List.not_mem_nil)
  | some rear =>
    -- The last node now points to the new one.
    have hmem := h.isQueue.tail_mem hrear
    have hne : rear ≠ a := ne_of_mem_of_not_mem hmem hnot
    obtain ⟨last, hlast⟩ := Option.isSome_iff_exists.1 (h.isQueue.tail_isSome hrear)
    have hread : readNode (q.heap.insert a { value := v, next := none }) rear = .ok last := by
      rw [readNode, AList.lookup_insert_ne hne, show q.heap.lookup rear = some last from hlast]
    dsimp only
    rw [hread]
    refine ⟨_, rfl, ?_, hnew, fun b hb => ?_⟩
    · have hkeep : IsQueue (AList.lookup · (q.heap.insert a { value := v, next := none })) q.front
          q.rear items :=
        h.isQueue.congr fun b hb => AList.lookup_insert_ne (ne_of_mem_of_not_mem hb hnot)
      refine hkeep.push hrear (fun m hm => ?_) (fun b hb => AList.lookup_insert_ne hb)
        (AList.lookup_insert _) hnot
      obtain rfl := Option.some.inj (((AList.lookup_insert_ne hne).trans hlast).symm.trans hm)
      exact AList.lookup_insert _
    · rw [List.map_append, List.mem_append, not_or] at hb
      have hb' : b ≠ rear := fun he => hb.1 (he ▸ hmem)
      rw [Queue.node, AList.lookup_insert_ne hb', AList.lookup_insert_ne (List.ne_of_not_mem_cons hb.2)]
      exact h.frame b hb.1

/-- The first node is removed, unless there is none. -/
theorem dequeue : (items = [] ∧ NodeQueue.dequeue q = .ok (none, q)) ∨
    ∃ a n rest q', items = (a, n.value) :: rest ∧ q.front = some a ∧ q.node a = some n ∧
      NodeQueue.dequeue q = .ok (n.value, q') ∧ q'.Holds before rest ∧ q'.heap = q.heap.erase a := by
  rw [NodeQueue.dequeue]
  cases hfront : q.front with
  | none => exact .inl ⟨h.isQueue.eq_nil hfront, rfl⟩
  | some temp =>
    obtain ⟨n, rest, hn, rfl, hrest, hnot⟩ := h.isQueue.pop hfront
    have hread : readNode q.heap temp = .ok n := by
      rw [readNode, show q.heap.lookup temp = some n from hn]
    have hnew := h.new temp List.mem_cons_self
    dsimp only
    rw [hread]
    refine .inr ⟨temp, n, rest, _, rfl, rfl, hn, rfl,
      ⟨hrest.congr fun b hb => ?_, fun b hb => h.new b (List.mem_cons_of_mem _ hb), fun b hb => ?_⟩,
      rfl⟩
    · exact AList.lookup_erase_ne (ne_of_mem_of_not_mem hb hnot)
    · by_cases hbt : b = temp
      · rw [hbt, AList.lookup_eq_none.2 hnew]
        exact AList.lookup_erase _ _
      · refine (AList.lookup_erase_ne hbt).trans (h.frame b fun hmem => ?_)
        exact (List.mem_cons.1 hmem).elim hbt hb

theorem isEmpty_iff : isEmpty q ≠ 0 ↔ items = [] := by
  rw [isEmpty]
  split_ifs with hfront
  · exact iff_of_true (by decide) (h.isQueue.eq_nil hfront)
  · refine iff_of_false (by decide) ?_
    rintro rfl
    exact hfront h.isQueue.chain.eq_none

end Queue.Holds

/-! ## The queue and the list -/

/-- A run goes as on the list of what is pending. -/
theorem run_eq (malloc : Malloc α) (k : ℕ) (calls : List (Call α)) (h : q.Holds before items) :
    ∃ q' items', run malloc k calls q = .ok ((fifo calls (items.map Prod.snd)).1, q') ∧
      q'.Holds before items' ∧ items'.map Prod.snd = (fifo calls (items.map Prod.snd)).2 := by
  induction calls generalizing k q items with
  | nil => exact ⟨q, items, rfl, h, rfl⟩
  | cons call calls ih =>
    cases call with
    | enqueue element =>
      obtain ⟨q₁, henqueue, h₁⟩ := h.enqueue (malloc.notMem k q.heap) element
      obtain ⟨q', items', hrun, h', hpending⟩ := ih (k + 1) h₁
      rw [List.map_append] at hrun hpending
      refine ⟨q', items', ?_, h', hpending⟩
      rw [run, henqueue]
      exact hrun
    | dequeue =>
      rcases h.dequeue with ⟨rfl, hdequeue⟩ | ⟨a, n, rest, q₁, rfl, -, -, hdequeue, h₁, -⟩
      · -- Nothing is pending, and the queue stays as it is.
        obtain ⟨q', items', hrun, h', hpending⟩ := ih (k + 1) h
        refine ⟨q', items', ?_, h', hpending⟩
        rw [run, hdequeue]
        simp only [bind, Except.bind, hrun]
        rfl
      · obtain ⟨q', items', hrun, h', hpending⟩ := ih (k + 1) h₁
        refine ⟨q', items', ?_, h', hpending⟩
        rw [run, hdequeue]
        simp only [bind, Except.bind, hrun]
        rfl

/-- The queue is a chain of the nodes that have been allocated since `init_queue` and not been freed, and
    has these pointers in order. -/
structure Queue.Represents (q : Queue α) (before : Heap α) (pending : List (Option α)) : Prop where
  front_eq_none : q.front = none ↔ q.rear = none
  chain : ∃ items, Chain q.node q.front items ∧ (items.map Prod.fst).Nodup ∧
    (∀ a, a ∈ items.map Prod.fst ↔ a ∈ q.heap ∧ a ∉ before) ∧
    q.rear = items.getLast?.map Prod.fst ∧ items.map Prod.snd = pending
  rear_next : ∀ a, q.rear = some a → ∃ n, q.node a = some n ∧ n.next = none
  /-- `dequeue` returns the first pointer, or NULL, and frees its node. -/
  dequeue : ∃ q', dequeue q = .ok (pending.head?.join, q') ∧
    (pending = [] ∧ q' = q ∨
      ∃ a n, q.front = some a ∧ q.node a = some n ∧ pending.head? = some n.value ∧
        q'.heap = q.heap.erase a)
  isEmpty : isEmpty q ≠ 0 ↔ pending = []
  /-- What else is in memory is as before. -/
  frame : ∀ a ∈ before, q.node a = before.lookup a

theorem Queue.Holds.represents (h : q.Holds before items) :
    q.Represents before (items.map Prod.snd) where
  front_eq_none := h.isQueue.head_eq_none
  chain := ⟨items, h.isQueue.chain, h.isQueue.nodup, fun _ => h.mem_iff, h.isQueue.tail, rfl⟩
  rear_next := fun _ hrear => h.isQueue.exists_last hrear
  dequeue := by
    rcases h.dequeue with ⟨rfl, hdequeue⟩ | ⟨a, n, rest, q', rfl, hfront, hn, hdequeue, -, hheap⟩
    · exact ⟨q, hdequeue, .inl ⟨rfl, rfl⟩⟩
    · exact ⟨q', hdequeue, .inr ⟨a, n, hfront, hn, rfl, hheap⟩⟩
  isEmpty := h.isEmpty_iff.trans List.map_eq_nil_iff.symm
  frame := fun a ha => h.frame a fun hmem => h.new a hmem ha

/-- After any calls, `dequeue` has returned what was first in the list, and the queue represents the
    list. -/
theorem run_represents (malloc : Malloc α) (before : Heap α) (calls : List (Call α)) :
    ∃ q, run malloc 0 calls (initQueue before) = .ok ((fifo calls []).1, q) ∧
      q.Represents before (fifo calls []).2 := by
  obtain ⟨q, items, hrun, hq, hpending⟩ := run_eq malloc 0 calls (holds_initQueue before)
  exact ⟨q, hrun, hpending ▸ hq.represents⟩

end Cs5600.NodeQueue
