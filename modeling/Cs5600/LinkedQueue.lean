import Mathlib.Data.List.Nodup

/-!
# Linked queues

A queue in memory is a chain of nodes, with a pointer to the first one and to the
last one. The chain is what one visits by following the `next` pointers
(`Chain`), and its nodes are at different addresses (`IsQueue`). A node is added
at the end by changing the last one (`IsQueue.push`), and removed from the front
(`IsQueue.pop`).
-/

namespace LinkedQueue

variable {A α : Type*}

/-- A node, with a pointer to the next one. -/
structure Node (A α : Type*) where
  value : α
  next : Option A

/-- One visits nodes at these addresses, with these values, by following `next` from a pointer up to
    the null pointer. -/
inductive Chain (mem : A → Option (Node A α)) : Option A → List (A × α) → Prop
  | nil : Chain mem none []
  | cons {a : A} {n : Node A α} {items : List (A × α)} : mem a = some n →
      Chain mem n.next items → Chain mem (some a) ((a, n.value) :: items)

/-- The pointers to the first node and to the last one of a chain of nodes at different
    addresses. -/
structure IsQueue (mem : A → Option (Node A α)) (head tail : Option A) (items : List (A × α)) :
    Prop where
  chain : Chain mem head items
  tail : tail = items.getLast?.map Prod.fst
  nodup : (items.map Prod.fst).Nodup

variable {mem mem' : A → Option (Node A α)} {head tail p : Option A} {items : List (A × α)} {a b : A}
  {v : α}

theorem Chain.eq_nil (h : Chain mem none items) : items = [] := by
  cases h
  rfl

theorem Chain.eq_none (h : Chain mem p []) : p = none := by
  cases h
  rfl

theorem Chain.congr (h : Chain mem p items) (hmem : ∀ a ∈ items.map Prod.fst, mem' a = mem a) :
    Chain mem' p items := by
  induction h with
  | nil => exact .nil
  | cons ha _ ih =>
    exact .cons ((hmem _ List.mem_cons_self).trans ha)
      (ih fun b hb => hmem b (List.mem_cons_of_mem _ hb))

/-- There is one way to follow the `next` pointers. -/
theorem Chain.unique {items' : List (A × α)} (h : Chain mem p items) (h' : Chain mem p items') :
    items = items' := by
  induction h generalizing items' with
  | nil => exact h'.eq_nil.symm
  | cons ha _ ih =>
    cases h' with
    | cons ha' h' =>
      obtain rfl := Option.some.inj (ha.symm.trans ha')
      rw [ih h']

/-- The nodes of a chain are in memory. -/
theorem Chain.isSome (h : Chain mem p items) : ∀ a ∈ items.map Prod.fst, (mem a).isSome := by
  induction h with
  | nil => exact fun a ha => absurd ha List.not_mem_nil
  | cons ha _ ih =>
    intro b hb
    rcases List.mem_cons.1 hb with rfl | hb
    · rw [ha]
      rfl
    · exact ih b hb

/-- The last node of a chain has no next one. -/
theorem Chain.exists_last (h : Chain mem p items) (hb : items.getLast?.map Prod.fst = some b) :
    ∃ n, mem b = some n ∧ n.next = none := by
  induction h with
  | nil => cases hb
  | @cons c m items hc hrest ih =>
    cases items with
    | nil =>
      obtain rfl : c = b := Option.some.inj hb
      exact ⟨m, hc, hrest.eq_none⟩
    | cons i items =>
      rw [List.getLast?_cons_cons] at hb
      exact ih hb

/-- The last node of a chain gets a next one. -/
theorem Chain.concat (h : Chain mem p items) (hnodup : (items.map Prod.fst).Nodup)
    (hb : items.getLast?.map Prod.fst = some b)
    (hlast : ∀ m, mem b = some m → mem' b = some { m with next := some a })
    (hmem : ∀ c ∈ items.map Prod.fst, c ≠ b → mem' c = mem c)
    (ha : mem' a = some { value := v, next := none }) : Chain mem' p (items ++ [(a, v)]) := by
  induction h with
  | nil => cases hb
  | @cons c m items hc htail ih =>
    obtain ⟨hnot, hnodup⟩ := List.nodup_cons.1 hnodup
    cases items with
    | nil =>
      obtain rfl : c = b := Option.some.inj hb
      have hnew : Chain mem' (some a) [(a, v)] := .cons ha .nil
      have hchain := Chain.cons (hlast m hc) hnew
      exact hchain
    | cons i items =>
      rw [List.getLast?_cons_cons] at hb
      have hne : c ≠ b := by
        rintro rfl
        obtain ⟨j, hj, hjc⟩ := Option.map_eq_some_iff.1 hb
        exact hnot (List.mem_map.2 ⟨j, List.mem_of_getLast? hj, hjc⟩)
      exact .cons ((hmem c List.mem_cons_self hne).trans hc)
        (ih hnodup hb fun d hd => hmem d (List.mem_cons_of_mem _ hd))

namespace IsQueue

theorem empty (mem : A → Option (Node A α)) : IsQueue mem none none [] :=
  ⟨.nil, rfl, List.nodup_nil⟩

/-- A queue of one node. -/
theorem single (ha : mem a = some { value := v, next := none }) :
    IsQueue mem (some a) (some a) [(a, v)] := ⟨.cons ha .nil, rfl, List.nodup_singleton a⟩

variable (h : IsQueue mem head tail items)
include h

theorem congr (hmem : ∀ a ∈ items.map Prod.fst, mem' a = mem a) : IsQueue mem' head tail items :=
  ⟨h.chain.congr hmem, h.tail, h.nodup⟩

/-- The pointer to the first node is null if and only if that to the last one is. -/
theorem head_eq_none : head = none ↔ tail = none := by
  rw [h.tail, Option.map_eq_none_iff, List.getLast?_eq_none_iff]
  constructor
  · rintro rfl
    exact h.chain.eq_nil
  · rintro rfl
    cases h.chain
    rfl

theorem eq_nil (hhead : head = none) : items = [] := by
  subst hhead
  exact h.chain.eq_nil

/-- The last node is one of the nodes. -/
theorem tail_mem (htail : tail = some b) : b ∈ items.map Prod.fst := by
  rw [h.tail] at htail
  obtain ⟨i, hi, rfl⟩ := Option.map_eq_some_iff.1 htail
  exact List.mem_map_of_mem (List.mem_of_getLast? hi)

/-- The last node is in memory. -/
theorem tail_isSome (htail : tail = some b) : (mem b).isSome :=
  h.chain.isSome _ (h.tail_mem htail)

/-- The last node has no next one. -/
theorem exists_last (htail : tail = some b) : ∃ n, mem b = some n ∧ n.next = none :=
  h.chain.exists_last (h.tail.symm.trans htail)

/-- A node is added to a queue that is not empty. -/
theorem push (htail : tail = some b)
    (hlast : ∀ m, mem b = some m → mem' b = some { m with next := some a })
    (hmem : ∀ c, c ≠ b → mem' c = mem c) (ha : mem a = some { value := v, next := none })
    (hnot : a ∉ items.map Prod.fst) : IsQueue mem' head (some a) (items ++ [(a, v)]) where
  chain := by
    have hb : items.getLast?.map Prod.fst = some b := h.tail.symm.trans htail
    have hne : a ≠ b := by
      rintro rfl
      obtain ⟨i, hi, hia⟩ := Option.map_eq_some_iff.1 hb
      exact hnot (List.mem_map.2 ⟨i, List.mem_of_getLast? hi, hia⟩)
    exact h.chain.concat h.nodup hb hlast (fun c _ => hmem c) ((hmem a hne).trans ha)
  tail := by
    rw [List.getLast?_concat]
    rfl
  nodup := by
    rw [List.map_append]
    exact List.nodup_append'.2 ⟨h.nodup, List.nodup_singleton a,
      List.disjoint_singleton.2 hnot⟩

/-- The first node is removed. -/
theorem pop (hhead : head = some a) : ∃ n rest, mem a = some n ∧ items = (a, n.value) :: rest ∧
    IsQueue mem n.next (if n.next = none then none else tail) rest ∧
      a ∉ rest.map Prod.fst := by
  obtain ⟨hchain, htail, hnodup⟩ := h
  subst hhead
  cases hchain with
  | @cons _ n rest ha hrest =>
    obtain ⟨hnot, hnodup⟩ := List.nodup_cons.1 hnodup
    refine ⟨n, rest, ha, rfl, ⟨hrest, ?_, hnodup⟩, hnot⟩
    cases rest with
    | nil => rw [if_pos hrest.eq_none]; rfl
    | cons i rest =>
      rw [htail, List.getLast?_cons_cons, if_neg]
      intro hnone
      rw [hnone] at hrest
      cases hrest

end IsQueue

end LinkedQueue
