import Cs5600.Graph
import Mathlib.Data.List.Nodup

/-!
# Going through a graph

A program that goes through a graph depth first, with the edges of a node in a given order
of the labels, takes its walks in a certain order (`walks`): each walk that is not too long,
once (`mem_walks`, `nodup_walks`). In a tree these are the reachable nodes, each of them
once (`IsTree.nodup_map_walks`).
-/

namespace LabelledGraph

variable {ν α : Type*} {g : Graph ν α} {ls as : List α} {x y r : ν} {depth : ℕ}

/-- The walks from a node, depth first, that have fewer labels than this. -/
def walks (g : Graph ν α) (ls : List α) : ℕ → ν → List (List α)
  | 0, _ => []
  | depth + 1, x => [] :: ls.flatMap fun a =>
    (g x a).elim [] fun y => (walks g ls depth y).map (a :: ·)

/-- The walks that begin with an edge. -/
theorem mem_next {a : α} :
    as ∈ (g x a).elim [] (fun y => (walks g ls depth y).map (a :: ·)) ↔
      ∃ y bs, g x a = some y ∧ bs ∈ walks g ls depth y ∧ as = a :: bs := by
  cases g x a with
  | none =>
    refine iff_of_false List.not_mem_nil ?_
    rintro ⟨_, _, h, _⟩
    cases h
  | some y =>
    rw [Option.elim_some, List.mem_map]
    constructor
    · rintro ⟨bs, hbs, rfl⟩
      exact ⟨y, bs, rfl, hbs, rfl⟩
    · rintro ⟨y', bs, hy, hbs, rfl⟩
      obtain rfl := Option.some.inj hy
      exact ⟨bs, hbs, rfl⟩

theorem mem_walks (hls : ∀ a, a ∈ ls) :
    as ∈ walks g ls depth x ↔ as.length < depth ∧ ∃ y, walk g x as = some y := by
  induction depth generalizing as x with
  | zero => exact iff_of_false List.not_mem_nil fun h => Nat.not_lt_zero _ h.1
  | succ depth ih =>
    rw [walks, List.mem_cons, List.mem_flatMap]
    cases as with
    | nil => exact iff_of_true (.inl rfl) ⟨depth.succ_pos, x, rfl⟩
    | cons a as =>
      rw [List.length_cons, Nat.succ_lt_succ_iff, walk]
      constructor
      · rintro (h | ⟨b, -, h⟩)
        · cases h
        · obtain ⟨y, bs, hy, hbs, heq⟩ := mem_next.1 h
          obtain ⟨rfl, rfl⟩ := List.cons.inj heq
          obtain ⟨hlt, z, hz⟩ := ih.1 hbs
          exact ⟨hlt, z, Option.bind_eq_some_iff.2 ⟨y, hy, hz⟩⟩
      · rintro ⟨hlt, z, hz⟩
        obtain ⟨y, hy, hz⟩ := Option.bind_eq_some_iff.1 hz
        exact .inr ⟨a, hls a, mem_next.2 ⟨y, as, hy, ih.2 ⟨hlt, z, hz⟩, rfl⟩⟩

theorem nodup_walks (hls : ls.Nodup) : (walks g ls depth x).Nodup := by
  induction depth generalizing x with
  | zero => exact List.nodup_nil
  | succ depth ih =>
    rw [walks, List.nodup_cons, List.mem_flatMap, List.nodup_flatMap]
    refine ⟨?_, fun a _ => ?_, hls.imp fun {a b} hab as ha hb => ?_⟩
    · rintro ⟨a, -, h⟩
      obtain ⟨_, _, _, _, heq⟩ := mem_next.1 h
      cases heq
    · cases g x a with
      | none => exact List.nodup_nil
      | some y => exact ih.map fun _ _ h => (List.cons.inj h).2
    · -- The first labels are different.
      obtain ⟨_, _, _, _, rfl⟩ := mem_next.1 ha
      obtain ⟨_, _, _, _, heq⟩ := mem_next.1 hb
      exact hab (List.cons.inj heq).1

/-- What is collected along the walks is what is collected at the node, and then along the walks of
    each edge. -/
theorem flatMap_walks {β : Type*} (f : List α → List β) : (walks g ls (depth + 1) x).flatMap f =
    f [] ++ (ls.filterMap fun a => (g x a).map fun y =>
      (walks g ls depth y).flatMap fun as => f (a :: as)).flatten := by
  rw [walks, List.flatMap_cons]
  congr 1
  generalize walks g ls depth = next
  induction ls with
  | nil => rfl
  | cons a ls ih =>
    rw [List.flatMap_cons, List.flatMap_append, ih]
    cases h : g x a with
    | none => rw [List.filterMap_cons_none (by rw [h]; rfl)]; rfl
    | some y =>
      rw [List.filterMap_cons_some (by rw [h]; rfl), List.flatten_cons, Option.elim_some,
        List.flatMap_map]

/-- In a tree, each walk from the root ends at another node, so that what tells its end is different,
    too. -/
theorem IsTree.nodup_map_walks (ht : IsTree g r) (hls : ls.Nodup) {β : Type*} {f : List α → β}
    {e : β → ν} (he : ∀ as ∈ walks g ls depth r, walk g r as = some (e (f as))) :
    ((walks g ls depth r).map f).Nodup := by
  refine List.Nodup.map_on (fun as has bs hbs hab => ?_) (nodup_walks hls)
  refine ht.walk_injective (he as has) ?_
  rw [hab]
  exact he bs hbs

end LabelledGraph
