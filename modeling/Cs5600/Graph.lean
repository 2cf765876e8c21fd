import Mathlib.Data.Finset.Card
import Mathlib.Data.List.Induction
import Mathlib.Logic.Basic
import Mathlib.Tactic.Common

/-!
# Rooted labelled graphs

A graph with labelled edges, at most one edge of each label leaving a node,
seen from a root `r`: what is reachable (`Reach`), where a list of labels leads
(`walk`), and when the reachable part is a tree (`IsTree`): no reachable edge
leads to the root, and no two reachable edges lead to the same node.

In a tree, every reachable node has one list of labels leading to it
(`IsTree.walk_injective`), so a local change of the edges has a local effect on
the walks. The changes are those of a directory tree:

* `reach_insert`, `walk_insert`: a new leaf is put under a reachable node;
* `reach_delete`, `walk_delete`: a leaf is cut off;
* `reach_move`, `walk_move`: an edge gets another label, and carries the whole
  subtree below it along.

Graphs that agree on the reachable nodes are the same as far as the root can
tell (`reach_congr`, `walk_congr`, `IsTree.congr`).
-/

namespace LabelledGraph

variable {ν α : Type*}

/-- A labelled graph: where the edge labelled `a` of the node `x` leads, if there is one. -/
abbrev Graph (ν α : Type*) := ν → α → Option ν

/-- The nodes reachable from the root `r`. -/
inductive Reach (g : Graph ν α) (r : ν) : ν → Prop
  | root : Reach g r r
  | step {x y : ν} {a : α} : Reach g r x → g x a = some y → Reach g r y

/-- Where a list of labels leads from a node. -/
def walk (g : Graph ν α) : ν → List α → Option ν
  | x, [] => some x
  | x, a :: as => (g x a).bind fun y => walk g y as

/-- The part of the graph reachable from `r` is a tree with root `r`. -/
structure IsTree (g : Graph ν α) (r : ν) : Prop where
  /-- No reachable edge leads to the root. -/
  root_ne : ∀ {x a}, Reach g r x → g x a ≠ some r
  /-- No two reachable edges lead to the same node. -/
  unique : ∀ {x y z a b}, Reach g r x → Reach g r y → g x a = some z → g y b = some z →
    x = y ∧ a = b

variable {g g' : Graph ν α} {r : ν}

/-! ## Walks -/

theorem walk_append (x : ν) (as bs : List α) :
    walk g x (as ++ bs) = (walk g x as).bind fun y => walk g y bs := by
  induction as generalizing x with
  | nil => rfl
  | cons a as ih =>
    rw [List.cons_append, walk, walk, Option.bind_assoc]
    congr 1
    funext y
    exact ih y

theorem walk_concat (x : ν) (as : List α) (a : α) :
    walk g x (as ++ [a]) = (walk g x as).bind fun y => g y a := by
  rw [walk_append]
  congr 1
  funext y
  simp [walk]

theorem Reach.walk {x y : ν} {as : List α} (hx : Reach g r x) (h : walk g x as = some y) :
    Reach g r y := by
  induction as generalizing x with
  | nil => exact Option.some.inj h ▸ hx
  | cons a as ih =>
    obtain ⟨z, hz, hy⟩ := Option.bind_eq_some_iff.1 h
    exact ih (hx.step hz) hy

/-- A node is reachable iff some list of labels leads to it. -/
theorem reach_iff_walk {x : ν} : Reach g r x ↔ ∃ as, LabelledGraph.walk g r as = some x := by
  refine ⟨fun h => ?_, fun ⟨_, h⟩ => Reach.root.walk h⟩
  induction h with
  | root => exact ⟨[], rfl⟩
  | @step x y a _ hxy ih =>
    obtain ⟨as, has⟩ := ih
    exact ⟨as ++ [a], by rw [walk_concat, has]; exact hxy⟩

/-- In a tree, only one list of labels leads to a node. -/
theorem IsTree.walk_injective (ht : IsTree g r) {x : ν} {as bs : List α}
    (ha : walk g r as = some x) (hb : walk g r bs = some x) : as = bs := by
  induction as using List.reverseRecOn generalizing x bs with
  | nil =>
    obtain rfl := Option.some.inj ha
    cases bs using List.reverseRecOn with
    | nil => rfl
    | append_singleton bs b =>
      rw [walk_concat] at hb
      obtain ⟨y, hy, hyr⟩ := Option.bind_eq_some_iff.1 hb
      exact absurd hyr (ht.root_ne (Reach.root.walk hy))
  | append_singleton as a ih =>
    rw [walk_concat] at ha
    obtain ⟨y, hy, hyx⟩ := Option.bind_eq_some_iff.1 ha
    cases bs using List.reverseRecOn with
    | nil =>
      obtain rfl := Option.some.inj hb
      exact absurd hyx (ht.root_ne (Reach.root.walk hy))
    | append_singleton bs b =>
      rw [walk_concat] at hb
      obtain ⟨z, hz, hzx⟩ := Option.bind_eq_some_iff.1 hb
      obtain ⟨rfl, rfl⟩ := ht.unique (Reach.root.walk hy) (Reach.root.walk hz) hyx hzx
      rw [ih hy hz]

/-- In a tree of numbers, a walk does not visit more nodes than there are numbers. -/
theorem IsTree.walk_length_lt {g : Graph ℕ α} {r : ℕ} (ht : IsTree g r) {n : ℕ}
    (hn : ∀ x, Reach g r x → x < n) {x : ℕ} {as : List α} (hw : walk g r as = some x) :
    as.length < n := by
  have hprefix : ∀ k ≤ as.length, ∃ y, walk g r (as.take k) = some y := by
    intro k _
    rw [← List.take_append_drop k as, walk_append] at hw
    obtain ⟨y, hy, -⟩ := Option.bind_eq_some_iff.1 hw
    exact ⟨y, hy⟩
  choose! f hf using hprefix
  have hle : ∀ {k}, k ∈ Finset.range (as.length + 1) → k ≤ as.length :=
    fun hk => Nat.lt_succ_iff.1 (Finset.mem_range.1 hk)
  have hmaps : Set.MapsTo f (Finset.range (as.length + 1)) (Finset.range n) := by
    intro k hk
    exact Finset.mem_coe.2 (Finset.mem_range.2 (hn _ (Reach.root.walk (hf k (hle hk)))))
  -- The nodes along the walk are different.
  have hinj : Set.InjOn f (Finset.range (as.length + 1)) := by
    intro k hk l hl hkl
    have htake := ht.walk_injective (hf k (hle hk)) (hkl ▸ hf l (hle hl))
    have hlen := congrArg List.length htake
    rwa [List.length_take, List.length_take, min_eq_left (hle hk), min_eq_left (hle hl)] at hlen
  have hcard := Finset.card_le_card_of_injOn f hmaps hinj
  rwa [Finset.card_range, Finset.card_range] at hcard

/-! ## Graphs that agree on the reachable nodes -/

theorem reach_congr (h : ∀ x, Reach g r x → ∀ a, g' x a = g x a) {x : ν} :
    Reach g' r x ↔ Reach g r x := by
  constructor
  · intro hx
    induction hx with
    | root => exact .root
    | step _ hxy ih => exact ih.step (h _ ih _ ▸ hxy)
  · intro hx
    induction hx with
    | root => exact .root
    | step hx hxy ih => exact ih.step ((h _ hx _).trans hxy)

theorem walk_congr (h : ∀ x, Reach g r x → ∀ a, g' x a = g x a) {x : ν} (hx : Reach g r x)
    (as : List α) : walk g' x as = walk g x as := by
  induction as generalizing x with
  | nil => rfl
  | cons a as ih =>
    rw [walk, walk, h x hx a]
    cases hxy : g x a with
    | none => rfl
    | some y => exact ih (hx.step hxy)

theorem IsTree.congr (ht : IsTree g r) (h : ∀ x, Reach g r x → ∀ a, g' x a = g x a) :
    IsTree g' r where
  root_ne hx hxr := by
    have hx := (reach_congr h).1 hx
    exact ht.root_ne hx ((h _ hx _).symm.trans hxr)
  unique hx hy hxz hyz := by
    have hx := (reach_congr h).1 hx
    have hy := (reach_congr h).1 hy
    exact ht.unique hx hy ((h _ hx _).symm.trans hxz) ((h _ hy _).symm.trans hyz)

/-! ## Changing an edge -/

variable [DecidableEq ν] [DecidableEq α]

/-- The graph whose edge `a` of `p` is replaced. -/
def setEdge (g : Graph ν α) (p : ν) (a : α) (v : Option ν) : Graph ν α :=
  fun x b => if x = p ∧ b = a then v else g x b

@[simp] theorem setEdge_self (p : ν) (a : α) (v : Option ν) : setEdge g p a v p a = v := by
  simp [setEdge]

theorem setEdge_of_ne {p x : ν} {a b : α} (v : Option ν) (h : ¬(x = p ∧ b = a)) :
    setEdge g p a v x b = g x b := if_neg h

/-- If nothing is below an edge, neither before it is replaced nor after, all other walks are as
    before. -/
theorem walk_setEdge (ht : IsTree g r) {p : ν} {a : α} {as : List α} (hp : walk g r as = some p)
    {v : Option ν} (hv : ∀ n, v = some n → n ≠ p ∧ ∀ b, g n b = none)
    (hold : ∀ n, g p a = some n → ∀ b, g n b = none) [DecidableEq (List α)] (bs : List α) :
    walk (setEdge g p a v) r bs = if bs = as ++ [a] then v else walk g r bs := by
  induction bs using List.reverseRecOn with
  | nil => simp [walk]
  | append_singleton bs b ih =>
    rw [walk_concat, walk_concat, ih]
    by_cases hbs : bs = as ++ [a]
    · -- Below the edge, there is nothing in either graph.
      subst hbs
      have hlen : as ++ [a] ++ [b] ≠ as ++ [a] := fun h => by simpa using congrArg List.length h
      have hnew : (v.bind fun x => setEdge g p a v x b) = none := by
        refine Option.bind_eq_none_iff.2 fun n hn => ?_
        obtain ⟨hne, hleaf⟩ := hv n hn
        rw [setEdge_of_ne _ fun h => hne h.1, hleaf]
      rw [if_pos rfl, if_neg hlen, walk_concat, hp, Option.bind_some, hnew]
      exact (Option.bind_eq_none_iff.2 fun n hn => hold n hn b).symm
    · rw [if_neg hbs]
      cases hx : walk g r bs with
      | none =>
        rw [if_neg fun h => ?_]
        · rfl
        · obtain ⟨rfl, _⟩ := List.append_inj' h rfl
          rw [hx] at hp
          cases hp
      | some x =>
        rw [Option.bind_some, Option.bind_some]
        by_cases hpa : x = p ∧ b = a
        · -- In a tree, only one walk comes by the edge.
          obtain ⟨rfl, rfl⟩ := hpa
          rw [ht.walk_injective hx hp, if_pos rfl, setEdge_self]
        · rw [setEdge_of_ne _ hpa, if_neg fun h => hpa ?_]
          obtain ⟨rfl, h⟩ := List.append_inj' h rfl
          exact ⟨Option.some.inj (hx.symm.trans hp), by simpa using h⟩

section Insert

variable {p n : ν} {a : α}

/-- Under a reachable node, a new leaf is all that becomes reachable. -/
theorem reach_insert (hp : Reach g r p) (ha : g p a = none) (hleaf : ∀ b, g n b = none) {x : ν} :
    Reach (setEdge g p a (some n)) r x ↔ Reach g r x ∨ x = n := by
  have mono : ∀ {y}, Reach g r y → Reach (setEdge g p a (some n)) r y := by
    intro y hy
    induction hy with
    | root => exact .root
    | @step y z b _ hyz ih =>
      refine ih.step (a := b) ((setEdge_of_ne _ ?_).trans hyz)
      rintro ⟨rfl, rfl⟩
      rw [ha] at hyz
      cases hyz
  constructor
  · intro hx
    induction hx with
    | root => exact .inl .root
    | @step y z b _ hyz ih =>
      by_cases hpa : y = p ∧ b = a
      · rw [hpa.1, hpa.2, setEdge_self] at hyz
        exact .inr (Option.some.inj hyz).symm
      · rw [setEdge_of_ne _ hpa] at hyz
        rcases ih with ih | rfl
        · exact .inl (ih.step hyz)
        · -- No edge leads on from the leaf.
          rw [hleaf] at hyz
          cases hyz
  · rintro (hx | rfl)
    · exact mono hx
    · exact (mono hp).step (setEdge_self p a _)

theorem IsTree.insert (ht : IsTree g r) (hp : Reach g r p) (ha : g p a = none)
    (hn : ¬Reach g r n) (hleaf : ∀ b, g n b = none) : IsTree (setEdge g p a (some n)) r := by
  -- An edge of the new graph is the new one, or an old one between reachable nodes.
  have old : ∀ {x z b}, Reach (setEdge g p a (some n)) r x →
      setEdge g p a (some n) x b = some z →
      (x = p ∧ b = a ∧ z = n) ∨ (Reach g r x ∧ g x b = some z) := by
    intro x z b hx hxz
    by_cases hpa : x = p ∧ b = a
    · rw [hpa.1, hpa.2, setEdge_self] at hxz
      exact .inl ⟨hpa.1, hpa.2, (Option.some.inj hxz).symm⟩
    · rw [setEdge_of_ne _ hpa] at hxz
      rcases (reach_insert hp ha hleaf).1 hx with hx | rfl
      · exact .inr ⟨hx, hxz⟩
      · rw [hleaf] at hxz
        cases hxz
  constructor
  · intro x b hx hxr
    rcases old hx hxr with ⟨_, _, rfl⟩ | ⟨hx, hxr⟩
    · exact hn .root
    · exact ht.root_ne hx hxr
  · intro x y z b c hx hy hxz hyz
    rcases old hx hxz with ⟨rfl, rfl, rfl⟩ | ⟨hx', hxz'⟩
    · rcases old hy hyz with ⟨rfl, rfl, _⟩ | ⟨hy', hyz'⟩
      · exact ⟨rfl, rfl⟩
      · exact absurd (hy'.step hyz') hn
    · rcases old hy hyz with ⟨rfl, rfl, rfl⟩ | ⟨hy', hyz'⟩
      · exact absurd (hx'.step hxz') hn
      · exact ht.unique hx' hy' hxz' hyz'

/-- A new leaf is found at its own place, and every other walk is as before. -/
theorem walk_insert (ht : IsTree g r) {as : List α} (hp : walk g r as = some p) (ha : g p a = none)
    (hn : ¬Reach g r n) (hleaf : ∀ b, g n b = none) [DecidableEq (List α)] (bs : List α) :
    walk (setEdge g p a (some n)) r bs = if bs = as ++ [a] then some n else walk g r bs := by
  refine walk_setEdge ht hp (fun m hm => ?_) (fun m hm => ?_) bs
  · obtain rfl := Option.some.inj hm
    exact ⟨fun h => hn (h ▸ Reach.root.walk hp), hleaf⟩
  · rw [ha] at hm
    cases hm

end Insert

section Delete

variable {p n : ν} {a : α}

/-- Cutting off a leaf makes it, and nothing else, unreachable. -/
theorem reach_delete (ht : IsTree g r) (hp : Reach g r p) (ha : g p a = some n)
    (hleaf : ∀ b, g n b = none) {x : ν} :
    Reach (setEdge g p a none) r x ↔ Reach g r x ∧ x ≠ n := by
  constructor
  · intro hx
    induction hx with
    | root => exact ⟨.root, fun h => ht.root_ne hp (h ▸ ha)⟩
    | @step y z b _ hyz ih =>
      by_cases hpa : y = p ∧ b = a
      · rw [hpa.1, hpa.2, setEdge_self] at hyz
        cases hyz
      · rw [setEdge_of_ne _ hpa] at hyz
        exact ⟨ih.1.step hyz, fun h => hpa (ht.unique ih.1 hp (h ▸ hyz) ha)⟩
  · rintro ⟨hx, hxn⟩
    induction hx with
    | root => exact .root
    | @step y z b hy hyz ih =>
      -- A walk to another node does not use the edge that is cut off.
      have hyn : y ≠ n := by
        rintro rfl
        rw [hleaf] at hyz
        cases hyz
      refine (ih hyn).step (a := b) ((setEdge_of_ne _ ?_).trans hyz)
      rintro ⟨rfl, rfl⟩
      rw [ha] at hyz
      exact hxn (Option.some.inj hyz).symm

theorem IsTree.delete (ht : IsTree g r) (hp : Reach g r p) (ha : g p a = some n)
    (hleaf : ∀ b, g n b = none) : IsTree (setEdge g p a none) r := by
  have old : ∀ {x z b}, setEdge g p a none x b = some z → g x b = some z := by
    intro x z b hxz
    by_cases hpa : x = p ∧ b = a
    · rw [hpa.1, hpa.2, setEdge_self] at hxz
      cases hxz
    · rwa [setEdge_of_ne _ hpa] at hxz
  constructor
  · exact fun hx hxr => ht.root_ne ((reach_delete ht hp ha hleaf).1 hx).1 (old hxr)
  · exact fun hx hy hxz hyz => ht.unique ((reach_delete ht hp ha hleaf).1 hx).1
      ((reach_delete ht hp ha hleaf).1 hy).1 (old hxz) (old hyz)

/-- The place of a leaf cut off is empty, and every other walk is as before. -/
theorem walk_delete (ht : IsTree g r) {as : List α} (hp : walk g r as = some p)
    (ha : g p a = some n) (hleaf : ∀ b, g n b = none) [DecidableEq (List α)] (bs : List α) :
    walk (setEdge g p a none) r bs = if bs = as ++ [a] then none else walk g r bs := by
  refine walk_setEdge ht hp (fun m hm => by cases hm) (fun m hm => ?_) bs
  obtain rfl := Option.some.inj (ha.symm.trans hm)
  exact hleaf

end Delete

section Move

variable {p n : ν} {a b : α}

/-- The graph whose edge `a` of `p`, leading to `n`, is relabelled `b`. -/
def moveEdge (g : Graph ν α) (p : ν) (a b : α) (n : ν) : Graph ν α :=
  setEdge (setEdge g p a none) p b (some n)

theorem moveEdge_of_ne {x : ν} {c : α} (ha : ¬(x = p ∧ c = a)) (hb : ¬(x = p ∧ c = b)) :
    moveEdge g p a b n x c = g x c := by
  rw [moveEdge, setEdge_of_ne _ hb, setEdge_of_ne _ ha]

/-- An edge of the relabelled graph is the relabelled one, or an old one. -/
theorem moveEdge_eq_some {x z : ν} {c : α} (h : moveEdge g p a b n x c = some z) :
    (x = p ∧ c = b ∧ z = n) ∨ (¬(x = p ∧ c = a) ∧ g x c = some z) := by
  by_cases hb : x = p ∧ c = b
  · rw [hb.1, hb.2, moveEdge, setEdge_self] at h
    exact .inl ⟨hb.1, hb.2, (Option.some.inj h).symm⟩
  · rw [moveEdge, setEdge_of_ne _ hb] at h
    by_cases ha : x = p ∧ c = a
    · rw [ha.1, ha.2, setEdge_self] at h
      cases h
    · rw [setEdge_of_ne _ ha] at h
      exact .inr ⟨ha, h⟩

theorem reach_move (hp : Reach g r p) (ha : g p a = some n) (hb : g p b = none) {x : ν} :
    Reach (moveEdge g p a b n) r x ↔ Reach g r x := by
  constructor
  · intro hx
    induction hx with
    | root => exact .root
    | step _ hyz ih =>
      rcases moveEdge_eq_some hyz with ⟨_, _, rfl⟩ | ⟨_, hyz⟩
      · exact hp.step ha
      · exact ih.step hyz
  · intro hx
    induction hx with
    | root => exact .root
    | @step y z c hy hyz ih =>
      by_cases hpa : y = p ∧ c = a
      · obtain ⟨rfl, rfl⟩ := hpa
        obtain rfl := Option.some.inj (hyz.symm.trans ha)
        exact ih.step (a := b) (setEdge_self ..)
      · refine ih.step (a := c) ((moveEdge_of_ne hpa fun ⟨hyp, hcb⟩ => ?_).trans hyz)
        rw [hyp, hcb, hb] at hyz
        cases hyz

omit [DecidableEq α] in
/-- Labels that begin as given ones only from the last of them on are these. -/
theorem concat_prefix_concat_iff {as bs : List α} {c : α} (h : ¬as ++ [a] <+: bs) :
    as ++ [a] <+: bs ++ [c] ↔ as = bs ∧ a = c := by
  rw [List.prefix_concat_iff, or_iff_left h]
  constructor
  · intro he
    obtain ⟨has, hac⟩ := List.append_inj' he rfl
    exact ⟨has, by simpa using hac⟩
  · rintro ⟨rfl, rfl⟩
    rfl

/-- Relabelling an edge moves the subtree it leads to, and every other walk is as before. -/
theorem walk_move (ht : IsTree g r) {as : List α} (hp : walk g r as = some p)
    (ha : g p a = some n) (hb : g p b = none) [DecidableEq (List α)] (bs : List α) :
    walk (moveEdge g p a b n) r bs =
      if as ++ [b] <+: bs then walk g r (as ++ [a] ++ bs.drop (as ++ [b]).length)
      else if as ++ [a] <+: bs then none else walk g r bs := by
  have hab : a ≠ b := by
    rintro rfl
    rw [hb] at ha
    cases ha
  induction bs using List.reverseRecOn with
  | nil => simp [walk]
  | append_singleton bs c ih =>
    rw [walk_concat, ih]
    by_cases hpb : as ++ [b] <+: bs
    · -- Below the new label: the walk went on below the old one, away from `p`.
      rw [if_pos hpb, if_pos (hpb.trans (List.prefix_append _ _)),
        List.drop_append_of_le_length hpb.length_le, ← List.append_assoc, walk_concat]
      cases hx : walk g r (as ++ [a] ++ bs.drop (as ++ [b]).length) with
      | none => rfl
      | some x =>
        have hxp : x ≠ p := by
          rintro rfl
          simpa using congrArg List.length (ht.walk_injective hx hp)
        exact moveEdge_of_ne (fun h => hxp h.1) (fun h => hxp h.1)
    · have hpb' := concat_prefix_concat_iff (c := c) hpb
      rw [if_neg hpb]
      by_cases hpa : as ++ [a] <+: bs
      · -- Below the old label: nothing is left there.
        have hne : ¬(as = bs ∧ b = c) := by
          rintro ⟨rfl, _⟩
          exact absurd hpa.length_le (by simp)
        rw [if_pos hpa, if_neg (hpb'.not.2 hne), if_pos (hpa.trans (List.prefix_append _ _)),
          Option.bind_none]
      · have hpa' := concat_prefix_concat_iff (c := c) hpa
        rw [if_neg hpa]
        by_cases has : as = bs
        · -- At `p` itself, the two labels have changed.
          subst has
          rw [hp, Option.bind_some]
          by_cases hcb : b = c
          · subst hcb
            rw [if_pos (hpb'.2 ⟨rfl, rfl⟩), moveEdge, setEdge_self, List.drop_length,
              List.append_nil, walk_concat, hp]
            exact ha.symm
          · rw [if_neg (hpb'.not.2 fun h => hcb h.2)]
            by_cases hca : a = c
            · subst hca
              rw [if_pos (hpa'.2 ⟨rfl, rfl⟩), moveEdge, setEdge_of_ne _ fun h => hab h.2,
                setEdge_self]
            · rw [if_neg (hpa'.not.2 fun h => hca h.2), walk_concat, hp,
                moveEdge_of_ne (fun h => hca h.2.symm) (fun h => hcb h.2.symm)]
              rfl
        · rw [if_neg (hpb'.not.2 fun h => has h.1), if_neg (hpa'.not.2 fun h => has h.1),
            walk_concat]
          cases hx : walk g r bs with
          | none => rfl
          | some x =>
            have hxp : x ≠ p := fun h => has (ht.walk_injective hp (h ▸ hx))
            exact moveEdge_of_ne (fun h => hxp h.1) (fun h => hxp h.1)

end Move

end LabelledGraph
