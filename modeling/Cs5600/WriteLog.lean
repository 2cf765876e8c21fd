import Mathlib.Data.List.Basic

/-!
# Logs of writes

What holds of a store at every boundary between writes: `Along P s ws` says
that `P` holds of the store `s`, and again after each of the writes `ws`. A
store whose last writes are lost in a crash is one of those (`along_iff`).
-/

namespace WriteLog

variable {σ ω : Type*} (put : σ → ω → σ) (P : σ → Prop)

/-- `P` holds before the writes `ws` and after each of them. -/
def Along : σ → List ω → Prop
  | s, [] => P s
  | s, w :: ws => P s ∧ Along (put s w) ws

variable {put P}

theorem Along.last {s : σ} {ws : List ω} (h : Along put P s ws) : P (ws.foldl put s) := by
  induction ws generalizing s with
  | nil => exact h
  | cons w ws ih => exact ih h.2

theorem Along.append {s : σ} {ws vs : List ω} (h : Along put P s ws)
    (h' : Along put P (ws.foldl put s) vs) : Along put P s (ws ++ vs) := by
  induction ws generalizing s with
  | nil => exact h'
  | cons w ws ih => exact ⟨h.1, ih h.2 h'⟩

/-- One more write. -/
theorem Along.concat {s : σ} {ws : List ω} {w : ω} (h : Along put P s ws)
    (h' : P (put (ws.foldl put s) w)) : Along put P s (ws ++ [w]) := h.append ⟨h.last, h'⟩

/-- `P` holds along the writes iff it holds of the store whenever only the first of them are done. -/
theorem along_iff {s : σ} {ws : List ω} :
    Along put P s ws ↔ ∀ pre, pre <+: ws → P (pre.foldl put s) := by
  induction ws generalizing s with
  | nil =>
    refine ⟨fun h pre hpre => ?_, fun h => h [] List.nil_prefix⟩
    rw [List.prefix_nil.1 hpre]
    exact h
  | cons w ws ih =>
    constructor
    · rintro ⟨h, hs⟩ pre hpre
      cases pre with
      | nil => exact h
      | cons v pre =>
        obtain ⟨rfl, hpre'⟩ := List.cons_prefix_cons.1 hpre
        exact ih.1 hs pre hpre'
    · exact fun h => ⟨h [] List.nil_prefix,
        ih.2 fun pre hpre => h (w :: pre) (List.cons_prefix_cons.2 ⟨rfl, hpre⟩)⟩

end WriteLog
