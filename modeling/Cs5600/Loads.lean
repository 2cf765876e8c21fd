import Mathlib.Control.Monad.Writer
import Mathlib.Data.List.Infix
import Mathlib.Data.UInt

/-!
# Loads

Computations that load bytes from memory, with a log of their loads. A pointer is what is
in memory from there on, and the log says of each load where it was, and through which of
the pointers of the computation, if one cares (`Load`).

A computation keeps to a string if all its loads are of bytes of the string or of its NUL
(`On`). That it does is proved along with what it returns (`Returns`), one step after the
other.
-/

namespace Loads

/-- A pointer: what is in memory from there on. -/
abbrev Ptr := List UInt8

/-- A computation with a log of its loads, unless it loads where there is no memory. -/
abbrev Load (A α : Type) := WriterT (List A) Option α

variable {A α β : Type}

/-- A byte is loaded. -/
def load (log : Ptr → A) : Ptr → Load A UInt8
  | [] => WriterT.mk none
  | c :: p => WriterT.mk (some (c, [log (c :: p)]))

/-- The computation returns this, and its loads are as specified. -/
def Returns (x : Load A α) (P : A → Prop) (r : α) : Prop :=
  ∃ log, x.run = some (r, log) ∧ ∀ a ∈ log, P a

/-- A pointer is at a byte of a string or at its NUL, after which there is `tail`. -/
def On (s tail : List UInt8) (p : Ptr) : Prop := ∃ rest, rest <:+ s ∧ p = rest ++ 0 :: tail

variable {x : Load A α} {f : α → Load A β} {P : A → Prop} {r : α} {v : β} {s tail : List UInt8}

theorem returns_pure (r : α) : Returns (pure r : Load A α) P r :=
  ⟨[], rfl, fun _ h => absurd h List.not_mem_nil⟩

/-- A load at a string loads its first byte, or its NUL. -/
theorem returns_load {log : Ptr → A} (h : P (log (s ++ 0 :: tail))) :
    Returns (load log (s ++ 0 :: tail)) P (s.headD 0) := by
  cases s with
  | nil => exact ⟨[log (0 :: tail)], rfl, fun _ ha => List.mem_singleton.1 ha ▸ h⟩
  | cons c s =>
    exact ⟨[log (c :: (s ++ 0 :: tail))], rfl, fun _ ha => List.mem_singleton.1 ha ▸ h⟩

theorem Returns.bind (hx : Returns x P r) (hf : Returns (f r) P v) : Returns (x >>= f) P v := by
  obtain ⟨log, hlog, hP⟩ := hx
  obtain ⟨log', hlog', hP'⟩ := hf
  refine ⟨log ++ log', ?_, fun a ha => (List.mem_append.1 ha).elim (hP a) (hP' a)⟩
  have hrun : (x >>= f).run =
      x.run.bind fun a => (f a.1).run.map fun b => (b.1, a.2 ++ b.2) := rfl
  rw [hrun, hlog, Option.bind_some, hlog']
  rfl

theorem Returns.mono {Q : A → Prop} (h : Returns x P r) (hPQ : ∀ a, P a → Q a) : Returns x Q r := by
  obtain ⟨log, hlog, hP⟩ := h
  exact ⟨log, hlog, fun a ha => hPQ a (hP a ha)⟩

theorem on_self (s tail : List UInt8) : On s tail (s ++ 0 :: tail) := ⟨s, List.suffix_rfl, rfl⟩

theorem On.of_suffix {s' : List UInt8} {p : Ptr} (h : On s tail p) (hs : s <:+ s') : On s' tail p := by
  obtain ⟨rest, hrest, rfl⟩ := h
  exact ⟨rest, hrest.trans hs, rfl⟩

end Loads
