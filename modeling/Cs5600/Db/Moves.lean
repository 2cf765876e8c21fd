import Cs5600.Db.Table

/-!
# Work on a slot

An assignment to a record, or a system call on its file, leaves the other records
and their files alone (`State.Moves`), as no two records have the same file
(`State.Separate`).
-/

namespace Cs5600.Db

/-- The files of records are different ones. -/
structure State.Separate (s : State) : Prop where
  lt_fresh : ∀ i f, s.file i = some f → f < s.fresh
  inj : ∀ i j f, s.file i = some f → s.file j = some f → i = j

/-- What work on the slot `i` may change. -/
structure State.Moves (s s' : State) (i : Fin 200) : Prop where
  table : ∀ j, j ≠ i → s'.table j = s.table j
  file : ∀ j, j ≠ i → s'.file j = s.file j
  file_self : s'.file i = s.file i ∨ s'.file i = none ∨
    ∃ f, s'.file i = some f ∧ s.fresh ≤ f ∧ f < s'.fresh
  fresh : s.fresh ≤ s'.fresh
  content : ∀ f, f < s.fresh → s.file i ≠ some f → s'.content f = s.content f

namespace State.Moves

variable {s s' s'' : State} {i : Fin 200}

theorem trans (h : s.Moves s' i) (h' : s'.Moves s'' i) : s.Moves s'' i where
  table j hj := (h'.table j hj).trans (h.table j hj)
  file j hj := (h'.file j hj).trans (h.file j hj)
  file_self := by
    rcases h'.file_self with he | he | ⟨f, hf, hle, hlt⟩
    · rw [he]
      rcases h.file_self with he | he | ⟨f, hf, hle, hlt⟩
      · exact .inl he
      · exact .inr (.inl he)
      · exact .inr (.inr ⟨f, hf, hle, lt_of_lt_of_le hlt h'.fresh⟩)
    · exact .inr (.inl he)
    · exact .inr (.inr ⟨f, hf, le_trans h.fresh hle, hlt⟩)
  fresh := le_trans h.fresh h'.fresh
  content f hf hi := by
    rw [h'.content f (lt_of_lt_of_le hf h.fresh), h.content f hf hi]
    rcases h.file_self with he | he | ⟨g, hg, hle, _⟩
    · rwa [he]
    · rw [he]
      exact nofun
    · rw [hg]
      exact fun he => hf.not_ge (Option.some.inj he ▸ hle)

/-- The file of another record keeps its bytes. -/
theorem content_of_ne (h : s.Moves s' i) (hs : s.Separate) {j : Fin 200} (hj : j ≠ i) {f : ℕ}
    (hf : s.file j = some f) : s'.content f = s.content f :=
  h.content f (hs.lt_fresh j f hf) fun hi => hj (hs.inj j i f hf hi)

theorem separate (h : s.Moves s' i) (hs : s.Separate) : s'.Separate := by
  -- The file of the slot is as before, or gone, or a new one that no other slot can have.
  have hself : ∀ j f, j ≠ i → s'.file i = some f → s'.file j ≠ some f := by
    intro j f hji hi hj
    rw [h.file j hji] at hj
    rcases h.file_self with he | he | ⟨g, hg, hle, _⟩
    · exact hji (hs.inj j i f hj (he ▸ hi))
    · rw [he] at hi
      cases hi
    · obtain rfl := Option.some.inj (hg.symm.trans hi)
      exact (hs.lt_fresh j g hj).not_ge hle
  refine ⟨fun j f hf => ?_, fun j l f hj hl => ?_⟩
  · by_cases hji : j = i
    · subst hji
      rcases h.file_self with he | he | ⟨g, hg, _, hlt⟩
      · exact lt_of_lt_of_le (hs.lt_fresh j f (he ▸ hf)) h.fresh
      · rw [he] at hf
        cases hf
      · exact Option.some.inj (hg.symm.trans hf) ▸ hlt
    · exact lt_of_lt_of_le (hs.lt_fresh j f (h.file j hji ▸ hf)) h.fresh
  · by_cases hji : j = i <;> by_cases hli : l = i
    · rw [hji, hli]
    · subst hji
      exact absurd hl (hself l f hli hj)
    · subst hli
      exact absurd hj (hself j f hji hl)
    · exact hs.inj j l f (h.file j hji ▸ hj) (h.file l hli ▸ hl)

end State.Moves

section Moves

variable (s : State) (i : Fin 200)

theorem moves_refl : s.Moves s i :=
  ⟨fun _ _ => rfl, fun _ _ => rfl, .inl rfl, le_rfl, fun _ _ _ => rfl⟩

theorem moves_setStatus (st : Status) : s.Moves (s.setStatus i st) i :=
  ⟨fun _ hj => State.setStatus_of_ne st hj, fun _ _ => rfl, .inl rfl, le_rfl, fun _ _ _ => rfl⟩

theorem moves_setName (name : List UInt8) : s.Moves (s.setName i name) i :=
  ⟨fun _ hj => State.setName_of_ne name hj, fun _ _ => rfl, .inl rfl, le_rfl, fun _ _ _ => rfl⟩

theorem moves_unlink : s.Moves (s.unlink i) i :=
  ⟨fun _ _ => rfl, fun _ hj => Function.update_of_ne hj .., .inr (.inl (Function.update_self ..)),
    le_rfl, fun _ _ _ => rfl⟩

theorem moves_create : s.Moves (s.create i).1 i := by
  rw [State.create]
  split
  next f hf =>
    refine ⟨fun _ _ => rfl, fun _ _ => rfl, .inl rfl, le_rfl, fun g _ hg => ?_⟩
    exact Function.update_of_ne (fun he : g = f => hg (he ▸ hf)) ..
  next hf =>
    refine ⟨fun _ _ => rfl, fun _ hj => Function.update_of_ne hj ..,
      .inr (.inr ⟨s.fresh, Function.update_self .., le_rfl, Nat.lt_succ_self _⟩), Nat.le_succ _,
      fun g hg _ => ?_⟩
    exact Function.update_of_ne hg.ne ..

variable {s i}

theorem moves_write {fd : ℕ} (hfd : s.file i = some fd) (bytes : List UInt8) :
    s.Moves (s.write fd bytes) i :=
  ⟨fun _ _ => rfl, fun _ _ => rfl, .inl rfl, le_rfl,
    fun f _ hf => Function.update_of_ne (fun he : f = fd => hf (he ▸ hfd)) ..⟩

end Moves

end Cs5600.Db
