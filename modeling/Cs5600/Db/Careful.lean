import Cs5600.Db.Steps

/-!
# Careful runs

The steps of calls may interleave in such a way that a record is lost, or that
two records have the same name, as nothing but the BUSY mark keeps calls apart,
and it is set too late. In *careful* runs this does not happen. There, a call
acts on what it has looked up only while that is still so (`Config.Careful`):

* `db_write` looks up its name only when no other `db_write` of the name is under
  way, nor a `db_delete` of it that has removed the file but not marked the record;
* `free_index` does not return a slot that another `db_write` has got, but not
  yet marked BUSY;
* `db_delete` removes a file only if its record is still the one it has looked
  up, and no `db_write` of the name is under way.

Every call then has the slot it works on to itself (`Inv.apart`), and knows the
state of the record there (`Call.Fits`).
-/

namespace Cs5600.Db

open Interleave

/-! ## Calls under way -/

/-- The slot that a call of `db_write` has chosen. -/
def WritePc.chosen : WritePc → Option (Fin 200)
  | setBusy i | create i | write i _ | setName i | setValid i | setInvalid i => some i
  | _ => none

/-- The slot whose file a call of `db_delete` has removed, but which it has not marked INVALID. -/
def DeletePc.removing : DeletePc → Option (Fin 200)
  | setInvalid i => some i
  | _ => none

namespace Call

/-- The slot that an unfinished `db_write` has chosen. -/
def chosen : Call → Option (Fin 200)
  | write _ _ pc => pc.chosen
  | _ => none

/-- The slot that a call works on: it has chosen it to write, or removed its file. -/
def uses : Call → Option (Fin 200)
  | write _ _ pc => pc.chosen
  | read _ _ => none
  | delete _ pc => pc.removing

/-- An unfinished `db_write` of a name, after its `find_key`. -/
def Writes (k : Key) : Call → Prop
  | write name _ pc => name = k ∧ pc ≠ .findKey ∧ ∀ r, pc ≠ .done r
  | _ => False

/-- A `db_delete` of a name between its `unlink` and its INVALID mark. -/
def Removes (k : Key) : Call → Prop
  | delete name pc => name = k ∧ pc.removing ≠ none
  | _ => False

/-- Calls that work on different slots. -/
def Apart (k k' : Call) : Prop := ∀ i, k.uses = some i → k'.uses ≠ some i

/-- Calls that do not write the same name. -/
def Differ (k k' : Call) : Prop := ∀ n, k.Writes n → ¬k'.Writes n

theorem Apart.symm (k k' : Call) (h : k.Apart k') : k'.Apart k := fun i hi hi' => h i hi' hi

theorem Differ.symm (k k' : Call) (h : k.Differ k') : k'.Differ k := fun n hn hn' => h n hn' hn

/-- A `db_write` that has returned 0. -/
def Wrote (k : Key) (bytes : List UInt8) : Call → Prop
  | write name data pc => name = k ∧ data.bytes = bytes ∧ pc = .done 0
  | _ => False

section Chosen

variable {n : Key} {data : Data} {pc : WritePc} {i : Fin 200}

theorem writes_freeIndex : (write n data .freeIndex).Writes n := ⟨rfl, nofun, nofun⟩

/-- A `db_write` writes its name while it has a slot. -/
theorem writes_of_chosen (h : pc.chosen = some i) : (write n data pc).Writes n := by
  refine ⟨rfl, ?_, fun r => ?_⟩
  · rintro rfl
    cases h
  · rintro rfl
    cases h

/-- Unfinished calls have not written anything. -/
theorem not_wrote_findKey (m : Key) (bytes : List UInt8) :
    ¬(write n data .findKey).Wrote m bytes := fun h => nomatch h.2.2

theorem not_wrote_freeIndex (m : Key) (bytes : List UInt8) :
    ¬(write n data .freeIndex).Wrote m bytes := fun h => nomatch h.2.2

theorem not_wrote_of_chosen (h : pc.chosen = some i) (m : Key) (bytes : List UInt8) :
    ¬(write n data pc).Wrote m bytes := by
  rintro ⟨-, -, rfl⟩
  cases h

theorem not_wrote_read {pc : ReadPc} (m : Key) (bytes : List UInt8) :
    ¬(read n pc).Wrote m bytes := id

theorem not_wrote_delete {pc : DeletePc} (m : Key) (bytes : List UInt8) :
    ¬(delete n pc).Wrote m bytes := id

end Chosen

end Call

namespace Config

variable {ι : Type*} (σ : Config ι)

/-- A condition under which the next step of a call does no harm. -/
def Careful (c : ι) : Prop :=
  match σ.calls c with
  | .write name _ .findKey =>
    ∀ c', c' ≠ c → ¬(σ.calls c').Writes name ∧ ¬(σ.calls c').Removes name
  | .write _ _ .freeIndex =>
    ∀ c' name data i, σ.calls c' = .write name data (.setBusy i) → σ.db.freeIndex ≠ some i
  | .delete name (.unlink i) => (σ.db.file i).isSome →
    σ.db.findKey name.bytes = some i ∧ ∀ c', ¬(σ.calls c').Writes name
  | _ => True

/-- No two unfinished calls of `db_write` have chosen the same slot. -/
def OneWriter : Prop :=
  ∀ c c' i, (σ.calls c).chosen = some i → (σ.calls c').chosen = some i → c = c'

/-- At most one VALID record has a given name. -/
def OneRecord : Prop :=
  ∀ i j, (σ.db.table i).status = .valid → (σ.db.table j).status = .valid →
    (σ.db.table i).name = (σ.db.table j).name → i = j

/-- The files of VALID records exist. -/
def FilesExist : Prop := ∀ i, (σ.db.table i).status = .valid → (σ.db.file i).isSome

end Config

/-! ## The invariant -/

/-- What a call knows of the database. -/
def Call.Fits (s : State) : Call → Prop
  | write k _ .freeIndex => ∀ j, ¬s.Holds j k
  | write k _ (.setBusy i) =>
    (s.Holds i k ∨ (s.table i).status = .invalid) ∧ ∀ j, s.Holds j k → j = i
  | write k _ (.create i) | write k _ (.setInvalid i) =>
    (s.table i).status = .busy ∧ ∀ j, ¬s.Holds j k
  | write k _ (.write i fd) =>
    (s.table i).status = .busy ∧ (∀ j, ¬s.Holds j k) ∧ s.file i = some fd ∧ s.content fd = []
  | write k data (.setName i) =>
    (s.table i).status = .busy ∧ (∀ j, ¬s.Holds j k) ∧
      ∃ fd, s.file i = some fd ∧ s.content fd = data.bytes
  | write k data (.setValid i) =>
    (s.table i).status = .busy ∧ (∀ j, ¬s.Holds j k) ∧
      (∃ fd, s.file i = some fd ∧ s.content fd = data.bytes) ∧ (s.table i).name = k.bytes
  | delete k (.setInvalid i) => s.Holds i k ∧ s.file i = none
  | _ => True

section Inv

variable {ι : Type*}

/-- The record `i` has data that some call has written, unless another one removes it. -/
def Backed (calls : ι → Call) (s : State) (i : Fin 200) : Prop :=
  (∃ c k, calls c = .delete k (.setInvalid i)) ∨
    ∃ fd, s.file i = some fd ∧ ∃ c k, (calls c).Wrote k (s.content fd) ∧ s.Holds i k

/-- What holds in all states of careful runs. -/
structure Inv (σ : Config ι) : Prop where
  fits : ∀ c, (σ.calls c).Fits σ.db
  apart : ∀ c c', c ≠ c' → (σ.calls c).Apart (σ.calls c')
  differ : ∀ c c', c ≠ c' → (σ.calls c).Differ (σ.calls c')
  oneRecord : σ.OneRecord
  separate : σ.db.Separate
  backed : ∀ i, (σ.db.table i).status = .valid → Backed σ.calls σ.db i

/-- What a call knows stays true if its slot stays the same, and no record of the name it writes
    appears. -/
theorem Call.Fits.congr {k : Call} {s s' : State} (hf : k.Fits s)
    (hslot : ∀ i, k.uses = some i → s'.table i = s.table i ∧ s'.file i = s.file i ∧
      ∀ f, s.file i = some f → s'.content f = s.content f)
    (hholds : ∀ n, k.Writes n → ∀ j, s'.Holds j n → s.Holds j n) : k.Fits s' := by
  -- Before a slot is chosen only the names matter, and afterwards the record, the file and its
  -- bytes, each as far as the call has come.
  cases k with
  | read => trivial
  | write n data pc =>
    cases pc with
    | findKey => trivial
    | done => trivial
    | freeIndex =>
      have hn := hholds n writes_freeIndex
      exact fun j hj => hf j (hn j hj)
    | setBusy i =>
      have hn := hholds n (writes_of_chosen rfl)
      obtain ⟨ht, _, _⟩ := hslot i rfl
      refine ⟨hf.1.imp (fun hi => ⟨?_, ?_⟩) fun hi => ?_, fun j hj => hf.2 j (hn j hj)⟩
      · rw [ht, hi.status]
      · rw [ht, hi.name]
      · rw [ht, hi]
    | create i =>
      have hn := hholds n (writes_of_chosen rfl)
      obtain ⟨ht, _, _⟩ := hslot i rfl
      exact ⟨ht ▸ hf.1, fun j hj => hf.2 j (hn j hj)⟩
    | setInvalid i =>
      have hn := hholds n (writes_of_chosen rfl)
      obtain ⟨ht, _, _⟩ := hslot i rfl
      exact ⟨ht ▸ hf.1, fun j hj => hf.2 j (hn j hj)⟩
    | write i fd =>
      have hn := hholds n (writes_of_chosen rfl)
      obtain ⟨ht, hfile, hc⟩ := hslot i rfl
      obtain ⟨hbusy, hno, hfd, hnil⟩ := hf
      exact ⟨ht ▸ hbusy, fun j hj => hno j (hn j hj), hfile.trans hfd, (hc fd hfd).trans hnil⟩
    | setName i =>
      have hn := hholds n (writes_of_chosen rfl)
      obtain ⟨ht, hfile, hc⟩ := hslot i rfl
      obtain ⟨hbusy, hno, fd, hfd, hdata⟩ := hf
      exact ⟨ht ▸ hbusy, fun j hj => hno j (hn j hj), fd, hfile.trans hfd, (hc fd hfd).trans hdata⟩
    | setValid i =>
      have hn := hholds n (writes_of_chosen rfl)
      obtain ⟨ht, hfile, hc⟩ := hslot i rfl
      obtain ⟨hbusy, hno, ⟨fd, hfd, hdata⟩, hname⟩ := hf
      exact ⟨ht ▸ hbusy, fun j hj => hno j (hn j hj),
        ⟨fd, hfile.trans hfd, (hc fd hfd).trans hdata⟩, ht ▸ hname⟩
  | delete n pc =>
    cases pc with
    | setInvalid i =>
      obtain ⟨ht, hfile, _⟩ := hslot i rfl
      obtain ⟨hi, hnone⟩ := hf
      exact ⟨⟨ht ▸ hi.status, ht ▸ hi.name⟩, hfile.trans hnone⟩
    | _ => trivial

theorem State.Holds.key_unique {s : State} {i : Fin 200} {k k' : Key} (h : s.Holds i k)
    (h' : s.Holds i k') : k = k' := by
  cases k
  cases k'
  obtain rfl := h.name.symm.trans h'.name
  rfl

variable [DecidableEq ι] {σ : Config ι} {c : ι} {k : Call}

/-- Steps that do not change the database. -/
theorem Inv.stay (h : Inv σ) (hold : (σ.calls c).uses = none)
    (hnot : ∀ n bytes, ¬(σ.calls c).Wrote n bytes)
    (huse : ∀ i, k.uses = some i → ∀ c', c' ≠ c → (σ.calls c').uses ≠ some i)
    (hw : ∀ n, k.Writes n → ∀ c', c' ≠ c → ¬(σ.calls c').Writes n) (hfits : k.Fits σ.db) :
    Inv ⟨Function.update σ.calls c k, σ.db⟩ where
  fits := (Function.forall_update_iff _ fun _ (k : Call) => k.Fits σ.db).2 ⟨hfits, fun c' _ => h.fits c'⟩
  apart := pairwise_update Call.Apart.symm h.apart fun c' hc' i hi => huse i hi c' hc'
  differ := pairwise_update Call.Differ.symm h.differ fun c' hc' n hn => hw n hn c' hc'
  oneRecord := h.oneRecord
  separate := h.separate
  backed i hi := by
    rcases h.backed i hi with ⟨c', n, hc'⟩ | ⟨fd, hfd, c', n, hwr, hi⟩
    · have hne : c' ≠ c := by
        rintro rfl
        rw [hc'] at hold
        cases hold
      exact .inl ⟨c', n, (Function.update_of_ne hne _ _).trans hc'⟩
    · have hne : c' ≠ c := by
        rintro rfl
        exact hnot _ _ hwr
      refine .inr ⟨fd, hfd, c', n, ?_, hi⟩
      change (Function.update σ.calls c k c').Wrote n _
      rwa [Function.update_of_ne hne]

/-- Steps that work on one slot. -/
theorem Inv.move (h : Inv σ) {s' : State} {i : Fin 200} (hm : σ.db.Moves s' i)
    (hold : ∀ j, (σ.calls c).uses = some j → j = i)
    (hnot : ∀ n bytes, ¬(σ.calls c).Wrote n bytes)
    (hfree : ∀ c', c' ≠ c → (σ.calls c').uses ≠ some i)
    (huse : ∀ j, k.uses = some j → j = i)
    (hw : ∀ n, k.Writes n → (σ.calls c).Writes n) (hfits : k.Fits s')
    (hrecord : (s'.table i).status = .valid → s'.table i = σ.db.table i ∨
      ∃ n, (σ.calls c).Writes n ∧ s'.Holds i n ∧ ∀ j, ¬σ.db.Holds j n)
    (hback : (s'.table i).status = .valid → Backed (Function.update σ.calls c k) s' i) :
    Inv ⟨Function.update σ.calls c k, s'⟩ where
  fits := by
    refine (Function.forall_update_iff _ fun _ (k : Call) => k.Fits s').2 ⟨hfits, fun c' hc' => ?_⟩
    -- The other calls work on other slots, and write other names.
    refine (h.fits c').congr (fun j hj => ?_) fun n hn j hj => ?_
    · have hji : j ≠ i := fun he => hfree c' hc' (he ▸ hj)
      exact ⟨hm.table j hji, hm.file j hji, fun f hf => hm.content_of_ne h.separate hji hf⟩
    · by_cases hji : j = i
      · subst hji
        rcases hrecord hj.status with he | ⟨n', hn', hj', _⟩
        · exact ⟨he ▸ hj.status, he ▸ hj.name⟩
        · obtain rfl := hj.key_unique hj'
          exact absurd hn (h.differ c c' (Ne.symm hc') n hn')
      · exact ⟨hm.table j hji ▸ hj.status, hm.table j hji ▸ hj.name⟩
  apart := pairwise_update Call.Apart.symm h.apart fun c' hc' j hj => huse j hj ▸ hfree c' hc'
  differ := pairwise_update Call.Differ.symm h.differ fun c' hc' n hn =>
    h.differ c c' (Ne.symm hc') n (hw n hn)
  oneRecord := by
    -- The record in the slot is an old one, or the first one of its name.
    have hself : ∀ j, j ≠ i → (s'.table i).status = .valid → (s'.table j).status = .valid →
        (s'.table i).name ≠ (s'.table j).name := by
      intro j hji hi hj he
      rw [hm.table j hji] at hj he
      rcases hrecord hi with hsame | ⟨n, _, hi', hno⟩
      · rw [hsame] at hi he
        exact hji (h.oneRecord i j hi hj he).symm
      · exact hno j ⟨hj, he.symm.trans hi'.name⟩
    intro j l hj hl he
    by_cases hji : j = i <;> by_cases hli : l = i
    · rw [hji, hli]
    · subst hji
      exact absurd he (hself l hli hj hl)
    · subst hli
      exact absurd he.symm (hself j hji hl hj)
    · rw [hm.table j hji] at hj he
      rw [hm.table l hli] at hl he
      exact h.oneRecord j l hj hl he
  separate := hm.separate h.separate
  backed j hj := by
    by_cases hji : j = i
    · subst hji
      exact hback hj
    · have ht := hm.table j hji
      rcases h.backed j (ht ▸ hj) with ⟨c', n, hc'⟩ | ⟨fd, hfd, c', n, hwr, hi⟩
      · have hne : c' ≠ c := by
          rintro rfl
          exact hji (hold j (by rw [hc']; rfl))
        exact .inl ⟨c', n, (Function.update_of_ne hne _ _).trans hc'⟩
      · have hne : c' ≠ c := by
          rintro rfl
          exact hnot _ _ hwr
        -- Other records have other files, whose bytes stay.
        have hcontent := hm.content_of_ne h.separate hji hfd
        refine .inr ⟨fd, (hm.file j hji).trans hfd, c', n, ?_, ⟨ht ▸ hi.status, ht ▸ hi.name⟩⟩
        change (Function.update σ.calls c k c').Wrote n _
        rwa [Function.update_of_ne hne, hcontent]

end Inv

end Cs5600.Db
