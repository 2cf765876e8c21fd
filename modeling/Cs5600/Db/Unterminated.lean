import Cs5600.Db.Acknowledged

/-!
# Names without a NUL

The name in a header has 31 bytes, and is meant to have a NUL among them, which nobody
checks. If it has none, `find_key` reads on in the length of the data, which follows the
name in memory, while `strncpy` stores the 31 bytes. So the record is only found by a
header whose length is empty (`findKey_key_eq_none`), and a write of such a name with any
other length takes another slot. If each name that is written has a NUL, headers with the
same name find the same record in every state (`byName`).
-/

namespace Cs5600.Db

open CText

/-! ## Keys in memory -/

section Key

variable {s : State} {r r' : Request}

/-- The length of a header is empty, so that the name ends with its field. -/
theorem cString_len (r : Request) (above : List UInt8) :
    cString (List.ofFn r.len ++ above) = [] ↔ r.len 0 = 0 := by
  rw [List.ofFn_succ, List.cons_append, cString, List.takeWhile_cons]
  by_cases h0 : r.len 0 = 0
  · simp [h0]
  · simp [h0]

theorem cString_key_of_notMem (hname : 0 ∉ List.ofFn r.name) (above : List UInt8) :
    cString (r.key above) = List.ofFn r.name ++ cString (List.ofFn r.len ++ above) :=
  cString_append_of_notMem hname _

theorem Record.length_name_le (rec : Record) : rec.name.length ≤ 31 :=
  ((List.takeWhile_prefix _).length_le).trans_eq List.length_ofFn

/-- A record with 31 bytes of name has no room for a NUL. -/
theorem Record.name_eq_ofFn {rec : Record} {name : Fin 31 → UInt8} (hname : 0 ∉ List.ofFn name) :
    rec.name = List.ofFn name ↔ rec.recordName = name := by
  constructor
  · intro he
    have hpre : rec.name <+: List.ofFn rec.recordName := List.takeWhile_prefix _
    refine List.ofFn_injective ((hpre.eq_of_length ?_).symm.trans he)
    rw [he, List.length_ofFn, List.length_ofFn]
  · rintro rfl
    exact cString_eq_self hname

/-- A name that goes on after its field is longer than those in the table. -/
theorem findKey_key_eq_none (hname : 0 ∉ List.ofFn r.name) (hlen : r.len 0 ≠ 0)
    (above : List UInt8) : s.findKey (r.key above) = none := by
  refine State.findKey_none_iff.2 fun i _ he => ?_
  have hle := (s.table i).length_name_le
  have hpos : 0 < (cString (List.ofFn r.len ++ above)).length :=
    List.length_pos_iff.2 fun h => hlen ((cString_len r above).1 h)
  rw [he, cString_key_of_notMem hname, List.length_append, List.length_ofFn] at hle
  omega

theorem cString_key_of_len (hname : 0 ∉ List.ofFn r.name) (hlen : r.len 0 = 0)
    (above : List UInt8) : cString (r.key above) = List.ofFn r.name := by
  rw [cString_key_of_notMem hname, (cString_len r above).2 hlen, List.append_nil]

/-- Two headers with the same name find the same record if and only if the name has a NUL, or ends
    at the same place for both, or there is no record of the 31 bytes. -/
theorem findKey_key_eq_iff (hr : r.name = r'.name) (above above' : List UInt8) :
    s.findKey (r.key above) = s.findKey (r'.key above') ↔
      0 ∈ List.ofFn r.name ∨ (r.len 0 = 0 ↔ r'.len 0 = 0) ∨
        ∀ i, (s.table i).status = .valid → (s.table i).recordName ≠ r.name := by
  by_cases hname : 0 ∈ List.ofFn r.name
  · have hname' : 0 ∈ List.ofFn r'.name := hr ▸ hname
    refine iff_of_true ?_ (.inl hname)
    rw [State.findKey, State.findKey, Request.cString_key r hname, Request.cString_key r' hname',
      hr]
  · have hname' : 0 ∉ List.ofFn r'.name := hr ▸ hname
    have hnone : s.findKey (List.ofFn r.name) = none ↔
        ∀ i, (s.table i).status = .valid → (s.table i).recordName ≠ r.name := by
      rw [State.findKey_none_iff, cString_eq_self hname]
      exact forall₂_congr fun i _ => not_congr (Record.name_eq_ofFn hname)
    have hkey : r.len 0 = 0 → s.findKey (r.key above) = s.findKey (List.ofFn r.name) := by
      intro hlen
      rw [State.findKey, State.findKey, cString_key_of_len hname hlen, cString_eq_self hname]
    have hkey' : r'.len 0 = 0 → s.findKey (r'.key above') = s.findKey (List.ofFn r.name) := by
      intro hlen
      rw [State.findKey, State.findKey, cString_key_of_len hname' hlen, cString_eq_self hname, hr]
    rw [← hnone, or_iff_right hname]
    by_cases hlen : r.len 0 = 0 <;> by_cases hlen' : r'.len 0 = 0
    · exact iff_of_true (by rw [hkey hlen, hkey' hlen']) (.inl (iff_of_true hlen hlen'))
    · -- Only the first header finds the record, if there is one.
      rw [hkey hlen, findKey_key_eq_none hname' hlen', or_iff_right fun h => hlen' (h.1 hlen)]
    · rw [hkey' hlen', findKey_key_eq_none hname hlen, or_iff_right fun h => hlen (h.2 hlen'),
        eq_comm]
    · refine iff_of_true ?_ (.inl (iff_of_false hlen hlen'))
      rw [findKey_key_eq_none hname hlen, findKey_key_eq_none hname' hlen']

end Key

/-! ## Acknowledged writes -/

/-- After an acknowledged write, a header with the same name finds the record that it has stored
    if and only if the name has a NUL, or ends with its field and no earlier record has it. -/
theorem findKey_acknowledged_iff {v : Visit} {sv : Server} {r : Request} {i : Fin 200}
    (hop : v.header.opStatus = 'W'.toUInt8)
    (hK : (v.handle sv).sent.head? = some 'K'.toUInt8) (hr : r.name = v.header.name)
    (above : List UInt8) (hi : (sv.db.findKey v.key).or sv.db.freeIndex = some i) :
    (v.handle sv).server.db.findKey (r.key above) = some i ↔
      0 ∈ List.ofFn r.name ∨ (r.len 0 = 0 ∧
        ∀ j < i, (sv.db.table j).status = .valid → (sv.db.table j).recordName ≠ r.name) := by
  obtain ⟨-, -, i', hi', hdb⟩ := v.of_acknowledged hop hK
  obtain rfl := Option.some.inj (hi.symm.trans hi')
  rw [hdb, stored_findKey_iff]
  by_cases hname : 0 ∈ List.ofFn r.name
  · -- Both keys are the name up to its NUL, and the table has it.
    have hkey : cString v.key = cString (List.ofFn r.name) := by
      rw [hr] at hname ⊢
      exact Request.cString_key v.header hname v.vars.above
    have hle := Request.length_name r hname
    refine iff_of_true ⟨?_, fun j hj => ?_⟩ (.inl hname)
    · rw [Request.cString_key r hname, hkey, List.take_of_length_le (by omega)]
    · rw [Request.cString_key r hname, ← hkey]
      exact name_ne_of_lt_slot hi hj
  · -- The table has the 31 bytes, and the key goes on unless the length is empty.
    have hcut : (cString v.key).take 31 = List.ofFn r.name := by
      rw [hr] at hname ⊢
      rw [Visit.key, cString_key_of_notMem hname]
      exact List.take_left' List.length_ofFn
    rw [hcut, or_iff_right hname]
    by_cases hlen : r.len 0 = 0
    · rw [cString_key_of_len hname hlen]
      refine and_congr (iff_of_true rfl hlen) (forall₂_congr fun j _ => imp_congr_right fun _ => ?_)
      exact not_congr (Record.name_eq_ofFn hname)
    · refine iff_of_false (fun h => hlen ?_) fun h => hlen h.1
      rw [cString_key_of_notMem hname, List.self_eq_append_right] at h
      exact (cString_len r above).1 h.1

/-! ## Runs with a NUL in each name -/

/-- Headers with the same name find the same record, whatever follows the name in memory. -/
def State.ByName (s : State) : Prop :=
  ∀ (r r' : Request) (above above' : List UInt8), r.name = r'.name →
    s.findKey (r.key above) = s.findKey (r'.key above')

/-- If it is a write, its name has a NUL. -/
def Visit.Terminated (v : Visit) : Prop :=
  v.header.opStatus = 'W'.toUInt8 → 0 ∈ List.ofFn v.header.name

/-- The records have a NUL in their names. -/
def State.Terminated (s : State) : Prop :=
  ∀ i, (s.table i).status = .valid → 0 ∈ List.ofFn (s.table i).recordName

theorem State.Terminated.sameRecord {s : State} (h : s.Terminated) : s.ByName := by
  intro r r' above above' hr
  refine (findKey_key_eq_iff hr above above').2 (or_iff_not_imp_left.2 fun hname => .inr ?_)
  intro i hi he
  exact hname (he ▸ h i hi)

/-- A slot that is free, or gets a name with a NUL. -/
theorem State.Moves.terminated {s s' : State} {i : Fin 200} (h : s.Moves s' i) (hs : s.Terminated)
    (hi : (s'.table i).status = .valid → 0 ∈ List.ofFn (s'.table i).recordName) :
    s'.Terminated := by
  intro j hj
  by_cases hji : j = i
  · subst hji
    exact hi hj
  · rw [h.table j hji] at hj ⊢
    exact hs j hj

theorem Server.Reaches.terminated {sv sv' : Server} (h : Server.Reaches Visit.Terminated sv sv')
    (hsv : sv.db.Terminated) : sv'.db.Terminated := by
  induction h with
  | refl => exact hsv
  | tail _ hstep ih =>
    obtain ⟨v, hv, hrun, rfl⟩ := hstep
    rcases v.handle_db hrun with he | ⟨-, ⟨hop, data, len, he⟩ | he⟩
    · rwa [he]
    · rw [he]
      rcases dbWrite_cases _ v.key v.io data len with
        he | ⟨i, -, ⟨-, -, he⟩ | ⟨-, s', he, hmoves, htable⟩⟩
      · rwa [he]
      · -- The name that is stored is that of the header, with its NUL.
        rw [he]
        refine (stored_moves _ v.key _ i).terminated ih fun _ => ?_
        have hle := Request.length_name v.header (hv hop)
        rw [← Request.cString_key v.header (hv hop) v.vars.above] at hle
        rw [stored_table]
        change 0 ∈ List.ofFn (strncpy v.key : Fin 31 → UInt8)
        rw [ofFn_strncpy (show (cString v.key).length ≤ 30 from hle)]
        exact List.mem_append_right _ List.mem_cons_self
      · rw [he]
        exact hmoves.terminated ih (by simp [htable])
    · rw [he]
      rcases dbDelete_cases _ v.key with he | ⟨i, -, he⟩
      · rwa [he]
      · rw [he]
        refine ((moves_unlink _ i).trans (moves_setStatus _ i .invalid)).terminated ih fun hv => ?_
        rw [State.setStatus_self] at hv
        cases hv

/-- Two headers with the same name find the same record, and after an acknowledged write they find
    the one that it has stored, under exactly these conditions on the name and on the byte after
    it. In runs in which each name that is written has a NUL, they always do. -/
theorem byName (sv : Server) {r r' : Request} (hr : r.name = r'.name)
    (above above' : List UInt8) :
    (sv.db.findKey (r.key above) = sv.db.findKey (r'.key above') ↔
      0 ∈ List.ofFn r.name ∨ (r.len 0 = 0 ↔ r'.len 0 = 0) ∨
        ∀ i, (sv.db.table i).status = .valid → (sv.db.table i).recordName ≠ r.name) ∧
    (∀ (v : Visit) (i : Fin 200), v.header.opStatus = 'W'.toUInt8 →
      (v.handle sv).sent.head? = some 'K'.toUInt8 → r.name = v.header.name →
      (sv.db.findKey v.key).or sv.db.freeIndex = some i →
      ((v.handle sv).server.db.findKey (r.key above) = some i ↔
        0 ∈ List.ofFn r.name ∨ (r.len 0 = 0 ∧
          ∀ j < i, (sv.db.table j).status = .valid → (sv.db.table j).recordName ≠ r.name))) ∧
    (Server.Reaches Visit.Terminated .init sv →
      sv.db.findKey (r.key above) = sv.db.findKey (r'.key above') ∧
      ∀ v : Visit, v.Terminated → v.header.opStatus = 'W'.toUInt8 →
        (v.handle sv).sent.head? = some 'K'.toUInt8 → r.name = v.header.name →
        (v.handle sv).server.db.findKey (r.key above) =
          (sv.db.findKey v.key).or sv.db.freeIndex) := by
  refine ⟨findKey_key_eq_iff hr above above',
    fun v i hop hK hname hi => findKey_acknowledged_iff hop hK hname above hi, fun hsv => ⟨?_, ?_⟩⟩
  · have hinit : Server.init.db.Terminated := fun i hi => by cases hi
    exact (hsv.terminated hinit).sameRecord r r' above above' hr
  · intro v hv hop hK hname
    obtain ⟨-, -, i, hi, -⟩ := v.of_acknowledged hop hK
    rw [hi]
    exact (findKey_acknowledged_iff hop hK hname above hi).2 (.inl (hname ▸ hv hop))

/-- A write of one byte. -/
def writeLetterA : Visit := .whole (.filled 0 []) (.padded 'W'.toUInt8 keyA 1) [120]

/-- The record of the name "a" is found by a header whose length is "0". -/
theorem byName_writeLetterA :
    (writeLetterA.handle .init).server.db.findKey ((Request.padded 'R'.toUInt8 keyA 0).key []) =
      (State.init.findKey writeLetterA.key).or State.init.freeIndex :=
  ((byName .init (r := .padded 'R'.toUInt8 keyA 0) rfl [] []).2.2 .refl).2 writeLetterA
    (fun _ => by decide +kernel) (by decide +kernel) (by decide +kernel)
    (by rw [writeLetterA, Visit.header_whole]; rfl)

/-- A header whose name is 31 times "a". -/
def longName (op : UInt8) (len : List UInt8) : Request where
  opStatus := op
  name _ := 97
  len := strncpy len

/-- A write of five bytes to it. -/
def writeLongName : Visit := .whole (.filled 0 []) (longName 'W'.toUInt8 [53]) [1, 2, 3, 4, 5]

/-- The record is not found with the length "0", but with an empty one. -/
theorem not_byName_writeLongName :
    Server.Reaches (fun _ => True) .init (writeLongName.handle .init).server ∧
    (writeLongName.handle .init).sent.head? = some 'K'.toUInt8 ∧
    (writeLongName.handle .init).server.db.findKey ((longName 'R'.toUInt8 [48]).key []) = none ∧
    ¬(writeLongName.handle .init).server.db.ByName := by
  have hnone : (writeLongName.handle .init).server.db.findKey
      ((longName 'R'.toUInt8 [48]).key []) = none := by decide +kernel
  have hsome : (writeLongName.handle .init).server.db.findKey
      ((longName 'R'.toUInt8 []).key []) = some 0 := by decide +kernel
  refine ⟨.single ⟨writeLongName, trivial, by decide +kernel, rfl⟩, by decide +kernel, hnone,
    fun h => ?_⟩
  have heq := h (longName 'R'.toUInt8 [48]) (longName 'R'.toUInt8 []) [] [] rfl
  rw [hnone, hsome] at heq
  cases heq

end Cs5600.Db
