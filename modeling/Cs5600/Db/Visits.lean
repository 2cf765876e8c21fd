import Mathlib.Logic.Relation
import Cs5600.Db.FailedWrite
import Cs5600.Db.Wire

/-!
# Runs of the server

The server handles connections one after the other, with whatever clients send,
and however system calls go, until a client asks it to quit (`Server.Reaches`).
One connection changes the database by one call, at most (`Visit.handle_db`), of
the name in its header (`Visit.Changes`), so that the states that the server gets
to are those that calls in a row lead to. A write that is acknowledged has stored
its payload (`Visit.of_acknowledged`).
-/

namespace Cs5600.Db

open CText

/-! ## Connections that are handled -/

namespace Visit

variable (v : Visit)

/-- The header that is in memory after the first `read`. -/
def header : Request := v.vars.req.fill (v.sock.read 40).2.1

/-- The memory that its name is in. -/
def key : List UInt8 := v.header.key v.vars.above

/-- What the second `read` returns, if it asks for the length in the header, and the bytes. -/
def payload : ℤ × List UInt8 × Socket :=
  (v.sock.read 40).2.2.read (min (v.header.count v.vars.above) 4096)

/-- The connection is handled. -/
def handle (sv : Server) : Handled := handleWork v.io v.vars v.sock sv

/-- A request to write or delete a name. -/
def Changes (k : List UInt8) : Prop :=
  0 < (v.sock.read 40).1 ∧
    (v.header.opStatus = 'W'.toUInt8 ∨ v.header.opStatus = 'D'.toUInt8) ∧ cString v.key = k

theorem handle_eq_of_nonpos (sv : Server) (hsize : (v.sock.read 40).1 ≤ 0) :
    v.handle sv =
      { server := { sv with stats := { sv.stats with failed := sv.stats.failed + 1 } }
        sent := []
        running := true } := by
  rw [handle, handleWork]
  simp only [if_pos hsize]

theorem handle_eq_of_quit (sv : Server) (hsize : 0 < (v.sock.read 40).1)
    (hq : v.header.opStatus = 'Q'.toUInt8) :
    v.handle sv = { server := { sv with db := sv.db.cleanup }, sent := [], running := false } := by
  rw [handle, handleWork]
  simp only [if_neg (not_le.2 hsize)]
  exact if_pos hq

/-- The header has been read, and does not ask the server to quit. -/
theorem handle_eq {sv : Server} (hsize : 0 < (v.sock.read 40).1)
    (hq : v.header.opStatus ≠ 'Q'.toUInt8) :
    v.handle sv =
      { server :=
          { db := (handleOp v.io v.vars v.header (v.sock.read 40).2.2 sv.db).2.2
            stats := sv.stats.count v.header.opStatus
              (handleOp v.io v.vars v.header (v.sock.read 40).2.2 sv.db).1.opStatus }
        sent :=
          ({ (handleOp v.io v.vars v.header (v.sock.read 40).2.2 sv.db).1 with
              name := fun _ => 0 } : Request).bytes ++
            (handleOp v.io v.vars v.header (v.sock.read 40).2.2 sv.db).2.1
        running := true } := by
  rw [handle, handleWork]
  simp only [if_neg (not_le.2 hsize)]
  exact if_neg hq

/-- The payload has been read as a whole. -/
theorem handleOp_payload (db : State) (hop : v.header.opStatus = 'W'.toUInt8)
    (hread : v.payload.1 = min (v.header.count v.vars.above) 4096) :
    handleOp v.io v.vars v.header (v.sock.read 40).2.2 db =
      (response v.vars (if (dbWrite v.io v.key (v.vars.payload v.payload.2.1) v.payload.1 db).1 = 0
        then 'K'.toUInt8 else 'X'.toUInt8) [], [],
        (dbWrite v.io v.key (v.vars.payload v.payload.2.1) v.payload.1 db).2) := by
  have hpayload : (v.sock.read 40).2.2.read v.payload.1 = (v.payload.1, v.payload.2) := by
    rw [hread]
    exact Prod.ext hread rfl
  exact handleOp_write hop hread.symm hpayload

/-- One connection changes the database by one call, at most. -/
theorem handle_db {sv : Server} (hrun : (v.handle sv).running = true) :
    (v.handle sv).server.db = sv.db ∨
    v.Changes (cString v.key) ∧
      ((v.header.opStatus = 'W'.toUInt8 ∧
          ∃ data len, (v.handle sv).server.db = (dbWrite v.io v.key data len sv.db).2) ∨
        (v.handle sv).server.db = (dbDelete v.key sv.db).2) := by
  by_cases hsize : 0 < (v.sock.read 40).1
  · have hq : v.header.opStatus ≠ 'Q'.toUInt8 := by
      intro hq
      rw [v.handle_eq_of_quit sv hsize hq] at hrun
      cases hrun
    rw [v.handle_eq hsize hq]
    by_cases hw : v.header.opStatus = 'W'.toUInt8
    · by_cases hread : v.payload.1 = min (v.header.count v.vars.above) 4096
      · refine .inr ⟨⟨hsize, .inl hw, rfl⟩, .inl ⟨hw, v.vars.payload v.payload.2.1,
          v.payload.1, ?_⟩⟩
        rw [v.handleOp_payload sv.db hw hread]
      · -- The payload is not read as a whole, and nothing is written.
        left
        rw [handleOp_short hw hread]
    · by_cases hr : v.header.opStatus = 'R'.toUInt8
      · left
        rw [handleOp_read hr]
        split_ifs <;> rfl
      · by_cases hd : v.header.opStatus = 'D'.toUInt8
        · refine .inr ⟨⟨hsize, .inr hd, rfl⟩, .inr ?_⟩
          rw [handleOp_delete hd]
          rfl
        · left
          rw [handleOp_other hw hr hd]
  · left
    rw [v.handle_eq_of_nonpos sv (not_lt.1 hsize)]

/-- A write that is acknowledged has stored the payload, in the record of the name or in a free
    one. -/
theorem of_acknowledged {sv : Server} (hop : v.header.opStatus = 'W'.toUInt8)
    (hK : (v.handle sv).sent.head? = some 'K'.toUInt8) :
    (v.handle sv).running = true ∧ v.payload.1 = min (v.header.count v.vars.above) 4096 ∧
    ∃ i, (sv.db.findKey v.key).or sv.db.freeIndex = some i ∧ (v.handle sv).server.db =
      sv.db.stored i v.key ((v.vars.payload v.payload.2.1).take v.payload.1.toNat) := by
  have hsize : 0 < (v.sock.read 40).1 := by
    by_contra hle
    rw [v.handle_eq_of_nonpos sv (not_lt.1 hle)] at hK
    cases hK
  have hq : v.header.opStatus ≠ 'Q'.toUInt8 := by
    rw [hop]
    decide
  rw [v.handle_eq hsize hq] at hK ⊢
  by_cases hread : v.payload.1 = min (v.header.count v.vars.above) 4096
  · rw [v.handleOp_payload sv.db hop hread] at hK ⊢
    have hzero : (dbWrite v.io v.key (v.vars.payload v.payload.2.1) v.payload.1 sv.db).1 = 0 := by
      by_contra hne
      rw [if_neg hne] at hK
      cases hK
    refine ⟨rfl, hread, ?_⟩
    -- A slot has been found, or the write would have failed.
    rcases dbWrite_cases sv.db v.key v.io (v.vars.payload v.payload.2.1) v.payload.1
      with he | ⟨i, hi, ⟨-, -, he⟩ | ⟨-, s', he, -⟩⟩
    · rw [he] at hzero
      cases hzero
    · exact ⟨i, hi, congrArg Prod.snd he⟩
    · rw [he] at hzero
      cases hzero
  · rw [handleOp_short hop hread] at hK
    cases hK

end Visit

/-- A server handles connections that have a property, and goes on. -/
def Server.Step (p : Visit → Prop) (sv sv' : Server) : Prop :=
  ∃ v, p v ∧ (v.handle sv).running = true ∧ (v.handle sv).server = sv'

/-- What a server becomes that handles such connections one after the other. -/
abbrev Server.Reaches (p : Visit → Prop) : Server → Server → Prop :=
  Relation.ReflTransGen (Server.Step p)

theorem Visit.reachable_handle {v : Visit} {sv : Server} (hsv : sv.db.Reachable)
    (hrun : (v.handle sv).running = true) : (v.handle sv).server.db.Reachable := by
  rcases v.handle_db hrun with he | ⟨-, ⟨-, data, len, he⟩ | he⟩
  · rwa [he]
  · rw [he]
    exact .write hsv _ _ _ _
  · rw [he]
    exact .delete hsv _

theorem Server.Reaches.reachable {p : Visit → Prop} {sv sv' : Server} (h : Server.Reaches p sv sv')
    (hsv : sv.db.Reachable) : sv'.db.Reachable := by
  induction h with
  | refl => exact hsv
  | tail _ hstep ih =>
    obtain ⟨v, -, hrun, rfl⟩ := hstep
    exact Visit.reachable_handle ih hrun

end Cs5600.Db
