import Cs5600.Db.Acknowledged

/-!
# What is in a reply

The response that `handle_work` sends is a local variable, whose bytes are at first
what has been in memory. Each case of the switch assigns its status and the length of
the data that follow, and `handle_work` clears the name after it. Only where the
payload of a write cannot be read, the case ends before there is a length. So a
reply is the same, whatever has been in memory, up to the NUL after its length, if and
only if the payload of a write is read (`cleanReply_iff`).
-/

namespace Cs5600.Db

open CText

/-- A connection with other bytes in memory where the response is. -/
def Visit.withResponse (v : Visit) (r : Request) : Visit :=
  { v with vars := { v.vars with response := r } }

/-- If there is a reply, it has the status K or X, no name, and the length of the data that follow,
    all of them the same whatever has been in memory. -/
def Visit.CleanReply (v : Visit) (sv : Server) : Prop :=
  (∀ r, ((v.withResponse r).handle sv).sent = []) ∨
  ∃ (status : UInt8) (data : List UInt8), (status = 'K'.toUInt8 ∨ status = 'X'.toUInt8) ∧
    ∀ r, Responds status data ((v.withResponse r).handle sv).sent

/-! ## The cases of the switch -/

/-- A `db_read` fails, or returns the number of the bytes that it has read. -/
theorem dbRead_cases (io : Io) (name : List UInt8) (s : State) :
    dbRead io name s = (-1, []) ∨
    ∃ buf : List UInt8, buf.length ≤ 4096 ∧ dbRead io name s = ((buf.length : ℤ), buf) := by
  rw [dbRead]
  cases s.findKey name with
  | none => exact .inl rfl
  | some i =>
    cases hf : s.file i with
    | none =>
      left
      simp only [hf]
    | some fd =>
      simp only [hf]
      by_cases hopens : io.opens
      · rw [if_pos hopens]
        exact .inr ⟨_, List.length_take_le .., rfl⟩
      · rw [if_neg hopens]
        exact .inl rfl

/-- The status and the data that are sent, and the length in the response, do not depend on what
    the response has been. -/
theorem exists_handleOp_eq (io : Io) (vars : Locals) (req : Request) (sock : Socket) (db : State)
    (h : req.opStatus = 'W'.toUInt8 →
      (sock.read (min (req.count vars.above) 4096)).1 = min (req.count vars.above) 4096) :
    ∃ (status : UInt8) (data : List UInt8) (db' : State),
      (status = 'K'.toUInt8 ∨ status = 'X'.toUInt8) ∧ data.length ≤ 4096 ∧
      ∀ r, handleOp io { vars with response := r } req sock db =
        (response { vars with response := r } status data, data, db') := by
  have hite : ∀ (p : Prop) [Decidable p], (if p then 'K'.toUInt8 else 'X'.toUInt8) = 'K'.toUInt8 ∨
      (if p then 'K'.toUInt8 else 'X'.toUInt8) = 'X'.toUInt8 := by
    intro p _
    split_ifs
    · exact .inl rfl
    · exact .inr rfl
  by_cases hw : req.opStatus = 'W'.toUInt8
  · obtain ⟨len, hlen⟩ : ∃ len, min (req.count vars.above) 4096 = len := ⟨_, rfl⟩
    rw [hlen] at h
    have hread : sock.read len = (len, (sock.read len).2) := Prod.ext (h hw) rfl
    obtain ⟨result, hresult⟩ : ∃ result, dbWrite io (req.key vars.above)
        (vars.payload (sock.read len).2.1) len db = result := ⟨_, rfl⟩
    -- What the response has been is not among the arguments of `db_write`.
    refine ⟨_, [], result.2, hite (result.1 = 0), Nat.zero_le _, fun r => ?_⟩
    rw [← hresult]
    exact handleOp_write hw hlen hread
  · by_cases hr : req.opStatus = 'R'.toUInt8
    · rcases dbRead_cases io (req.key vars.above) db with he | ⟨buf, hbuf, he⟩
      · refine ⟨'X'.toUInt8, [], db, .inr rfl, Nat.zero_le _, fun r => ?_⟩
        rw [handleOp_read hr, he, if_neg (by decide)]
      · -- A record without data is answered like none.
        by_cases hpos : 0 < (buf.length : ℤ)
        · refine ⟨'K'.toUInt8, buf, db, .inl rfl, hbuf, fun r => ?_⟩
          rw [handleOp_read hr, he, if_pos hpos]
          rfl
        · refine ⟨'X'.toUInt8, [], db, .inr rfl, Nat.zero_le _, fun r => ?_⟩
          rw [handleOp_read hr, he, if_neg hpos]
    · by_cases hd : req.opStatus = 'D'.toUInt8
      · exact ⟨_, [], (dbDelete (req.key vars.above) db).2,
          hite ((dbDelete (req.key vars.above) db).1 = 0), Nat.zero_le _,
          fun r => handleOp_delete hd⟩
      · exact ⟨'X'.toUInt8, [], db, .inr rfl, Nat.zero_le _, fun r => handleOp_other hw hr hd⟩

/-! ## Replies -/

section Replies

variable {v : Visit} {sv : Server}

/-- There is no reply if no header is read, or if it asks the server to quit. -/
theorem sent_eq_nil (h : (v.sock.read 40).1 ≤ 0 ∨ v.header.opStatus = 'Q'.toUInt8) :
    (v.handle sv).sent = [] := by
  by_cases hsize : (v.sock.read 40).1 ≤ 0
  · rw [v.handle_eq_of_nonpos sv hsize]
  · rw [v.handle_eq_of_quit sv (not_le.1 hsize) (h.resolve_left hsize)]

theorem sent_eq (hsize : 0 < (v.sock.read 40).1) (hq : v.header.opStatus ≠ 'Q'.toUInt8)
    {r : Request} {data : List UInt8} {db : State}
    (h : handleOp v.io v.vars v.header (v.sock.read 40).2.2 sv.db = (r, data, db)) :
    (v.handle sv).sent = ({ r with name := fun _ => 0 } : Request).bytes ++ data := by
  rw [v.handle_eq hsize hq, h]

/-- If the payload of a write cannot be read, what has been in memory is sent for the length. -/
theorem not_cleanReply (hsize : 0 < (v.sock.read 40).1) (hop : v.header.opStatus = 'W'.toUInt8)
    (hread : v.payload.1 ≠ min (v.header.count v.vars.above) 4096) : ¬v.CleanReply sv := by
  have hq : v.header.opStatus ≠ 'Q'.toUInt8 := by
    rw [hop]
    decide
  have hsent : ∀ r, ((v.withResponse r).handle sv).sent =
      ({ opStatus := 'X'.toUInt8, name := fun _ => 0, len := r.len } : Request).bytes := by
    intro r
    rw [sent_eq (v := v.withResponse r) hsize hq (handleOp_short hop hread), List.append_nil]
    rfl
  rintro (hnil | ⟨status, data, -, hclean⟩)
  · have h := congrArg List.length ((hsent v.vars.response).symm.trans (hnil _))
    rw [Request.length_bytes] at h
    cases h
  · -- A length without a NUL is in memory.
    obtain ⟨r, hr, -, -, hlen⟩ := hclean { opStatus := 0, name := fun _ => 0, len := fun _ => 65 }
    rw [hsent] at hr
    have hdata : data = [] := by
      have h := congrArg List.length hr
      rw [List.length_append, Request.length_bytes, Request.length_bytes] at h
      exact List.eq_nil_of_length_eq_zero (by omega)
    rw [hdata, List.append_nil] at hr
    have heq := congrArg Request.ofBytes hr
    rw [Request.ofBytes_bytes, Request.ofBytes_bytes] at heq
    rw [← heq, hdata] at hlen
    revert hlen
    decide

/-- There is a reply with nothing of what has been in memory, whatever the request is and however
    system calls go, unless the payload of a write is not read as a whole. -/
theorem cleanReply_iff (v : Visit) (sv : Server) : v.CleanReply sv ↔
    (v.sock.read 40).1 ≤ 0 ∨ v.header.opStatus ≠ 'W'.toUInt8 ∨
      v.payload.1 = min (v.header.count v.vars.above) 4096 := by
  constructor
  · intro hclean
    by_contra hno
    obtain ⟨hsize, hno⟩ := not_or.1 hno
    obtain ⟨hop, hread⟩ := not_or.1 hno
    exact not_cleanReply (not_le.1 hsize) (not_not.1 hop) hread hclean
  · intro h
    by_cases hnone : (v.sock.read 40).1 ≤ 0 ∨ v.header.opStatus = 'Q'.toUInt8
    · exact .inl fun r => sent_eq_nil (v := v.withResponse r) hnone
    · obtain ⟨hsize, hq⟩ := not_or.1 hnone
      obtain ⟨status, data, db, hstatus, hdata, hhandle⟩ :=
        exists_handleOp_eq v.io v.vars v.header (v.sock.read 40).2.2 sv.db fun hop =>
          (h.resolve_left hsize).resolve_left (not_not.2 hop)
      refine .inr ⟨status, data, hstatus, fun r => ?_⟩
      rw [sent_eq (v := v.withResponse r) (not_le.1 hsize) hq (hhandle r)]
      exact responds hdata

end Replies

/-- A write of five bytes, of which none comes. -/
def writeNothing : Visit := .whole (.filled 0 []) (.padded 'W'.toUInt8 keyA 5) []

/-- Its header is complete, and the bytes of the length in the reply are those that have been in
    memory. -/
theorem not_cleanReply_writeNothing :
    writeNothing.header = .padded 'W'.toUInt8 keyA 5 ∧ ¬writeNothing.CleanReply .init :=
  ⟨Visit.header_whole ..,
    not_cleanReply (by decide +kernel) (by decide +kernel) (by decide +kernel)⟩

end Cs5600.Db
