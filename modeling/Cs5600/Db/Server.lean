import Cs5600.CText
import Cs5600.Db.Table

/-!
# Requests

`handle_work` reads the header of a request from a connection, and the data that
follow it for a write, calls one of the functions of the database, and replies.
How much a `read` returns is a matter of the connection (`Socket`). The local
variables of `handle_work` are not initialized (`Locals`), and a string without
a NUL goes on in the memory after it.
-/

namespace Cs5600.Db

open CText

/-! ## Headers -/

/-- `struct request`. -/
structure Request where
  opStatus : UInt8
  name : Fin 31 → UInt8
  len : Fin 8 → UInt8

namespace Request

variable (r : Request)

/-- The 40 bytes of a header. -/
def bytes : List UInt8 := r.opStatus :: (List.ofFn r.name ++ List.ofFn r.len)

/-- The header of which these are the bytes. -/
def ofBytes (bytes : List UInt8) : Request where
  opStatus := bytes.getD 0 0
  name i := bytes.getD (1 + i) 0
  len i := bytes.getD (32 + i) 0

/-- A header whose first bytes are overwritten. -/
def fill (bytes : List UInt8) : Request := ofBytes (bytes ++ r.bytes.drop bytes.length)

/-- `snprintf(r.len, sizeof(r.len), "%d", v)`. It leaves the bytes after the NUL as they are. -/
def setLen (v : ℤ) : Request :=
  { r with len := fun i => ((formatInt v).take 7 ++ [0]).getD i (r.len i) }

end Request

/-! ## Connections -/

/-- A connection to a client. -/
structure Socket where
  /-- The bytes that the client sends. -/
  incoming : List UInt8
  /-- How much the next calls of `read` return at most, unless they fail. Later ones return what
      they ask for. -/
  splits : List (Option ℕ)

/-- `read(sock_fd, buf, count)`: what it returns, and the bytes. A negative count is an error. -/
def Socket.read (count : ℤ) (sock : Socket) : ℤ × List UInt8 × Socket :=
  if count < 0 then (-1, [], sock)
  else
    match sock.splits with
    | [] =>
      let bytes := sock.incoming.take count.toNat
      (bytes.length, bytes, { sock with incoming := sock.incoming.drop count.toNat })
    | none :: splits => (-1, [], { sock with splits })
    | some k :: splits =>
      let bytes := sock.incoming.take (min k count.toNat)
      (bytes.length, bytes, { incoming := sock.incoming.drop (min k count.toNat), splits })

/-! ## The server -/

/-- The local variables of `handle_work` before it assigns them, and the memory after `req`. -/
structure Locals where
  req : Request
  response : Request
  bufWrite : List UInt8
  above : List UInt8

/-- The counters of `dbserver.c`. -/
structure Stats where
  reads : ℕ
  writes : ℕ
  deletes : ℕ
  failed : ℕ

/-- What the requests change. -/
structure Server where
  db : State
  stats : Stats

/-- The server after it starts. -/
def Server.init : Server where
  db := .init
  stats := { reads := 0, writes := 0, deletes := 0, failed := 0 }

/-- The counters after a request of an operation, with the status of the reply. -/
def Stats.count (stats : Stats) (op status : UInt8) : Stats where
  reads := if op = 'R'.toUInt8 then stats.reads + 1 else stats.reads
  writes := if op = 'W'.toUInt8 then stats.writes + 1 else stats.writes
  deletes := if op = 'D'.toUInt8 then stats.deletes + 1 else stats.deletes
  failed := if status = 'X'.toUInt8 then stats.failed + 1 else stats.failed

/-- `db_cleanup`. -/
def State.cleanup (s : State) : State := { s with file := fun _ => none }

/-- What comes of a request. -/
structure Handled where
  server : Server
  /-- The bytes sent to the client. -/
  sent : List UInt8
  /-- Whether the server goes on. -/
  running : Bool

/-- The `switch` of `handle_work`: the response, the data sent after it, and the database. -/
def handleOp (io : Io) (vars : Locals) (req : Request) (sock : Socket) (db : State) :
    Request × List UInt8 × State :=
  let name := List.ofFn req.name ++ (List.ofFn req.len ++ vars.above)
  if req.opStatus = 'W'.toUInt8 then
    let len := min (atoi (List.ofFn req.len ++ vars.above)) 4096
    let (size, bytes, _) := sock.read len
    if size ≠ len then ({ vars.response with opStatus := 'X'.toUInt8 }, [], db)
    else
      let bufWrite := bytes ++ vars.bufWrite.drop bytes.length
      let (status, db) := dbWrite io name bufWrite len db
      let response :=
        { vars.response with opStatus := if status = 0 then 'K'.toUInt8 else 'X'.toUInt8 }
      (response.setLen 0, [], db)
  else if req.opStatus = 'R'.toUInt8 then
    let (len, bufRead) := dbRead io name db
    if len > 0 then
      (({ vars.response with opStatus := 'K'.toUInt8 } : Request).setLen len, bufRead, db)
    else (({ vars.response with opStatus := 'X'.toUInt8 } : Request).setLen 0, [], db)
  else if req.opStatus = 'D'.toUInt8 then
    let (status, db) := dbDelete name db
    let response :=
      { vars.response with opStatus := if status = 0 then 'K'.toUInt8 else 'X'.toUInt8 }
    (response.setLen 0, [], db)
  else (({ vars.response with opStatus := 'X'.toUInt8 } : Request).setLen 0, [], db)

/-- `handle_work`. -/
def handleWork (io : Io) (vars : Locals) (sock : Socket) (sv : Server) : Handled :=
  let (size, bytes, sock) := sock.read 40
  if size ≤ 0 then
    { server := { sv with stats := { sv.stats with failed := sv.stats.failed + 1 } }
      sent := []
      running := true }
  else
    let req := vars.req.fill bytes
    if req.opStatus = 'Q'.toUInt8 then
      { server := { sv with db := sv.db.cleanup }, sent := [], running := false }
    else
      let (response, data, db) := handleOp io vars req sock sv.db
      let response := { response with name := fun _ => 0 }
      { server := { db, stats := sv.stats.count req.opStatus response.opStatus }
        sent := response.bytes ++ data
        running := true }

/-- A connection, and what a worker that handles it meets with. -/
structure Visit where
  io : Io
  vars : Locals
  sock : Socket

/-- What a server sends that handles connections one after the other. -/
def serve (sv : Server) : List Visit → List (List UInt8) × Server
  | [] => ([], sv)
  | v :: vs =>
    let h := handleWork v.io v.vars v.sock sv
    if h.running then (h.sent :: (serve h.server vs).1, (serve h.server vs).2)
    else ([h.sent], h.server)

/-! ## The bytes of headers -/

/-- A field whose first bytes are overwritten. -/
theorem ofFn_getD {size : ℕ} {bytes : List UInt8} {field : Fin size → UInt8}
    (h : bytes.length ≤ size) :
    List.ofFn (fun i : Fin size => bytes.getD i (field i)) =
      bytes ++ (List.ofFn field).drop bytes.length := by
  refine List.ext_getElem ?_ fun i h₁ h₂ => ?_
  · rw [List.length_append, List.length_drop, List.length_ofFn, List.length_ofFn,
      Nat.add_sub_cancel' h]
  · rw [List.getElem_ofFn]
    by_cases hi : i < bytes.length
    · rw [List.getElem_append_left hi, List.getD_eq_getElem _ _ hi]
    · rw [List.getElem_append_right (not_lt.1 hi), List.getElem_drop, List.getElem_ofFn,
        List.getD_eq_default _ _ (not_lt.1 hi)]
      congr 1
      exact Fin.ext (Nat.add_sub_cancel' (not_lt.1 hi)).symm

namespace Request

variable (r : Request)

theorem length_bytes : r.bytes.length = 40 := by
  rw [bytes, List.length_cons, List.length_append, List.length_ofFn, List.length_ofFn]

theorem ofBytes_bytes : ofBytes r.bytes = r := by
  obtain ⟨op, name, len⟩ := r
  have hname : ∀ i : Fin 31, (op :: (List.ofFn name ++ List.ofFn len)).getD (1 + i) 0 = name i := by
    intro i
    rw [Nat.add_comm, List.getD_cons_succ, List.getD_append _ _ _ _ (by simp),
      List.getD_eq_getElem _ _ (by simp), List.getElem_ofFn]
  have hlen : ∀ i : Fin 8, (op :: (List.ofFn name ++ List.ofFn len)).getD (32 + i) 0 = len i := by
    intro i
    rw [show 32 + (i : ℕ) = 31 + i + 1 by omega, List.getD_cons_succ,
      List.getD_append_right _ _ _ _ (by simp), List.length_ofFn, Nat.add_sub_cancel_left,
      List.getD_eq_getElem _ _ (by simp), List.getElem_ofFn]
  rw [ofBytes, bytes, funext hname, funext hlen]
  rfl

/-- A header that has been read whole. -/
theorem fill_bytes (r' : Request) : r.fill r'.bytes = r' := by
  rw [fill, length_bytes, ← length_bytes r, List.drop_length, List.append_nil, ofBytes_bytes]

theorem cString_setLen {v : ℤ} (hv : (formatInt v).length ≤ 7) (h0 : 0 ∉ formatInt v) :
    cString (List.ofFn (r.setLen v).len) = formatInt v := by
  have hlen : (r.setLen v).len = fun i => (formatInt v ++ [0]).getD i (r.len i) := by
    rw [setLen, List.take_of_length_le hv]
  have hlength : (formatInt v ++ [0]).length ≤ 8 := by
    rw [List.length_append]
    exact Nat.succ_le_succ hv
  rw [hlen, ofFn_getD hlength, List.append_assoc, List.singleton_append, cString_append_nul h0]

end Request

/-- A `read` that transfers fully. -/
theorem Socket.read_full (bytes rest : List UInt8) {count : ℤ} (h : count = bytes.length) :
    Socket.read count { incoming := bytes ++ rest, splits := [] } =
      (count, bytes, { incoming := rest, splits := [] }) := by
  subst h
  rw [Socket.read, if_neg (not_lt.2 (Int.natCast_nonneg _))]
  simp only [Int.toNat_natCast, List.take_left, List.drop_left]

end Cs5600.Db
