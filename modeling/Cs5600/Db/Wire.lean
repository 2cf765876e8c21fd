import Cs5600.Db.Sequential
import Cs5600.Db.Server

/-!
# The server as a map

A server that handles requests one after the other is a map from names to data,
with room for 200 names: the header and the data that it sends are what the map
replies (`serve_sends`), whatever is in the local variables and in the bytes of
the header after a name or a length.
-/

namespace Cs5600.Db

open BoundedMap CText

/-! ## Requests and replies -/

/-- A header that asks a query, with the data that follow it. Its fields have the name and the
    length of the data with a NUL after them. -/
def Request.Asks (r : Request) (data : List UInt8) : Query (List UInt8) (List UInt8) → Prop
  | .write k v => r.opStatus = 'W'.toUInt8 ∧ (cString (List.ofFn r.name) = k ∧ k.length ≤ 30) ∧
      (1 ≤ v.length ∧ v.length ≤ 4096) ∧ cString (List.ofFn r.len) = decimal v.length ∧ data = v
  | .read k => r.opStatus = 'R'.toUInt8 ∧ (cString (List.ofFn r.name) = k ∧ k.length ≤ 30) ∧
      data = []
  | .delete k => r.opStatus = 'D'.toUInt8 ∧ (cString (List.ofFn r.name) = k ∧ k.length ≤ 30) ∧
      data = []

/-- The header of a request whose fields are padded with NULs. -/
def Request.padded (op : UInt8) (k : Key) (size : ℕ) : Request where
  opStatus := op
  name := strncpy k.bytes
  len := strncpy (decimal size)

theorem Request.padded_asks (k : Key) {data : List UInt8}
    (hdata : 1 ≤ data.length ∧ data.length ≤ 4096) :
    (Request.padded 'W'.toUInt8 k data.length).Asks data (.write k.bytes data) ∧
    (Request.padded 'R'.toUInt8 k 0).Asks [] (.read k.bytes) ∧
    (Request.padded 'D'.toUInt8 k 0).Asks [] (.delete k.bytes) := by
  have hname : cString (List.ofFn (strncpy k.bytes : Fin 31 → UInt8)) = k.bytes ∧
      k.bytes.length ≤ 30 := ⟨k.cString_strncpy, k.length_le⟩
  have h0 : cString (decimal data.length) = decimal data.length :=
    cString_eq_self nul_notMem_decimal
  refine ⟨⟨rfl, hname, hdata, ?_, rfl⟩, ⟨rfl, hname, rfl⟩, rfl, hname, rfl⟩
  have hlength : (decimal data.length).length ≤ 7 := length_decimal_le (by decide) (by omega)
  rw [Request.padded, ofFn_strncpy (by rwa [h0]), h0, cString_append_nul nul_notMem_decimal]

/-- A well-formed request, and the local variables that it meets. -/
structure Ask where
  query : Query (List UInt8) (List UInt8)
  request : Request
  data : List UInt8
  asks : request.Asks data query
  vars : Locals

/-- The request on a connection that transfers fully. -/
def Ask.visit (a : Ask) : Visit where
  io := .all
  vars := a.vars
  sock := { incoming := a.request.bytes ++ a.data, splits := [] }

/-- A header with a status, no name, and the length of the data that follow it. -/
def Responds (status : UInt8) (data sent : List UInt8) : Prop :=
  ∃ r : Request, sent = r.bytes ++ data ∧ r.opStatus = status ∧ r.name = (fun _ => 0) ∧
    cString (List.ofFn r.len) = decimal data.length

/-- What is sent is a reply. -/
def Sends (sent : List UInt8) : Reply (List UInt8) → Prop
  | .ok => Responds 'K'.toUInt8 [] sent
  | .value v => Responds 'K'.toUInt8 v sent
  | .fail => Responds 'X'.toUInt8 [] sent

/-- A response, with the length of the data in its header. -/
def response (vars : Locals) (status : UInt8) (data : List UInt8) : Request :=
  ({ vars.response with opStatus := status } : Request).setLen data.length

/-- The memory that `req.name` points to. -/
def Request.key (r : Request) (above : List UInt8) : List UInt8 :=
  List.ofFn r.name ++ (List.ofFn r.len ++ above)

/-- `atoi(req.len)`. -/
def Request.count (r : Request) (above : List UInt8) : ℤ := atoi (List.ofFn r.len ++ above)

/-! ## The cases of the switch -/

section Switch

variable {io : Io} {vars : Locals} {req : Request} {sock : Socket} {db : State}

/-- The payload is short, or cannot be read: nothing is assigned to the length of the response. -/
theorem handleOp_short (hop : req.opStatus = 'W'.toUInt8)
    (h : (sock.read (min (req.count vars.above) 4096)).1 ≠ min (req.count vars.above) 4096) :
    handleOp io vars req sock db =
      ({ vars.response with opStatus := 'X'.toUInt8 }, [], db) := by
  rw [handleOp, if_pos hop]
  exact if_pos h

/-- What `db_write` is called with when the payload has been read. -/
def Locals.payload (vars : Locals) (bytes : List UInt8) : List UInt8 :=
  bytes ++ vars.bufWrite.drop bytes.length

theorem handleOp_write (hop : req.opStatus = 'W'.toUInt8) {len : ℤ} {bytes : List UInt8}
    {rest : Socket} (hlen : min (req.count vars.above) 4096 = len)
    (h : sock.read len = (len, bytes, rest)) :
    handleOp io vars req sock db =
      (response vars (if (dbWrite io (req.key vars.above) (vars.payload bytes) len db).1 = 0
        then 'K'.toUInt8 else 'X'.toUInt8) [], [],
        (dbWrite io (req.key vars.above) (vars.payload bytes) len db).2) := by
  rw [Request.count] at hlen
  rw [handleOp, if_pos hop, hlen]
  simp only [h, ne_eq, not_true_eq_false, if_false]
  rfl

theorem handleOp_read (hop : req.opStatus = 'R'.toUInt8) :
    handleOp io vars req sock db =
      if 0 < (dbRead io (req.key vars.above) db).1 then
        (({ vars.response with opStatus := 'K'.toUInt8 } : Request).setLen
          (dbRead io (req.key vars.above) db).1, (dbRead io (req.key vars.above) db).2, db)
      else (response vars 'X'.toUInt8 [], [], db) := by
  rw [handleOp, if_neg (by rw [hop]; decide), if_pos hop]
  rfl

theorem handleOp_delete (hop : req.opStatus = 'D'.toUInt8) :
    handleOp io vars req sock db =
      (response vars (if (dbDelete (req.key vars.above) db).1 = 0
        then 'K'.toUInt8 else 'X'.toUInt8) [], [], (dbDelete (req.key vars.above) db).2) := by
  rw [handleOp, if_neg (by rw [hop]; decide), if_neg (by rw [hop]; decide), if_pos hop]
  rfl

theorem handleOp_other (hw : req.opStatus ≠ 'W'.toUInt8) (hr : req.opStatus ≠ 'R'.toUInt8)
    (hd : req.opStatus ≠ 'D'.toUInt8) :
    handleOp io vars req sock db = (response vars 'X'.toUInt8 [], [], db) := by
  rw [handleOp, if_neg hw, if_neg hr, if_neg hd]
  rfl

end Switch

/-! ## Requests that ask a query -/

section Handle

variable {s : State} {m : List UInt8 → Option (List UInt8)}

/-- A name ends before the bytes that follow it in memory. -/
theorem cString_name {k : List UInt8} {field : Fin 31 → UInt8}
    (h : cString (List.ofFn field) = k ∧ k.length ≤ 30) (rest : List UInt8) :
    cString (List.ofFn field ++ rest) = k := by
  obtain ⟨hname, hk⟩ := h
  refine (cString_append ?_ rest).trans hname
  rw [hname, List.length_ofFn]
  omega

/-- The length in a header is read as it is, if there is a NUL after it. -/
theorem atoi_cString {bs : List UInt8} {n : ℕ} (hn : n ≤ 4096) (h : cString bs = decimal n)
    (hlt : (decimal n).length < bs.length) : min (atoi bs) 4096 = n := by
  obtain ⟨pad, hpad⟩ := exists_eq_cString_append (h.symm ▸ hlt)
  rw [hpad, h, atoi_decimal (by omega)]
  · exact min_eq_left (by omega)
  · rintro b hb
    obtain rfl := Option.some.inj hb
    decide

/-- The length in the header of a write. -/
theorem atoi_len {n : ℕ} {field : Fin 8 → UInt8} (hn : n ≤ 4096)
    (h : cString (List.ofFn field) = decimal n) (above : List UInt8) :
    min (atoi (List.ofFn field ++ above)) 4096 = n := by
  have hlength : (decimal n).length ≤ 7 := length_decimal_le (by decide) (by omega)
  refine atoi_cString hn ((cString_append ?_ above).trans h) ?_
  · rw [h, List.length_ofFn]
    omega
  · rw [List.length_append, List.length_ofFn]
    omega

theorem responds {vars : Locals} {status : UInt8} {data : List UInt8} (hlen : data.length ≤ 4096) :
    Responds status data
      (({ response vars status data with name := fun _ => 0 } : Request).bytes ++ data) := by
  refine ⟨_, rfl, rfl, rfl, Request.cString_setLen _ ?_ nul_notMem_decimal⟩
  exact length_decimal_le (by decide) (by omega)

/-- What `handle_work` does when it has read a header. -/
def handleHeader (io : Io) (vars : Locals) (sv : Server) (req : Request) (sock : Socket) : Handled :=
  if req.opStatus = 'Q'.toUInt8 then
    { server := { sv with db := sv.db.cleanup }, sent := [], running := false }
  else
    let (response, data, db) := handleOp io vars req sock sv.db
    let response := { response with name := fun _ => 0 }
    { server := { db, stats := sv.stats.count req.opStatus response.opStatus }
      sent := response.bytes ++ data
      running := true }

theorem handleWork_whole {io : Io} {vars : Locals} {sv : Server} {r : Request} {data : List UInt8} :
    handleWork io vars { incoming := r.bytes ++ data, splits := [] } sv =
      handleHeader io vars sv r { incoming := data, splits := [] } := by
  rw [handleWork, Socket.read_full r.bytes data (by rw [Request.length_bytes]; rfl)]
  simp only [Request.fill_bytes]
  rfl

/-- What comes of a request that has been read whole. -/
theorem handleWork_full {io : Io} {vars : Locals} {req : Request} {data : List UInt8} {sv : Server}
    (hq : req.opStatus ≠ 'Q'.toUInt8) {r : Request} {sent : List UInt8} {db : State}
    (hop : handleOp io vars req { incoming := data, splits := [] } sv.db = (r, sent, db)) :
    handleWork io vars { incoming := req.bytes ++ data, splits := [] } sv =
      { server := { db, stats := sv.stats.count req.opStatus r.opStatus }
        sent := ({ r with name := fun _ => 0 } : Request).bytes ++ sent
        running := true } := by
  rw [handleWork_whole, handleHeader, if_neg hq]
  simp only [hop]

/-- A request does what it asks, and gets the reply. -/
theorem handleOp_ask (h : s.Implements m) {q : Query (List UInt8) (List UInt8)} {req : Request}
    {data : List UInt8} (asks : req.Asks data q) (vars : Locals) : ∃ status sent db,
      handleOp .all vars req { incoming := data, splits := [] } s =
        (response vars status sent, sent, db) ∧ db.Implements (BoundedMap.step 200 m q).2 ∧
      match (BoundedMap.step 200 m q).1 with
      | .ok => status = 'K'.toUInt8 ∧ sent = []
      | .value v => status = 'K'.toUInt8 ∧ sent = v ∧ v.length ≤ 4096
      | .fail => status = 'X'.toUInt8 ∧ sent = [] := by
  cases q with
  | write k v =>
    obtain ⟨hop, hname, hv, hlen, rfl⟩ := asks
    have hk : cString (req.key vars.above) = k := cString_name hname _
    have hread := Socket.read_full data [] (rfl : (data.length : ℤ) = data.length)
    rw [List.append_nil] at hread
    have hkle : (cString (req.key vars.above)).length ≤ 30 := by
      rw [hk]
      exact hname.2
    -- The payload is at the beginning of the buffer.
    have hle : data.length ≤ (vars.payload data).length := by
      rw [Locals.payload, List.length_append]
      exact Nat.le_add_right ..
    rw [handleOp_write hop (atoi_len hv.2 hlen vars.above) hread, BoundedMap.step]
    by_cases hroom : (m k).isSome ∨ size m < 200
    · obtain ⟨hzero, hdb⟩ := h.dbWrite_ok hkle hv hle (by rwa [hk])
      rw [hk, Locals.payload, List.take_left] at hdb
      rw [if_pos hroom, if_pos hzero]
      exact ⟨_, [], _, rfl, hdb, rfl, rfl⟩
    · have hfull := h.dbWrite_full .all (vars.payload data) data.length (by rwa [hk])
      rw [if_neg hroom, hfull, if_neg (show ¬(-1 : ℤ) = 0 by decide)]
      exact ⟨_, [], _, rfl, h, rfl, rfl⟩
  | read k =>
    obtain ⟨hop, hname, rfl⟩ := asks
    have hk : cString (req.key vars.above) = k := cString_name hname _
    rw [handleOp_read hop, h.dbRead_all, hk, BoundedMap.step]
    cases hm : m k with
    | none => exact ⟨_, [], _, rfl, h, rfl, rfl⟩
    | some v =>
      obtain ⟨hpos, hle⟩ := h.sized k v hm
      simp only [Int.natCast_pos, hpos, if_true]
      exact ⟨_, v, _, rfl, h, rfl, rfl, hle⟩
  | delete k =>
    obtain ⟨hop, hname, rfl⟩ := asks
    have hk : cString (req.key vars.above) = k := cString_name hname _
    rw [handleOp_delete hop, BoundedMap.step]
    by_cases hm : (m k).isSome
    · rw [← hk] at hm
      obtain ⟨hzero, hdb⟩ := h.dbDelete_ok hm
      rw [hk] at hdb hm
      rw [if_pos hzero, if_pos hm]
      exact ⟨_, [], _, rfl, hdb, rfl, rfl⟩
    · have hnone := hm
      rw [← hk, Option.not_isSome_iff_eq_none] at hnone
      rw [h.dbDelete_none hnone, if_neg hm, if_neg (show ¬(-1 : ℤ) = 0 by decide)]
      exact ⟨_, [], _, rfl, h, rfl, rfl⟩

theorem handleWork_ask (h : s.Implements m) (a : Ask) (stats : Stats) :
    ∃ sent db stats', handleWork .all a.vars a.visit.sock ⟨s, stats⟩ = ⟨⟨db, stats'⟩, sent, true⟩ ∧
      Sends sent (BoundedMap.step 200 m a.query).1 ∧
        db.Implements (BoundedMap.step 200 m a.query).2 := by
  -- None of the three requests asks the server to quit.
  have hq : a.request.opStatus ≠ 'Q'.toUInt8 := by
    have hasks := a.asks
    cases hquery : a.query with
    | _ =>
      rw [hquery] at hasks
      rw [hasks.1]
      decide
  obtain ⟨status, sent, db, hop, hdb, hreply⟩ := handleOp_ask h a.asks a.vars
  refine ⟨_, db, _, handleWork_full hq hop, ?_, hdb⟩
  cases hr : (BoundedMap.step 200 m a.query).1 with
  | ok =>
    rw [hr] at hreply
    obtain ⟨rfl, rfl⟩ := hreply
    exact responds (Nat.zero_le _)
  | value v =>
    rw [hr] at hreply
    obtain ⟨rfl, rfl, hle⟩ := hreply
    exact responds hle
  | fail =>
    rw [hr] at hreply
    obtain ⟨rfl, rfl⟩ := hreply
    exact responds (Nat.zero_le _)

theorem serve_asks (h : s.Implements m) (stats : Stats) (asks : List Ask) :
    List.Forall₂ Sends (serve ⟨s, stats⟩ (asks.map Ask.visit)).1
        (run 200 m (asks.map Ask.query)).1 ∧
      (serve ⟨s, stats⟩ (asks.map Ask.visit)).2.db.Implements
        (run 200 m (asks.map Ask.query)).2 := by
  induction asks generalizing s m stats with
  | nil => exact ⟨.nil, h⟩
  | cons a asks ih =>
    obtain ⟨sent, db, stats', hw, hsends, hdb⟩ := handleWork_ask h a stats
    obtain ⟨hrest, hend⟩ := ih hdb stats'
    rw [List.map_cons, List.map_cons, serve, run]
    change handleWork a.visit.io a.visit.vars _ _ = _ at hw
    simp only [hw, if_true]
    exact ⟨.cons hsends hrest, hend⟩

/-- A server that handles well-formed requests from the empty table on, one after the other, sends
    the replies of a map with room for 200 names, and has as many VALID objects as the map has
    names. -/
theorem serve_sends (asks : List Ask) :
    List.Forall₂ Sends (serve .init (asks.map Ask.visit)).1
        (run 200 (fun _ => none) (asks.map Ask.query)).1 ∧
      (serve .init (asks.map Ask.visit)).2.db.countValidObjects =
        size (run 200 (fun _ => none) (asks.map Ask.query)).2 := by
  obtain ⟨hsends, himpl⟩ := serve_asks State.init_implements Server.init.stats asks
  exact ⟨hsends, himpl.countValidObjects⟩

end Handle

end Cs5600.Db
