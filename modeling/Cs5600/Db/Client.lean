import Cs5600.Db.Wire

/-!
# The client

The calls of `dbtest.c` that set, get and delete a key, by a request to the server each.
Neither side initializes the headers that it fills in, so that the bytes after a NUL are what has
been in memory, and a call that deletes a key sends no length at all. The
client asks for a header of 40 bytes, and then reads the data in a loop, as often as it takes
until it has them (`readLoop`): the loop does not end if the server closes the connection
earlier.

The client and the server together are a map with room for 200 keys (`session_replies`): what the
calls print and return is what the map replies. When a client sets keys that are all different, the
first 200 of them are accepted, and when it deletes all of them again, those are removed
(`overload_replies`).
-/

namespace Cs5600.Db

open BoundedMap CText

/-! ## Requests -/

/-- `snprintf(r.name, sizeof(r.name), "%s", name)`. It leaves the bytes after the NUL as they
    are. -/
def Request.setName (r : Request) (name : List UInt8) : Request :=
  { r with name := fun i => ((cString name).take 30 ++ [0]).getD i (r.name i) }

/-- A call of the client. -/
inductive ClientCall
  /-- `do_set`. -/
  | set (name data : List UInt8) (quiet : Bool)
  /-- `do_get`, which either copies the data or prints them. -/
  | get (name : List UInt8) (copies : Bool)
  /-- `do_del`. -/
  | del (name : List UInt8) (quiet : Bool)

/-- What a call writes to the connection: `rq`, which is not initialized, after it has been filled
    in, and the data. -/
def ClientCall.request (rq : Request) : ClientCall → Request × List UInt8
  | set name data _ =>
    (({ rq.setName name with opStatus := 'W'.toUInt8 } : Request).setLen data.length, data)
  | get name _ => (({ rq.setName name with opStatus := 'R'.toUInt8 } : Request).setLen 0, [])
  | del name _ => ({ rq.setName name with opStatus := 'D'.toUInt8 }, [])

/-! ## Replies -/

/-- The loop of `do_get` that reads as many bytes of data, unless it does not end: the bytes, and
    whether a call of `read` has failed before it had all. How these go is as for a `Socket`. -/
def readLoop : List (Option ℕ) → List UInt8 → ℕ → Option (List UInt8 × Bool)
  | [], incoming, count =>
    -- From the end of the stream on, `read` returns 0.
    if count ≤ incoming.length then some (incoming.take count, false) else none
  | split :: splits, incoming, count =>
    if count = 0 then some ([], false)
    else
      let (n, bytes, sock) := Socket.read count { incoming, splits := split :: splits }
      if n < 0 then some ([], true)
      else (readLoop splits sock.incoming (count - bytes.length)).map (Prod.map (bytes ++ ·) id)

/-- What a call leaves behind. -/
structure Called where
  printed : List UInt8
  /-- The status of the reply. -/
  result : UInt8
  /-- What has been copied. -/
  data : Option (List UInt8)

/-- What the client prints if a header does not say K. -/
def failed (op : String) (status : UInt8) : List UInt8 :=
  (op ++ ": FAILED (").toUTF8.toList ++ status :: ")\n".toUTF8.toList

/-- What the client prints if it does not get a header whole. -/
def noHeader (op : String) (error : List UInt8) (val : ℤ) : List UInt8 :=
  if val < 0 then (op ++ ": REPLY: READ ERROR: ").toUTF8.toList ++ error ++ "\n".toUTF8.toList
  else (op ++ ": REPLY: SHORT READ: ").toUTF8.toList ++ formatInt val ++ "\n".toUTF8.toList

/-- What the loop that reads data prints. -/
def noData (error : List UInt8) (failed : Bool) : List UInt8 :=
  if failed then "READ DATA: READ ERROR: ".toUTF8.toList ++ error ++ "\n".toUTF8.toList else []

/-- What the client meets with in a call. -/
structure Meeting where
  /-- The header of the client before it is filled in. -/
  rq : Request
  /-- The memory after it. -/
  above : List UInt8
  /-- What is in `buf` before `do_get` reads the data. -/
  buf : List UInt8
  /-- What `strerror` says of an error. -/
  error : List UInt8
  /-- How much the calls of `read` return. -/
  splits : List (Option ℕ)
  /-- The local variables of the server. -/
  vars : Locals

/-- The end of `do_set` and `do_del`. -/
def acknowledge (op : String) (quiet : Bool) (error : List UInt8) (rq : Request) (sock : Socket) :
    Called :=
  let (val, bytes, _) := sock.read 40
  let rq := rq.fill bytes
  { printed :=
      if val < 40 then noHeader op error val
      else if rq.opStatus ≠ 'K'.toUInt8 ∧ ¬quiet then failed op rq.opStatus
      else if ¬quiet then "ok\n".toUTF8.toList
      else []
    result := rq.opStatus
    data := none }

/-- The end of `do_get`, unless it does not end. -/
def receive (copies : Bool) (m : Meeting) (rq : Request) (sock : Socket) : Option Called :=
  let (val, bytes, sock) := sock.read 40
  let rq := rq.fill bytes
  if val < 40 then
    some { printed := noHeader "READ" m.error val, result := rq.opStatus, data := none }
  else if rq.opStatus ≠ 'K'.toUInt8 then
    some { printed := failed "READ" rq.opStatus, result := rq.opStatus, data := none }
  else do
    let len := (atoi (List.ofFn rq.len ++ m.above)).toNat
    let (bytes, failed) ← readLoop sock.splits sock.incoming len
    let buf := (bytes ++ m.buf.drop bytes.length).take len
    some
      { printed := noData m.error failed ++
          if copies then []
          else "=\"".toUTF8.toList ++ cString buf ++ "\"\n".toUTF8.toList
        result := rq.opStatus
        data := if copies then some buf else none }

/-- What a call does when the server has sent a reply. -/
def ClientCall.finish (m : Meeting) (rq : Request) (sock : Socket) : ClientCall → Option Called
  | set _ _ quiet => some (acknowledge "WRITE" quiet m.error rq sock)
  | get _ copies => receive copies m rq sock
  | del _ quiet => some (acknowledge "DEL" quiet m.error rq sock)

/-- Calls in a row, unless one does not end, and the server after them. -/
def session (sv : Server) : List (ClientCall × Meeting) → Option (List Called × Server)
  | [] => some ([], sv)
  | (c, m) :: calls => do
    let (rq, data) := c.request m.rq
    let h := handleWork .all m.vars { incoming := rq.bytes ++ data, splits := [] } sv
    let called ← c.finish m rq { incoming := h.sent, splits := m.splits }
    let (rest, sv) ← session h.server calls
    some (called :: rest, sv)

/-! ## The map -/

/-- What a call asks of the map. -/
def ClientCall.query : ClientCall → Query (List UInt8) (List UInt8)
  | set name data _ => .write name data
  | get name _ => .read name
  | del name _ => .delete name

/-- What a call leaves behind if it does not get data. -/
def plain (op : String) (quiet : Bool) (ok : Bool) : Called where
  printed := if quiet then [] else if ok then "ok\n".toUTF8.toList else failed op 'X'.toUInt8
  result := if ok then 'K'.toUInt8 else 'X'.toUInt8
  data := none

/-- What a call leaves behind if the map gives this reply. -/
def ClientCall.expects : ClientCall → Reply (List UInt8) → Called
  | set _ _ quiet, .fail => plain "WRITE" quiet false
  | set _ _ quiet, _ => plain "WRITE" quiet true
  | del _ quiet, .fail => plain "DEL" quiet false
  | del _ quiet, _ => plain "DEL" quiet true
  | get _ copies, .value v =>
    { printed :=
        if copies then [] else "=\"".toUTF8.toList ++ cString v ++ "\"\n".toUTF8.toList
      result := 'K'.toUInt8
      data := if copies then some v else none }
  | get _ _, _ => plain "READ" false false

/-- A key of at most 30 bytes, which `parse_opt` checks, and as much data as the server stores. -/
def ClientCall.WellFormed : ClientCall → Prop
  | set name data _ => (0 ∉ name ∧ name.length ≤ 30) ∧ 1 ≤ data.length ∧ data.length ≤ 4096
  | get name _ => 0 ∉ name ∧ name.length ≤ 30
  | del name _ => 0 ∉ name ∧ name.length ≤ 30

/-- The header of the reply arrives whole, and the data in any parts. -/
structure Delivers (splits : List (Option ℕ)) : Prop where
  header : ∀ k, splits.head? = some (some k) → 40 ≤ k
  noError : none ∉ splits

/-! ## Well-formed requests -/

theorem cString_setName (r : Request) {name : List UInt8} (h : 0 ∉ name ∧ name.length ≤ 30) :
    cString (List.ofFn (r.setName name).name) = name := by
  have hname : (r.setName name).name = fun i => (name ++ [0]).getD i (r.name i) := by
    rw [Request.setName, cString_eq_self h.1, List.take_of_length_le h.2]
  have hlength : (name ++ [0]).length ≤ 31 := by
    rw [List.length_append]
    exact Nat.succ_le_succ h.2
  rw [hname, ofFn_getD hlength, List.append_assoc, List.singleton_append, cString_append_nul h.1]

/-- A call sends a request that asks its query. -/
theorem ClientCall.asks {c : ClientCall} (h : c.WellFormed) (rq : Request) :
    (c.request rq).1.Asks (c.request rq).2 c.query := by
  cases c with
  | set name data quiet =>
    obtain ⟨hname, hdata⟩ := h
    refine ⟨rfl, ⟨cString_setName rq hname, hname.2⟩, hdata, ?_, rfl⟩
    have hlength : (decimal data.length).length ≤ 7 := length_decimal_le (by decide) (by omega)
    exact Request.cString_setLen _ hlength nul_notMem_decimal
  | get name copies => exact ⟨rfl, ⟨cString_setName rq h, h.2⟩, rfl⟩
  | del name quiet => exact ⟨rfl, ⟨cString_setName rq h, h.2⟩, rfl⟩

/-! ## Reading replies -/

theorem Socket.read_some (k count : ℕ) (incoming : List UInt8) (splits : List (Option ℕ)) :
    Socket.read count { incoming, splits := some k :: splits } =
      (((incoming.take (min k count)).length : ℤ), incoming.take (min k count),
        { incoming := incoming.drop (min k count), splits }) := by
  rw [Socket.read, if_neg (not_lt.2 (Int.natCast_nonneg _))]
  rfl

/-- The loop gets the data, however they are split. -/
theorem readLoop_eq {splits : List (Option ℕ)} (hsplits : none ∉ splits) {incoming : List UInt8}
    {count : ℕ} (hcount : count ≤ incoming.length) :
    readLoop splits incoming count = some (incoming.take count, false) := by
  induction splits generalizing incoming count with
  | nil => rw [readLoop, if_pos hcount]
  | cons split splits ih =>
    obtain ⟨hsplit, hrest⟩ := not_or.1 (List.mem_cons.not.1 hsplits)
    obtain ⟨k, rfl⟩ := Option.ne_none_iff_exists'.1 (Ne.symm hsplit)
    rw [readLoop]
    split_ifs with hzero
    · rw [hzero, List.take_zero]
    · -- What is left is still there.
      have hlength : (incoming.take (min k count)).length = min k count := by
        rw [List.length_take]
        omega
      have hleft : count - min k count ≤ (incoming.drop (min k count)).length := by
        rw [List.length_drop]
        omega
      simp only [Socket.read_some, hlength, not_lt.2 (Int.natCast_nonneg _), if_false,
        ih hrest hleft, Option.map_some, Prod.map_apply, id]
      rw [← List.take_add, Nat.add_sub_cancel' (Nat.min_le_right k count)]

/-- The header of a reply is read whole. -/
theorem Delivers.read_header {splits : List (Option ℕ)} (h : Delivers splits) (r : Request)
    (data : List UInt8) :
    Socket.read 40 { incoming := r.bytes ++ data, splits } =
      (40, r.bytes, { incoming := data, splits := splits.tail }) := by
  have hlength := Request.length_bytes r
  cases splits with
  | nil => exact Socket.read_full r.bytes data (by rw [hlength]; rfl)
  | cons split splits =>
    cases split with
    | none => exact absurd List.mem_cons_self h.noError
    | some k =>
      have hk : min k 40 = r.bytes.length := by
        rw [hlength]
        exact Nat.min_eq_right (h.header k rfl)
      refine (Socket.read_some k 40 (r.bytes ++ data) splits).trans ?_
      rw [hk, List.take_left, List.drop_left, hlength]
      rfl

/-- The length in the header of a reply. -/
theorem atoi_header {n : ℕ} {field : Fin 8 → UInt8} (hn : n ≤ 4096)
    (h : cString (List.ofFn field) = decimal n) (above : List UInt8) :
    atoi (List.ofFn field ++ above) = n := by
  have hlt : (cString (List.ofFn field)).length < (List.ofFn field).length := by
    rw [h, List.length_ofFn]
    exact Nat.lt_succ_of_le (length_decimal_le (by decide) (by omega))
  obtain ⟨pad, hpad⟩ := exists_eq_cString_append hlt
  rw [hpad, h, List.append_assoc, atoi_decimal (by omega)]
  rintro b hb
  obtain rfl := Option.some.inj hb
  decide

theorem Delivers.acknowledge {splits : List (Option ℕ)} (h : Delivers splits) {status : UInt8}
    {sent : List UInt8} (hsent : Responds status [] sent) (op : String) (quiet : Bool)
    (error : List UInt8) (rq : Request) :
    Db.acknowledge op quiet error rq { incoming := sent, splits } =
      { printed :=
          if status ≠ 'K'.toUInt8 ∧ ¬quiet then failed op status
          else if ¬quiet then "ok\n".toUTF8.toList
          else []
        result := status
        data := none } := by
  obtain ⟨r, rfl, rfl, -, -⟩ := hsent
  rw [Db.acknowledge, h.read_header]
  simp only [Request.fill_bytes, lt_irrefl, if_false]

theorem Delivers.finish_plain {m : Meeting} (h : Delivers m.splits) (ok : Bool)
    {sent : List UInt8}
    (hsent : Responds (if ok then 'K'.toUInt8 else 'X'.toUInt8) [] sent) (op : String)
    (quiet : Bool) (rq : Request) :
    Db.acknowledge op quiet m.error rq { incoming := sent, splits := m.splits } =
      plain op quiet ok := by
  rw [h.acknowledge hsent, plain]
  cases quiet <;> cases ok <;> rfl

/-- The end of `do_get` with the data of the key. -/
theorem Delivers.receive_value {m : Meeting} (h : Delivers m.splits) {v sent : List UInt8}
    (hv : v.length ≤ 4096) (hsent : Responds 'K'.toUInt8 v sent) (name : List UInt8) (copies : Bool)
    (rq : Request) : receive copies m rq { incoming := sent, splits := m.splits } =
      some ((ClientCall.get name copies).expects (.value v)) := by
  obtain ⟨r, rfl, hop, -, hlen⟩ := hsent
  have hcount := atoi_header hv hlen m.above
  have hsplits : none ∉ m.splits.tail := fun hmem => h.noError (List.mem_of_mem_tail hmem)
  rw [receive, h.read_header]
  simp only [Request.fill_bytes, lt_irrefl, if_false, hop, ne_eq, not_true_eq_false, hcount,
    Int.toNat_natCast, readLoop_eq hsplits (le_refl v.length), List.take_length,
    Option.bind_eq_bind, Option.bind_some, List.take_left, noData, Bool.false_eq_true, List.nil_append]
  rfl

theorem Delivers.receive_fail {m : Meeting} (h : Delivers m.splits) {sent : List UInt8}
    (hsent : Responds 'X'.toUInt8 [] sent) (name : List UInt8) (copies : Bool) (rq : Request) :
    receive copies m rq { incoming := sent, splits := m.splits } =
      some ((ClientCall.get name copies).expects .fail) := by
  obtain ⟨r, rfl, hop, -, -⟩ := hsent
  rw [receive, h.read_header]
  simp only [Request.fill_bytes, lt_irrefl, if_false, hop]
  rfl

/-! ## Sessions -/

section Session

variable {db : State} {m : List UInt8 → Option (List UInt8)}

/-- A call ends as the map replies. -/
theorem Delivers.finish {mt : Meeting} (h : Delivers mt.splits) (hdb : db.Implements m) (c : ClientCall)
    {sent : List UInt8} (hsent : Sends sent (BoundedMap.step 200 m c.query).1) (rq : Request) :
    c.finish mt rq { incoming := sent, splits := mt.splits } =
      some (c.expects (BoundedMap.step 200 m c.query).1) := by
  cases c with
  | set name data quiet =>
    rw [ClientCall.query, BoundedMap.step] at hsent ⊢
    split_ifs at hsent ⊢
    · exact congrArg some (h.finish_plain true hsent "WRITE" quiet rq)
    · exact congrArg some (h.finish_plain false hsent "WRITE" quiet rq)
  | get name copies =>
    rw [ClientCall.query, BoundedMap.step] at hsent ⊢
    cases hm : m name with
    | none =>
      rw [hm] at hsent
      exact h.receive_fail hsent name copies rq
    | some v =>
      rw [hm] at hsent
      exact h.receive_value (hdb.sized name v hm).2 hsent name copies rq
  | del name quiet =>
    rw [ClientCall.query, BoundedMap.step] at hsent ⊢
    split_ifs at hsent ⊢
    · exact congrArg some (h.finish_plain true hsent "DEL" quiet rq)
    · exact congrArg some (h.finish_plain false hsent "DEL" quiet rq)

theorem session_eq (hdb : db.Implements m) (stats : Stats) {calls : List (ClientCall × Meeting)}
    (hcalls : ∀ cm ∈ calls, cm.1.WellFormed ∧ Delivers cm.2.splits) :
    ∃ sv, session ⟨db, stats⟩ calls = some (List.zipWith (fun cm r => cm.1.expects r) calls
        (run 200 m (calls.map fun cm => cm.1.query)).1, sv) ∧
      sv.db.Implements (run 200 m (calls.map fun cm => cm.1.query)).2 := by
  induction calls generalizing db m stats with
  | nil => exact ⟨_, rfl, hdb⟩
  | cons cm calls ih =>
    obtain ⟨c, mt⟩ := cm
    obtain ⟨⟨hwf, hdel⟩, hrest⟩ := List.forall_mem_cons.1 hcalls
    -- The server handles the request, and the client reads its reply.
    obtain ⟨sent, db', stats', hw, hsends, hdb'⟩ := handleWork_ask hdb
      { query := c.query, request := (c.request mt.rq).1, data := (c.request mt.rq).2,
        asks := ClientCall.asks hwf mt.rq, vars := mt.vars } stats
    change handleWork .all mt.vars ⟨(c.request mt.rq).1.bytes ++ (c.request mt.rq).2, []⟩ _ = _ at hw
    obtain ⟨sv, hsession, hend⟩ := ih hdb' stats' hrest
    refine ⟨sv, ?_, hend⟩
    rw [session]
    simp only [hw, hdel.finish hdb c hsends, Option.bind_eq_bind, Option.bind_some, hsession]
    rfl

end Session

/-- The meeting of a client and a server whose memory is zero, and whose reads transfer fully. -/
def Meeting.plain : Meeting where
  rq := .ofBytes []
  above := []
  buf := []
  error := []
  splits := []
  vars := { req := .ofBytes [], response := .ofBytes [], bufWrite := [], above := [] }

theorem Meeting.plain_delivers : Delivers Meeting.plain.splits where
  header _ h := by cases h
  noError := List.not_mem_nil

/-- In any calls of `do_set`, `do_get` and `do_del` in a row, with keys of at most 30 bytes and up
    to 4096 bytes of data, every call ends, and prints and returns what the map with room for 200
    keys replies, whatever is in memory that neither side initializes, and however the data that the
    server sends are split. -/
theorem session_replies {calls : List (ClientCall × Meeting)}
    (hcalls : ∀ cm ∈ calls, cm.1.WellFormed ∧ Delivers cm.2.splits) :
    ∃ sv, session .init calls = some (List.zipWith (fun cm r => cm.1.expects r) calls
        (run 200 (fun _ => none) (calls.map fun cm => cm.1.query)).1, sv) ∧
      sv.db.countValidObjects =
        size (run 200 (fun _ => none) (calls.map fun cm => cm.1.query)).2 := by
  obtain ⟨sv, hsession, hdb⟩ := session_eq State.init_implements Server.init.stats hcalls
  exact ⟨sv, hsession, hdb.countValidObjects⟩

/-- A key is set, and then got. -/
def setGet : List (ClientCall × Meeting) :=
  [(.set [97] [120] true, .plain), (.get [97] true, .plain)]

theorem session_replies_setGet : ∃ called sv, session .init setGet = some (called, sv) := by
  have hwf : ∀ cm ∈ setGet, cm.1.WellFormed ∧ Delivers cm.2.splits := by
    simp only [setGet, List.forall_mem_cons, List.not_mem_nil, false_imp_iff, implies_true,
      and_true]
    have hkey : (0 : UInt8) ∉ [97] ∧ [(97 : UInt8)].length ≤ 30 := by decide
    exact ⟨⟨⟨hkey, by decide⟩, Meeting.plain_delivers⟩, hkey, Meeting.plain_delivers⟩
  obtain ⟨sv, h, -⟩ := session_replies hwf
  exact ⟨_, sv, h⟩

/-! ## More keys than there is room for -/

/-- The first loop of `do_overload`, for these keys and data. -/
def sets (kds : List (List UInt8 × List UInt8)) : List ClientCall :=
  kds.map fun kd => .set kd.1 kd.2 true

/-- The second one. -/
def dels (kds : List (List UInt8 × List UInt8)) : List ClientCall :=
  kds.map fun kd => .del kd.1 true

/-- The status of a reply without data. -/
def replyStatus : Reply (List UInt8) → UInt8
  | .fail => 'X'.toUInt8
  | _ => 'K'.toUInt8

/-- A call that does not ask for data returns the status of the reply. -/
theorem map_result_expects {cs : List ClientCall} {rs : List (Reply (List UInt8))}
    (hcs : ∀ c ∈ cs, ∀ name copies, c ≠ .get name copies) (hlength : cs.length = rs.length) :
    (List.zipWith ClientCall.expects cs rs).map Called.result = rs.map replyStatus := by
  induction cs generalizing rs with
  | nil => rw [List.length_eq_zero_iff.1 hlength.symm]; rfl
  | cons c cs ih =>
    obtain ⟨r, rs, rfl⟩ := List.exists_cons_of_length_eq_add_one hlength.symm
    obtain ⟨hc, hcs⟩ := List.forall_mem_cons.1 hcs
    rw [List.zipWith_cons_cons, List.map_cons, List.map_cons, ih hcs (Nat.succ.inj hlength)]
    congr 1
    cases c with
    | set name data quiet => cases r <;> rfl
    | get name copies => exact absurd rfl (hc name copies)
    | del name quiet => cases r <;> rfl

/-- When any different keys are set one after the other, and then deleted, the server accepts the
    first 200 of them, and removes those. All others are refused, and no object is left. -/
theorem overload_replies {kds : List (List UInt8 × List UInt8)} {calls : List (ClientCall × Meeting)}
    (hcalls : calls.map Prod.fst = sets kds ++ dels kds) (hkeys : (kds.map Prod.fst).Nodup)
    (hwf : ∀ cm ∈ calls, cm.1.WellFormed ∧ Delivers cm.2.splits) :
    ∃ called sv, session .init calls = some (called, sv) ∧
      called.map Called.result =
        (let results := List.replicate (min 200 kds.length) 'K'.toUInt8 ++
          List.replicate (kds.length - 200) 'X'.toUInt8
        results ++ results) ∧ sv.db.countValidObjects = 0 := by
  obtain ⟨sv, hdb, hsession⟩ := session_eq State.init_implements Server.init.stats hwf
  have hqueries : calls.map (fun cm => cm.1.query) =
      (kds.map fun kd => .write kd.1 kd.2) ++ kds.map fun kd => .delete kd.1 := by
    rw [← Function.comp_def, ← List.map_map, hcalls, List.map_append, sets, dels, List.map_map,
      List.map_map]
    rfl
  have hcs : ∀ c ∈ sets kds ++ dels kds, ∀ name copies, c ≠ .get name copies := by
    rintro c hc name copies rfl
    rcases List.mem_append.1 hc with hc | hc
    · obtain ⟨kd, -, he⟩ := List.mem_map.1 hc
      cases he
    · obtain ⟨kd, -, he⟩ := List.mem_map.1 hc
      cases he
  rw [hqueries, run_writes_deletes hkeys] at hdb hsession
  dsimp only at hdb hsession
  refine ⟨_, sv, hdb, ?_, ?_⟩
  · rw [← List.zipWith_map_left, hcalls, map_result_expects hcs ?_]
    · simp only [List.map_append, List.map_replicate]
      rfl
    · simp only [sets, dels, List.length_append, List.length_map, List.length_replicate]
      omega
  · rw [hsession.countValidObjects]
    exact size_ofList [] List.nodup_nil

/-- `sprintf(name, "KEY-%04d", i)`. -/
def overloadKey (i : ℕ) : List UInt8 :=
  ['K', 'E', 'Y', '-'].map Char.toUInt8 ++ (List.replicate (4 - (decimal i).length) 48 ++ decimal i)

/-- `do_overload`, which sets and deletes 250 keys. -/
def doOverload (data : ℕ → List UInt8) : List ClientCall :=
  sets ((List.range 250).map fun i => (overloadKey i, data i)) ++
    dels ((List.range 250).map fun i => (overloadKey i, data i))

theorem overloadKey_injective : Function.Injective overloadKey := by
  -- The number is read from its text.
  have hvalue : ∀ i, digitsValue ((overloadKey i).drop 4) = i := by
    intro i
    have hdigits : ∀ b ∈ List.replicate (4 - (decimal i).length) 48 ++ decimal i, isDigit b := by
      intro b hb
      rcases List.mem_append.1 hb with hb | hb
      · rw [List.eq_of_mem_replicate hb]
        decide
      · exact isDigit_of_mem_decimal hb
    have hzeros : ∀ n, (List.replicate n (48 : UInt8)).foldl
        (fun v b => 10 * v + (b.toNat - 48)) 0 = 0 := by
      intro n
      induction n with
      | zero => rfl
      | succ n ih => exact ih
    change digitsValue (List.replicate (4 - (decimal i).length) 48 ++ decimal i) = i
    rw [digitsValue, List.takeWhile_eq_self_iff.2 hdigits, List.foldl_append, hzeros, foldl_decimal]
  intro i j h
  rw [← hvalue i, h, hvalue]

theorem overloadKey_wellFormed {i : ℕ} (hi : i < 10000) :
    0 ∉ overloadKey i ∧ (overloadKey i).length ≤ 30 := by
  constructor
  · rw [overloadKey, List.mem_append, List.mem_append, not_or, not_or]
    refine ⟨by decide, fun h => ?_, nul_notMem_decimal⟩
    cases List.eq_of_mem_replicate h
  · have hlength : (decimal i).length ≤ 4 := length_decimal_le (by decide) hi
    rw [overloadKey, List.length_append, List.length_append, List.length_replicate]
    change 4 + _ ≤ 30
    omega

/-- `do_overload` with the same data for all keys: 200 of them are accepted. -/
theorem overload_replies_doOverload : ∃ called sv,
    session .init ((doOverload fun _ => List.replicate 100 65).map (·, .plain)) =
        some (called, sv) ∧
      called.map Called.result = (List.replicate 200 'K'.toUInt8 ++ List.replicate 50 'X'.toUInt8) ++
        (List.replicate 200 'K'.toUInt8 ++ List.replicate 50 'X'.toUInt8) := by
  have hwf : ∀ cm ∈ (doOverload fun _ => List.replicate 100 65).map (·, Meeting.plain),
      cm.1.WellFormed ∧ Delivers cm.2.splits := by
    rintro cm hcm
    obtain ⟨c, hc, rfl⟩ := List.mem_map.1 hcm
    refine ⟨?_, Meeting.plain_delivers⟩
    have hkey : ∀ i ∈ List.range 250, 0 ∉ overloadKey i ∧ (overloadKey i).length ≤ 30 :=
      fun i hi => overloadKey_wellFormed (lt_trans (List.mem_range.1 hi) (by decide))
    rw [doOverload, sets, dels, List.map_map, List.map_map] at hc
    rcases List.mem_append.1 hc with hc | hc
    · obtain ⟨i, hi, rfl⟩ := List.mem_map.1 hc
      exact ⟨hkey i hi, by simp⟩
    · obtain ⟨i, hi, rfl⟩ := List.mem_map.1 hc
      exact hkey i hi
  have hnodup : (((List.range 250).map fun i =>
      (overloadKey i, List.replicate 100 (65 : UInt8))).map Prod.fst).Nodup := by
    rw [List.map_map]
    exact List.nodup_range.map overloadKey_injective
  obtain ⟨called, sv, h, hresult, -⟩ := overload_replies (by rw [List.map_map]; exact List.map_id _)
    hnodup hwf
  rw [List.length_map, List.length_range] at hresult
  exact ⟨called, sv, h, hresult⟩

end Cs5600.Db
