import Cs5600.Db.Splits
import Cs5600.Db.Visits

/-!
# Writes that are acknowledged

The length of the data in a header is text that `atoi` reads, and `handle_work` takes a
length above 4096 for 4096. If it replies K to a write, it has received as many bytes as
that, and stored them (`acknowledged_write`). If there are any, each read of the name
gets them, as long as nobody writes or deletes the name.
-/

namespace Cs5600.Db

open CText

/-! ## The data of a name -/

/-- The data of a name. -/
def State.lookup (s : State) (name : List UInt8) : Option (List UInt8) :=
  (s.findKey name).bind fun i => (s.file i).map s.content

section Lookup

variable {s s' : State} {i : Fin 200} {name key : List UInt8}

theorem State.lookup_congr (h : cString key = cString name) : s.lookup key = s.lookup name := by
  rw [State.lookup, State.lookup, State.findKey, State.findKey, h]

theorem dbRead_lookup {data : List UInt8} (h : s.lookup name = some data) :
    dbRead .all name s = (((data.take 4096).length : ℤ), data.take 4096) := by
  obtain ⟨i, hi, hfile⟩ := Option.bind_eq_some_iff.1 h
  obtain ⟨fd, hfd, rfl⟩ := Option.map_eq_some_iff.1 hfile
  rw [dbRead, hi]
  simp only [hfd]
  rfl

theorem State.stored_lookup (hi : (s.findKey name).or s.freeIndex = some i)
    (hname : (cString name).length ≤ 30) (data : List UInt8) :
    (s.stored i name data).lookup name = some data := by
  have hkey : (s.stored i name data).findKey name = some i := (stored_findKey_iff s name data i).2
    ⟨List.take_of_length_le (by omega), fun _ hj => name_ne_of_lt_slot hi hj⟩
  obtain ⟨fd, hfd, hdata⟩ := stored_file s name data i
  rw [State.lookup, hkey, Option.bind_some, hfd, Option.map_some, hdata]

/-- Work on a slot that has not had the record of a name, and does not get it. -/
theorem State.Moves.lookup_eq (h : s.Moves s' i) (hs : s.Separate)
    (hold : (s.table i).status = .valid → (s.table i).name ≠ cString name)
    (hnew : (s'.table i).status = .valid → (s'.table i).name ≠ cString name) :
    s'.lookup name = s.lookup name := by
  rw [State.lookup, State.lookup, h.findKey_eq hold hnew]
  cases hf : s.findKey name with
  | none => rfl
  | some j =>
    have hji : j ≠ i := by
      rintro rfl
      exact hold (State.of_findKey hf).1 (State.of_findKey hf).2
    rw [Option.bind_some, Option.bind_some, h.file j hji]
    cases hfile : s.file j with
    | none => rfl
    | some fd => rw [Option.map_some, Option.map_some, h.content_of_ne hs hji hfile]

/-- A write of another name. If it is cut off in the table, it is longer than this one. -/
theorem dbWrite_lookup (hs : s.Separate) (hne : cString key ≠ cString name)
    (hname : (cString name).length ≤ 30) (io : Io) (data : List UInt8) (len : ℤ) :
    (dbWrite io key data len s).2.lookup name = s.lookup name := by
  have hcut : (cString key).take 31 ≠ cString name := by
    intro he
    rw [← he, List.length_take] at hname
    exact hne (by rwa [List.take_of_length_le (by omega)] at he)
  rcases dbWrite_cases s key io data len with he | ⟨i, hi, ⟨-, -, he⟩ | ⟨-, s', he, hmoves, htable⟩⟩
  · rw [he]
  · -- The slot has a record of the other name, or is free, and gets the other name.
    rw [he]
    refine (stored_moves s key _ i).lookup_eq hs (fun hv => ?_) fun _ => ?_
    · rwa [name_of_slot hi hv]
    · rwa [stored_name]
  · rw [he]
    refine hmoves.lookup_eq hs (fun hv => ?_) (by simp [htable])
    rwa [name_of_slot hi hv]

theorem dbDelete_lookup (hs : s.Separate) (hne : cString key ≠ cString name) :
    (dbDelete key s).2.lookup name = s.lookup name := by
  rcases dbDelete_cases s key with he | ⟨i, hi, he⟩
  · rw [he]
  · rw [he]
    refine ((moves_unlink s i).trans (moves_setStatus _ i .invalid)).lookup_eq hs (fun _ => ?_)
      fun hv => ?_
    · rwa [(State.of_findKey hi).2]
    · rw [State.setStatus_self] at hv
      cases hv

end Lookup

/-- A name keeps its data until it is written or deleted. -/
theorem Server.Reaches.lookup_eq {name : List UInt8} {sv sv' : Server}
    (h : Server.Reaches (fun v => ¬v.Changes (cString name)) sv sv') (hsv : sv.db.Reachable)
    (hname : (cString name).length ≤ 30) : sv'.db.lookup name = sv.db.lookup name := by
  induction h with
  | refl => rfl
  | tail hsteps hstep ih =>
    have hs := (Server.Reaches.reachable hsteps hsv).separate
    obtain ⟨v, hno, hrun, rfl⟩ := hstep
    rw [← ih]
    rcases v.handle_db hrun with he | ⟨hchanges, hdb⟩
    · rw [he]
    · have hne : cString v.key ≠ cString name := fun he => hno (he ▸ hchanges)
      rcases hdb with ⟨-, data, len, he⟩ | he
      · rw [he, dbWrite_lookup hs hne hname]
      · rw [he, dbDelete_lookup hs hne]

/-! ## Requests that transfer fully -/

/-- A request that transfers fully, and what the client sends after its header. -/
def Visit.whole (vars : Locals) (req : Request) (rest : List UInt8) : Visit where
  io := .all
  vars := vars
  sock := { incoming := req.bytes ++ rest, splits := [] }

section Whole

variable (vars : Locals) (req : Request) (rest : List UInt8)

theorem Visit.read_whole : (whole vars req rest).sock.read 40 =
    (40, req.bytes, { incoming := rest, splits := [] }) :=
  Socket.read_full req.bytes rest (by rw [Request.length_bytes]; rfl)

theorem Visit.header_whole : (whole vars req rest).header = req := by
  rw [header, read_whole]
  exact Request.fill_bytes _ req

theorem Visit.key_whole : (whole vars req rest).key = req.key vars.above := by
  rw [key, header_whole]
  rfl

theorem Visit.payload_whole : (whole vars req rest).payload =
    Socket.read (min (req.count vars.above) 4096) { incoming := rest, splits := [] } := by
  rw [payload, header_whole, read_whole]
  rfl

/-- The name in a header with a NUL in its 31 bytes. -/
theorem Request.cString_key (hname : 0 ∈ List.ofFn req.name) (above : List UInt8) :
    cString (req.key above) = cString (List.ofFn req.name) :=
  cString_append (length_cString_lt hname) _

theorem Request.length_name (hname : 0 ∈ List.ofFn req.name) :
    (cString (List.ofFn req.name)).length ≤ 30 := by
  have hlt := length_cString_lt hname
  rw [List.length_ofFn] at hlt
  omega

end Whole

/-! ## Acknowledged writes -/

/-- Each read of a name gets the data, as long as nobody writes or deletes it. -/
def Server.Answers (sv : Server) (name data : List UInt8) : Prop :=
  ∀ sv', Server.Reaches (fun v => ¬v.Changes (cString name)) sv sv' →
    ∀ (vars : Locals) (req : Request) (rest : List UInt8), req.opStatus = 'R'.toUInt8 →
      cString (List.ofFn req.name) = cString name →
      Responds 'K'.toUInt8 data ((Visit.whole vars req rest).handle sv').sent

theorem Server.answers {sv : Server} {name data : List UInt8} (hsv : sv.db.Reachable)
    (hname : (cString name).length ≤ 30) (hdata : 0 < data.length ∧ data.length ≤ 4096)
    (h : sv.db.lookup name = some data) : sv.Answers name data := by
  intro sv' hsteps vars req rest hop hreq
  have hkey : cString (req.key vars.above) = cString name :=
    cString_name ⟨hreq, hname⟩ (List.ofFn req.len ++ vars.above)
  have hread : dbRead .all (req.key vars.above) sv'.db = ((data.length : ℤ), data) := by
    rw [dbRead_congr hkey, dbRead_lookup ((hsteps.lookup_eq hsv hname).trans h),
      List.take_of_length_le hdata.2]
  have hrun : handleOp .all vars req { incoming := rest, splits := [] } sv'.db =
      (response vars 'K'.toUInt8 data, data, sv'.db) := by
    rw [handleOp_read hop, hread, if_pos (by omega)]
    rfl
  change Responds _ _ (handleWork _ _ _ _).sent
  rw [Visit.whole, handleWork_full (by rw [hop]; decide) hrun]
  exact responds hdata.2

section Writes

variable {sv : Server} {vars : Locals} {req : Request} {payload : List UInt8} {n : ℕ}
  (hop : req.opStatus = 'W'.toUInt8) (hn : min (req.count vars.above) 4096 = n)
include hop hn

/-- A write is acknowledged if the payload is long enough and there is a slot. -/
theorem acknowledged_of_slot {i : Fin 200} (hlength : n ≤ payload.length)
    (hi : (sv.db.findKey (req.key vars.above)).or sv.db.freeIndex = some i) :
    ((Visit.whole vars req payload).handle sv).sent.head? = some 'K'.toUInt8 := by
  have hread : Socket.read n { incoming := payload, splits := [] } =
      ((n : ℤ), payload.take n, { incoming := payload.drop n, splits := [] }) := by
    rw [Socket.read, if_neg (by omega)]
    simp only [Int.toNat_natCast, List.length_take_of_le hlength]
  change (handleWork _ _ _ _).sent.head? = _
  rw [Visit.whole, handleWork_full (by rw [hop]; decide) (handleOp_write hop hn hread),
    dbWrite_all hi]
  rfl

/-- The bytes of the payload that an acknowledged write has stored. -/
theorem lookup_of_acknowledged (hname : 0 ∈ List.ofFn req.name)
    (hK : ((Visit.whole vars req payload).handle sv).sent.head? = some 'K'.toUInt8) :
    n ≤ payload.length ∧ ((Visit.whole vars req payload).handle sv).running = true ∧
      ((Visit.whole vars req payload).handle sv).server.db.lookup (List.ofFn req.name) =
        some (payload.take n) := by
  have hpayload : (Visit.whole vars req payload).payload =
      (((payload.take n).length : ℤ), payload.take n,
        { incoming := payload.drop n, splits := [] }) := by
    rw [Visit.payload_whole, hn, Socket.read, if_neg (by omega)]
    simp only [Int.toNat_natCast]
  obtain ⟨hrun, hread, i, hi, hdb⟩ := Visit.of_acknowledged (v := .whole vars req payload)
    (by rwa [Visit.header_whole]) hK
  rw [Visit.header_whole, hpayload] at hread
  rw [Visit.key_whole] at hi hdb
  rw [hpayload] at hdb
  -- All of the bytes that were asked for have come.
  have hlength : (payload.take n).length = n := Int.ofNat_inj.1 (hread.trans hn)
  have hdata : ((Visit.whole vars req payload).vars.payload (payload.take n)).take
      ((payload.take n).length : ℤ).toNat = payload.take n := by
    rw [Int.toNat_natCast]
    exact List.take_left
  have hkey := Request.cString_key req hname vars.above
  have hle := Request.length_name req hname
  refine ⟨?_, hrun, ?_⟩
  · rw [List.length_take] at hlength
    omega
  · rw [hdb, hdata, ← State.lookup_congr hkey]
    exact State.stored_lookup hi (hkey ▸ hle) _

end Writes

/-- If a write is acknowledged whose length is not negative, as many bytes of the payload have been
    received and stored as the length says, or 4096 if it says more. If there are any, each read of
    the name gets them, as long as nobody writes or deletes the name. -/
theorem acknowledged_write {sv : Server} (hsv : Server.Reaches (fun _ => True) .init sv)
    (vars : Locals) {req : Request} (payload : List UInt8) (hop : req.opStatus = 'W'.toUInt8)
    (hname : 0 ∈ List.ofFn req.name) (hcount : 0 ≤ req.count vars.above)
    (hK : ((Visit.whole vars req payload).handle sv).sent.head? = some 'K'.toUInt8) :
    let n := (min (req.count vars.above) 4096).toNat
    let sv' := ((Visit.whole vars req payload).handle sv).server
    n ≤ payload.length ∧ sv'.db.lookup (List.ofFn req.name) = some (payload.take n) ∧
      (0 < n → sv'.Answers (List.ofFn req.name) (payload.take n)) := by
  intro n sv'
  have hn : min (req.count vars.above) 4096 = n := (Int.toNat_of_nonneg (by omega)).symm
  obtain ⟨hlength, hrun, hlookup⟩ := lookup_of_acknowledged hop hn hname hK
  refine ⟨hlength, hlookup, fun hpos => ?_⟩
  have hreachable := Visit.reachable_handle (Server.Reaches.reachable hsv .init) hrun
  refine Server.answers hreachable (Request.length_name req hname) ?_ hlookup
  rw [List.length_take_of_le hlength]
  omega

/-- One byte is written to the name "a". -/
theorem acknowledged_write_keyA :
    let req := Request.padded 'W'.toUInt8 keyA 1
    let n := (min (req.count []) 4096).toNat
    let sv' := ((Visit.whole (.filled 0 []) req [120]).handle .init).server
    n ≤ 1 ∧ sv'.db.lookup (List.ofFn req.name) = some ([120].take n) ∧
      (0 < n → sv'.Answers (List.ofFn req.name) ([120].take n)) :=
  acknowledged_write .refl (.filled 0 []) [120] rfl (by decide) (by decide) (by decide +kernel)

/-- The length says 5000, and as many bytes follow: 4096 of them are stored, and acknowledged. -/
theorem acknowledged_fiveThousand :
    let req := Request.padded 'W'.toUInt8 keyA 5000
    let payload := List.replicate 5000 120
    ((Visit.whole (.filled 0 []) req payload).handle .init).sent.head? = some 'K'.toUInt8 ∧
      req.count [] = 5000 ∧
      ((Visit.whole (.filled 0 []) req payload).handle .init).server.db.lookup
        (List.ofFn req.name) = some (List.replicate 4096 120) ∧
      List.replicate 4096 120 ≠ payload.take 5000 := by
  intro req payload
  have hn : min (req.count (Locals.filled 0 []).above) 4096 = (4096 : ℕ) := by decide
  have hi : (State.init.findKey (req.key [])).or State.init.freeIndex = some 0 := by decide +kernel
  have hK : ((Visit.whole (.filled 0 []) req payload).handle .init).sent.head? = some 'K'.toUInt8 :=
    acknowledged_of_slot rfl hn (by rw [List.length_replicate]; omega) hi
  obtain ⟨-, -, hlookup⟩ := lookup_of_acknowledged rfl hn (by decide) hK
  rw [List.take_replicate, min_eq_left (by omega)] at hlookup
  refine ⟨hK, by decide, hlookup, fun he => ?_⟩
  have hlength := congrArg List.length he
  rw [List.length_take, List.length_replicate, List.length_replicate] at hlength
  omega

end Cs5600.Db
