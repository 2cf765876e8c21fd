import Cs5600.Db.Wire

/-!
# Requests in chunks

TCP may split a request anywhere. But `handle_work` reads its header by one call
of `read`, and its data by another, and takes what it gets for the whole: the
bytes of the header that have not come are those that were in memory, and those
that come later are taken for data. So what comes of a request depends on the
chunks, unless the first one has all of the header that is looked at, and the
second one is the data (`Request.Covered`).
-/

namespace Cs5600.Db

open BoundedMap CText

/-- A request as `proj2.h` describes it, with the data that follow its header. -/
structure Request.WellFormed (r : Request) (data : List UInt8) : Prop where
  name : r.opStatus = 'W'.toUInt8 ∨ r.opStatus = 'R'.toUInt8 ∨ r.opStatus = 'D'.toUInt8 →
    (cString (List.ofFn r.name)).length ≤ 30
  len : r.opStatus = 'W'.toUInt8 → cString (List.ofFn r.len) = decimal data.length
  length_le : data.length ≤ 4096
  data : r.opStatus ≠ 'W'.toUInt8 → data = []

/-- The same comes of a request if the first call of `read` returns `k` bytes and the second one at
    most `k'`, as if both return what they ask for. -/
def Request.Alike (r : Request) (data : List UInt8) (k k' : ℕ) : Prop :=
  ∀ (io : Io) (vars : Locals) (sv : Server),
    handleWork io vars { incoming := r.bytes ++ data, splits := [some k, some k'] } sv =
      handleWork io vars { incoming := r.bytes ++ data, splits := [] } sv

/-- The first chunk has the name, or the length of the data, with the NUL after it. The second one
    is as long as the data, and is the data. -/
structure Request.Covered (r : Request) (data : List UInt8) (k k' : ℕ) : Prop where
  name : r.opStatus = 'R'.toUInt8 ∨ r.opStatus = 'D'.toUInt8 →
    (cString (List.ofFn r.name)).length + 2 ≤ k
  len : r.opStatus = 'W'.toUInt8 → (cString (List.ofFn r.len)).length + 33 ≤ k
  size : r.opStatus = 'W'.toUInt8 → data.length ≤ k'
  data : r.opStatus = 'W'.toUInt8 → (r.bytes.drop k ++ data).take data.length = data

/-! ## Headers in memory -/

namespace Request

theorem bytes_ofBytes {bs : List UInt8} (h : bs.length = 40) : (ofBytes bs).bytes = bs := by
  refine List.ext_getElem (by rw [length_bytes, h]) fun i h₁ h₂ => ?_
  have hget : ∀ j (hj : j < bs.length), bs.getD j 0 = bs[j] := fun j hj =>
    List.getD_eq_getElem _ _ hj
  match i, h₂ with
  | 0, h₂ => exact hget 0 h₂
  | i + 1, h₂ =>
    simp only [bytes, List.getElem_cons_succ]
    by_cases hi : i < 31
    · rw [List.getElem_append_left (by rwa [List.length_ofFn]), List.getElem_ofFn]
      change bs.getD (1 + i) 0 = _
      rw [← hget (i + 1) h₂, Nat.add_comm]
    · rw [List.getElem_append_right (by rw [List.length_ofFn]; omega), List.getElem_ofFn]
      change bs.getD (32 + (i - (List.ofFn _).length)) 0 = _
      rw [← hget (i + 1) h₂, List.length_ofFn]
      congr 1
      omega

/-- A header whose first bytes are overwritten has its other ones as they were. -/
theorem bytes_fill (r : Request) {bs : List UInt8} (h : bs.length ≤ 40) :
    (r.fill bs).bytes = bs ++ r.bytes.drop bs.length :=
  bytes_ofBytes (by rw [List.length_append, List.length_drop, length_bytes]; omega)

/-- The header that memory has after the first chunk of another one. -/
theorem bytes_fill_take (r : Request) {r' : Request} {k : ℕ} (hk : k ≤ 40) :
    (r.fill (r'.bytes.take k)).bytes = r'.bytes.take k ++ r.bytes.drop k := by
  have hlen : (r'.bytes.take k).length = k := List.length_take_of_le (by rwa [length_bytes])
  rw [bytes_fill r (hlen.trans_le hk), hlen]

theorem opStatus_fill_take (r r' : Request) {k : ℕ} (hk : 1 ≤ k) :
    (r.fill (r'.bytes.take k)).opStatus = r'.opStatus := by
  obtain ⟨k, rfl⟩ := Nat.exists_eq_add_of_le' hk
  rfl

theorem name_memory (r : Request) (above : List UInt8) :
    List.ofFn r.name ++ (List.ofFn r.len ++ above) = r.bytes.drop 1 ++ above := by
  rw [bytes, List.drop_succ_cons, List.drop_zero, List.append_assoc]

theorem len_memory (r : Request) (above : List UInt8) :
    List.ofFn r.len ++ above = r.bytes.drop 32 ++ above := by
  rw [bytes, List.drop_succ_cons, List.drop_append_of_le_length (by rw [List.length_ofFn]),
    List.drop_of_length_le (by rw [List.length_ofFn]), List.nil_append]

end Request

/-! ## After the header -/

section Header

variable {io : Io} {vars : Locals} {sv : Server} {r : Request} {data : List UInt8}

/-- With a first chunk of `k` bytes, the rest of the header is as it was in memory. -/
theorem handleWork_chunk {k : ℕ} (hk : 1 ≤ k ∧ k ≤ 40) (splits : List (Option ℕ)) :
    handleWork io vars { incoming := r.bytes ++ data, splits := some k :: splits } sv =
      handleHeader io vars sv (vars.req.fill (r.bytes.take k))
        { incoming := r.bytes.drop k ++ data, splits } := by
  have hlen : k ≤ r.bytes.length := hk.2.trans_eq r.length_bytes.symm
  have htake : (r.bytes ++ data).take k = r.bytes.take k := List.take_append_of_le_length hlen
  have hdrop : (r.bytes ++ data).drop k = r.bytes.drop k ++ data :=
    List.drop_append_of_le_length hlen
  have hread : Socket.read 40 { incoming := r.bytes ++ data, splits := some k :: splits } =
      ((k : ℤ), r.bytes.take k, ({ incoming := r.bytes.drop k ++ data, splits } : Socket)) := by
    rw [Socket.read, if_neg (by decide)]
    simp only [show (40 : ℤ).toNat = 40 from rfl, min_eq_left hk.2, htake, hdrop,
      List.length_take_of_le hlen]
  rw [handleWork, hread]
  simp only [if_neg (show ¬(k : ℤ) ≤ 0 by omega)]
  rfl

/-- Headers of the same operation have the same outcome, if the operation has. -/
theorem handleHeader_congr {req req' : Request} {sock sock' : Socket}
    (hop : req'.opStatus = req.opStatus) (h : req.opStatus ≠ 'Q'.toUInt8 →
      handleOp io vars req' sock' sv.db = handleOp io vars req sock sv.db) :
    handleHeader io vars sv req' sock' = handleHeader io vars sv req sock := by
  rw [handleHeader, handleHeader, hop]
  split_ifs with hq
  · rfl
  · rw [h hq]

/-- What has been sent begins with the status, and the database is that after the operation. -/
theorem handleHeader_eq {req req' : Request} {sock sock' : Socket}
    (hq : req.opStatus ≠ 'Q'.toUInt8) (hq' : req'.opStatus ≠ 'Q'.toUInt8)
    (h : handleHeader io vars sv req' sock' = handleHeader io vars sv req sock) :
    (handleOp io vars req' sock' sv.db).1.opStatus = (handleOp io vars req sock sv.db).1.opStatus ∧
      (handleOp io vars req' sock' sv.db).2.2 = (handleOp io vars req sock sv.db).2.2 := by
  rw [handleHeader, handleHeader, if_neg hq, if_neg hq'] at h
  exact ⟨(List.cons.inj (congrArg Handled.sent h)).1,
    congrArg (fun h => h.server.db) h⟩

end Header

/-! ## Requests whose chunks have what is needed -/

section Covered

variable {r : Request} {data : List UInt8} {k k' : ℕ} {vars : Locals}

/-- A string of the header that has come with its NUL is the same, whatever follows. -/
theorem cString_take {bs : List UInt8} (h : (cString bs).length < bs.length)
    (rest rest' : List UInt8) {n : ℕ} (hn : (cString bs).length + 1 ≤ n) :
    cString (bs.take n ++ rest) = cString (bs ++ rest') := by
  obtain ⟨pad, hpad⟩ := exists_eq_cString_append h
  have hnul := nul_notMem_cString bs
  obtain ⟨m, rfl⟩ := Nat.exists_eq_add_of_le hn
  generalize cString bs = c at hpad hnul
  subst hpad
  rw [Nat.add_assoc, List.take_length_add_append, Nat.add_comm 1, List.take_succ_cons,
    List.append_assoc, List.append_assoc, List.cons_append, List.cons_append,
    cString_append_nul hnul, cString_append_nul hnul]

/-- The name of a header whose first chunk has it. -/
theorem cString_name_fill (hk : 1 ≤ k ∧ k ≤ 40)
    (hname : (cString (List.ofFn r.name)).length ≤ 30)
    (hcover : (cString (List.ofFn r.name)).length + 2 ≤ k) :
    cString ((vars.req.fill (r.bytes.take k)).key vars.above) = cString (r.key vars.above) := by
  obtain ⟨n, rfl⟩ := Nat.exists_eq_add_of_le' hk.1
  rw [Request.key, Request.key, Request.name_memory, Request.bytes_fill_take _ hk.2,
    Request.bytes, List.take_succ_cons, List.cons_append, List.drop_succ_cons, List.drop_zero,
    List.take_append, List.append_assoc, List.append_assoc]
  exact cString_take (by rw [List.length_ofFn]; omega) _ _ (by omega)

variable (vars) in
/-- The length of a header whose first chunk has it. -/
theorem atoi_len_fill (hk : k ≤ 40) (h : r.WellFormed data) (hop : r.opStatus = 'W'.toUInt8)
    (hcover : (cString (List.ofFn r.len)).length + 33 ≤ k) :
    min (atoi (List.ofFn (vars.req.fill (r.bytes.take k)).len ++ vars.above)) 4096 =
      data.length := by
  obtain ⟨n, rfl⟩ := Nat.exists_eq_add_of_le (show 32 ≤ k by omega)
  have hlen := h.len hop
  have hlt : (decimal data.length).length ≤ 7 :=
    length_decimal_le (by decide) (by have := h.length_le; omega)
  have hmem := Request.len_memory r []
  rw [List.append_nil, List.append_nil] at hmem
  rw [hlen] at hcover
  refine atoi_cString h.length_le ?_ ?_
  · have htake : (r.bytes.take (32 + n)).drop 32 = (List.ofFn r.len).take n := by
      rw [hmem, List.drop_take, Nat.add_sub_cancel_left]
    have hle : 32 ≤ (r.bytes.take (32 + n)).length := by
      rw [List.length_take, Request.length_bytes]
      omega
    rw [Request.len_memory, Request.bytes_fill_take _ hk, List.drop_append_of_le_length hle, htake,
      List.append_assoc, cString_take (by rw [hlen, List.length_ofFn]; omega) _ []
        (by rw [hlen]; omega), List.append_nil, hlen]
  · rw [List.length_append, List.length_ofFn]
    omega

/-- If the chunks have what is needed, the same comes of the request. -/
theorem Request.Covered.alike (hc : r.Covered data k k') (h : r.WellFormed data)
    (hk : 1 ≤ k ∧ k ≤ 40) : r.Alike data k k' := by
  intro io vars sv
  rw [handleWork_chunk hk, handleWork_whole]
  have hop' := vars.req.opStatus_fill_take r hk.1
  refine handleHeader_congr hop' fun _ => ?_
  by_cases hw : r.opStatus = 'W'.toUInt8
  · have hname := h.name (.inl hw)
    have hcov := hc.len hw
    -- The second chunk has the whole payload.
    have hread : Socket.read data.length
          { incoming := r.bytes.drop k ++ data, splits := [some k'] } =
        ((data.length : ℤ), data,
          ({ incoming := (r.bytes.drop k ++ data).drop data.length, splits := [] } : Socket)) := by
      rw [Socket.read, if_neg (by omega)]
      simp only [Int.toNat_natCast, min_eq_right (hc.size hw), hc.data hw]
    have hfull := Socket.read_full data [] (rfl : (data.length : ℤ) = data.length)
    rw [List.append_nil] at hfull
    rw [handleOp_write (hop'.trans hw) (atoi_len_fill vars hk.2 h hw hcov) hread,
      handleOp_write hw (atoi_len h.length_le (h.len hw) _) hfull,
      dbWrite_congr (cString_name_fill hk hname (by omega))]
  · have hw' := hop'.trans_ne hw
    by_cases hr : r.opStatus = 'R'.toUInt8
    · rw [handleOp_read (hop'.trans hr), handleOp_read hr, dbRead_congr
        (cString_name_fill hk (h.name (.inr (.inl hr))) (hc.name (.inl hr)))]
    · have hr' := hop'.trans_ne hr
      by_cases hd : r.opStatus = 'D'.toUInt8
      · rw [handleOp_delete (hop'.trans hd), handleOp_delete hd, dbDelete_congr
          (cString_name_fill hk (h.name (.inr (.inr hd))) (hc.name (.inr hd)))]
      · rw [handleOp_other hw' hr' (hop'.trans_ne hd), handleOp_other hw hr hd]

end Covered

/-! ## Writes that need more -/

section Write

variable {r : Request} {data : List UInt8} {k k' : ℕ} {vars : Locals}

theorem Socket.neg_one_le_read (count : ℤ) (sock : Socket) : -1 ≤ (sock.read count).1 := by
  rw [Socket.read]
  split_ifs
  · exact le_rfl
  · split
    · exact le_trans (by decide) (Int.natCast_nonneg _)
    · exact le_rfl
    · exact le_trans (by decide) (Int.natCast_nonneg _)

theorem freeIndex_init : State.init.freeIndex ≠ none := fun h => State.freeIndex_eq_none.1 h 0 rfl

/-- The first write to an empty table. A `write` of -1 bytes fails, but also returns -1. -/
theorem dbWrite_init {i : Fin 200} (hi : State.init.freeIndex = some i) (name data : List UInt8)
    {len : ℤ} (hlen : -1 ≤ len) :
    dbWrite .all name data len .init = (0, State.init.stored i name (data.take len.toNat)) := by
  have hkey : State.init.findKey name = none := State.findKey_none_iff.2 fun _ h => nomatch h
  exact dbWrite_done (by rw [hkey, hi]; rfl) rfl (written_all hlen)

/-- The database after a write to an empty table. -/
theorem handleOp_write_init {i : Fin 200} (hi : State.init.freeIndex = some i) {req : Request}
    (hop : req.opStatus = 'W'.toUInt8) {sock : Socket} {len : ℤ}
    (hlen : min (atoi (List.ofFn req.len ++ vars.above)) 4096 = len) :
    (handleOp .all vars req sock .init).2.2 = if (sock.read len).1 = len then
      State.init.stored i (List.ofFn req.name ++ (List.ofFn req.len ++ vars.above))
        (((sock.read len).2.1 ++ vars.bufWrite.drop (sock.read len).2.1.length).take len.toNat)
      else .init := by
  have hge := Socket.neg_one_le_read len sock
  by_cases hsize : (sock.read len).1 = len
  · have hread : sock.read len = (len, (sock.read len).2) := Prod.ext hsize rfl
    rw [hsize] at hge
    rw [handleOp_write hop hlen hread, dbWrite_init hi _ _ hge, if_pos hsize]
    rfl
  · subst hlen
    rw [handleOp_short hop hsize, if_neg hsize]

/-- If the same comes of a write, its second `read` is complete and gets the data. -/
theorem Request.Alike.write (ha : r.Alike data k k') (h : r.WellFormed data) (hk : 1 ≤ k ∧ k ≤ 40)
    (hop : r.opStatus = 'W'.toUInt8) (vars : Locals) (len : ℤ)
    (hlen : min (atoi (List.ofFn (vars.req.fill (r.bytes.take k)).len ++ vars.above)) 4096 = len) :
    let read := Socket.read len { incoming := r.bytes.drop k ++ data, splits := [some k'] }
    read.1 = len ∧ (read.2.1 ++ vars.bufWrite.drop read.2.1.length).take len.toNat = data := by
  have halike := ha .all vars .init
  have hop' := vars.req.opStatus_fill_take r hk.1
  have hq : r.opStatus ≠ 'Q'.toUInt8 := by
    rw [hop]
    decide
  rw [handleWork_chunk hk, handleWork_whole] at halike
  obtain ⟨i, hi⟩ := Option.ne_none_iff_exists'.1 freeIndex_init
  have hdb := (handleHeader_eq hq (hop'.trans_ne hq) halike).2
  have hfull := Socket.read_full data [] (rfl : (data.length : ℤ) = data.length)
  rw [List.append_nil] at hfull
  change (handleOp .all vars _ _ .init).2.2 = (handleOp .all vars _ _ .init).2.2 at hdb
  rw [handleOp_write_init hi (hop'.trans hop) hlen,
    handleOp_write_init hi hop (atoi_len h.length_le (h.len hop) _), hfull, if_pos rfl,
    Int.toNat_natCast, List.take_left] at hdb
  -- On the empty database, what the file of the record holds tells what has been written.
  obtain ⟨fd, hfd, hdata⟩ := stored_file State.init
    (List.ofFn r.name ++ (List.ofFn r.len ++ vars.above)) data i
  intro read
  split_ifs at hdb with hsize
  · refine ⟨hsize, ?_⟩
    obtain ⟨fd', hfd', hdata'⟩ := stored_file State.init _ _ i
    rw [hdb, hfd] at hfd'
    rw [hdb] at hdata'
    rw [← hdata, Option.some.inj hfd']
    exact hdata'.symm
  · -- If nothing had been written, there would be no file.
    rw [← hdb] at hfd
    cases hfd

/-- A header whose bytes are all the same, in memory. -/
def Locals.filled (b : UInt8) (above : List UInt8) : Locals where
  req := .ofBytes (List.replicate 40 b)
  response := .ofBytes []
  bufWrite := []
  above := above

theorem bytes_fill_filled {b : UInt8} {above : List UInt8} (hk : k ≤ 40) :
    ((Locals.filled b above).req.fill (r.bytes.take k)).bytes =
      r.bytes.take k ++ List.replicate (40 - k) b := by
  rw [Request.bytes_fill_take _ hk, Locals.filled, Request.bytes_ofBytes List.length_replicate,
    List.drop_replicate]

/-- With a header of nines in memory, the length of a write whose NUL has not come is a number with
    more digits. -/
theorem isDigit_of_mem_len_fill (hk : k ≤ 40) (hlen : cString (List.ofFn r.len) = decimal data.length)
    (hlt : k < (cString (List.ofFn r.len)).length + 33) (above : List UInt8) :
    ∀ b ∈ List.ofFn ((Locals.filled 57 above).req.fill (r.bytes.take k)).len, isDigit b := by
  have hmem := Request.len_memory r []
  have hmem' := Request.len_memory ((Locals.filled 57 above).req.fill (r.bytes.take k)) []
  rw [List.append_nil, List.append_nil] at hmem hmem'
  intro b hb
  rw [hmem', bytes_fill_filled hk, List.drop_append, List.drop_take, ← hmem] at hb
  rcases List.mem_append.1 hb with hb | hb
  · -- A byte of the length that has come: the digits are longer than that.
    have hdigits : (List.ofFn r.len).take (k - 32) =
        (decimal data.length).take (k - 32) := by
      have hsplit := List.takeWhile_append_dropWhile (p := (· ≠ 0)) (l := List.ofFn r.len)
      rw [← hlen, ← hsplit, List.take_append_of_le_length, cString, hsplit]
      change _ ≤ (cString (List.ofFn r.len)).length
      omega
    rw [hdigits] at hb
    exact isDigit_of_mem_decimal (List.mem_of_mem_take hb)
  · rw [List.eq_of_mem_replicate (List.mem_of_mem_drop hb)]
    decide

/-- If the same comes of a write, its length has come with the NUL after it. -/
theorem Request.Alike.len (ha : r.Alike data k k') (h : r.WellFormed data) (hk : 1 ≤ k ∧ k ≤ 40)
    (hop : r.opStatus = 'W'.toUInt8) : (cString (List.ofFn r.len)).length + 33 ≤ k := by
  by_contra hlt
  rw [not_le] at hlt
  have hdigit := isDigit_of_mem_len_fill hk.2 (h.len hop) hlt
  -- The length may be -1. Then there are no data, although `read` and `write` seem to be complete.
  have hneg := ha.write h hk hop (.filled 57 (List.replicate 20 57)) (-1)
    ((congrArg (min · 4096) (atoi_nines (hdigit _))).trans (by decide))
  have hdata : data = [] := hneg.2.symm
  subst hdata
  -- Or the length may be one for which there are not enough bytes.
  have hlen := h.len hop
  have hle : k ≤ 33 := by
    rw [hlen] at hlt
    change k < 1 + 33 at hlt
    omega
  have hfield : List.ofFn ((Locals.filled 57 []).req.fill (r.bytes.take k)).len =
      (List.ofFn r.len).take (k - 32) ++ List.replicate (8 - (k - 32)) 57 := by
    have hmem := Request.len_memory r []
    have hmem' := Request.len_memory ((Locals.filled 57 []).req.fill (r.bytes.take k)) []
    rw [List.append_nil, List.append_nil] at hmem hmem'
    rw [hmem', bytes_fill_filled hk.2, List.drop_append, List.drop_take, ← hmem, List.drop_replicate,
      List.length_take, Request.length_bytes]
    congr 2
    omega
  have hmany := (ha.write h hk hop (.filled 57 []) 4096 ?_).1
  · simp only [Socket.read, if_neg (show ¬(4096 : ℤ) < 0 by decide), List.append_nil,
      List.length_take, List.length_drop, Request.length_bytes] at hmany
    omega
  · rw [hfield]
    by_cases hk' : k ≤ 32
    · rw [Nat.sub_eq_zero_of_le hk', List.take_zero]
      decide
    · obtain rfl : k = 33 := by omega
      have hshort : (cString (List.ofFn r.len)).length < (List.ofFn r.len).length := by
        rw [hlen, List.length_ofFn]
        decide
      obtain ⟨pad, hpad⟩ := exists_eq_cString_append hshort
      rw [hpad, hlen]
      change min (atoi (48 :: List.replicate 7 57)) 4096 = 4096
      decide

/-- If the same comes of a write, the second chunk is the data. -/
theorem Request.Alike.size_data (ha : r.Alike data k k') (h : r.WellFormed data)
    (hk : 1 ≤ k ∧ k ≤ 40) (hop : r.opStatus = 'W'.toUInt8) :
    data.length ≤ k' ∧ (r.bytes.drop k ++ data).take data.length = data := by
  obtain ⟨hsize, hdata⟩ := ha.write h hk hop (.filled 0 []) _
    (atoi_len_fill _ hk.2 h hop (ha.len h hk hop))
  simp only [Socket.read, if_neg (not_lt.2 (Int.natCast_nonneg data.length)), Int.toNat_natCast]
    at hsize hdata
  have hlen : ((r.bytes.drop k ++ data).take (min k' data.length)).length = data.length :=
    Int.natCast_inj.1 hsize
  rw [List.length_take] at hlen
  have hle : data.length ≤ k' := by omega
  rw [min_eq_right hle] at hdata
  refine ⟨hle, ?_⟩
  rwa [List.take_append_of_le_length, List.take_take, min_self] at hdata
  rw [List.length_take, List.length_append]
  omega

end Write

/-! ## Names that have not come -/

section Name

variable {r : Request} {data : List UInt8} {k k' : ℕ} {vars : Locals}

/-- Strings are different if a byte of memory is, up to the NUL of one of them. -/
theorem cString_ne {bs bs' : List UInt8} {j : ℕ} (h : (cString bs).length < bs.length)
    (h' : (cString bs).length < bs'.length) (hj : j ≤ (cString bs).length)
    (hne : bs'[j]? ≠ bs[j]?) : cString bs' ≠ cString bs := by
  intro he
  obtain ⟨pad, hpad⟩ := exists_eq_cString_append h
  obtain ⟨pad', hpad'⟩ := exists_eq_cString_append (he.symm ▸ h')
  rw [he] at hpad'
  apply hne
  generalize cString bs = c at *
  rw [hpad, hpad']
  rcases hj.lt_or_eq with hj | rfl
  · rw [List.getElem?_append_left hj, List.getElem?_append_left hj]
  · rw [List.getElem?_append_right le_rfl, List.getElem?_append_right le_rfl, Nat.sub_self]
    rfl

/-- The status of a reply says whether the name is there. -/
theorem handleOp_status {s : State} {m : List UInt8 → Option (List UInt8)} (h : s.Implements m)
    {req : Request} (hop : req.opStatus = 'R'.toUInt8 ∨ req.opStatus = 'D'.toUInt8) (sock : Socket) :
    (handleOp .all vars req sock s).1.opStatus =
      if (m (cString (List.ofFn req.name ++ (List.ofFn req.len ++ vars.above)))).isSome
      then 'K'.toUInt8 else 'X'.toUInt8 := by
  change _ = if (m (cString (req.key vars.above))).isSome then _ else _
  rcases hop with hop | hop
  · rw [handleOp_read hop, h.dbRead_all]
    cases hm : m (cString (req.key vars.above)) with
    | none => rfl
    | some v =>
      have hpos := (h.sized _ v hm).1
      simp only [Int.natCast_pos, hpos, if_true]
      rfl
  · rw [handleOp_delete hop]
    by_cases hm : (m (cString (req.key vars.above))).isSome
    · rw [if_pos (h.dbDelete_ok hm).1, if_pos hm]
      rfl
    · rw [if_neg hm]
      rw [Option.not_isSome_iff_eq_none] at hm
      rw [h.dbDelete_none hm]
      rfl

/-- A database that only has one name. -/
theorem exists_implements_single {bs : List UInt8} (hname : (cString bs).length ≤ 30) :
    ∃ s : State, s.Implements (Function.update (fun _ => none) (cString bs) (some [0])) := by
  have hroom : size (fun _ : List UInt8 => (none : Option (List UInt8))) < 200 :=
    not_le.1 fun hfull => freeIndex_init (State.init_implements.freeIndex_none.2 hfull)
  have hle : 1 ≤ ([0] : List UInt8).length := le_rfl
  exact ⟨_, (State.init_implements.dbWrite_ok hname ⟨Nat.one_pos, by decide⟩ hle (.inr hroom)).2⟩

/-- If the same comes of a read or a delete, its name has come with the NUL after it. -/
theorem Request.Alike.name (ha : r.Alike data k k') (h : r.WellFormed data) (hk : 1 ≤ k ∧ k ≤ 40)
    (hop : r.opStatus = 'R'.toUInt8 ∨ r.opStatus = 'D'.toUInt8) :
    (cString (List.ofFn r.name)).length + 2 ≤ k := by
  by_contra hlt
  have hname := h.name (.inr hop)
  obtain ⟨j, rfl⟩ := Nat.exists_eq_add_of_le' hk.1
  have hmem := Request.name_memory r []
  have hN := cString_name ⟨rfl, hname⟩ (List.ofFn r.len ++ [])
  -- There is a byte in memory that is not the one that has not come.
  obtain ⟨b, hb⟩ : ∃ b : UInt8, some b ≠ (r.bytes.drop 1)[j]? := by
    by_cases h0 : (r.bytes.drop 1)[j]? = some 0
    · exact ⟨1, by rw [h0]; decide⟩
    · exact ⟨0, fun he => h0 he.symm⟩
  have hmem' := Request.name_memory ((Locals.filled b []).req.fill (r.bytes.take (j + 1))) []
  have hne : cString (List.ofFn ((Locals.filled b []).req.fill (r.bytes.take (j + 1))).name ++
      (List.ofFn ((Locals.filled b []).req.fill (r.bytes.take (j + 1))).len ++ [])) ≠
      cString (List.ofFn r.name) := by
    rw [← hN]
    have hlen : (r.bytes.take (j + 1)).length = j + 1 :=
      List.length_take_of_le (by rw [Request.length_bytes]; exact hk.2)
    refine cString_ne (j := j) ?_ ?_ (by rw [hN]; omega) ?_
    · rw [hN, List.length_append, List.length_ofFn]
      omega
    · rw [hN, List.length_append, List.length_ofFn]
      omega
    · rw [hmem, hmem', List.append_nil, List.append_nil, bytes_fill_filled hk.2,
        List.getElem?_drop, Nat.add_comm 1, List.getElem?_append_right hlen.le, hlen, Nat.sub_self,
        List.getElem?_replicate, if_pos (by omega)]
      exact hb
  obtain ⟨s, hdb⟩ := exists_implements_single hname
  have halike := ha .all (.filled b []) ⟨s, Server.init.stats⟩
  have hop' := (Locals.filled b []).req.opStatus_fill_take r hk.1
  have hq : r.opStatus ≠ 'Q'.toUInt8 := by
    rcases hop with hop | hop <;> (rw [hop]; decide)
  rw [handleWork_chunk hk, handleWork_whole] at halike
  have hstatus := (handleHeader_eq hq (hop'.trans_ne hq) halike).1
  rw [handleOp_status hdb (by rwa [hop']), handleOp_status hdb hop] at hstatus
  rw [show (Locals.filled b []).above = [] from rfl, Function.update_of_ne hne, hN,
    Function.update_self] at hstatus
  exact absurd hstatus (by decide)

end Name

/-- The same comes of a request, whatever is in memory and in the database, if and only if its
    chunks have what is needed. -/
theorem alike_iff {r : Request} {data : List UInt8} (h : r.WellFormed data) {k k' : ℕ}
    (hk : 1 ≤ k ∧ k ≤ 40) : r.Alike data k k' ↔ r.Covered data k k' :=
  ⟨fun ha => ⟨ha.name h hk, ha.len h hk, fun hop => (ha.size_data h hk hop).1,
    fun hop => (ha.size_data h hk hop).2⟩, fun hc => hc.alike h hk⟩

/-- The name `a`. -/
def keyA : Key := ⟨[97], by decide, by decide⟩

theorem wellFormed_writeA :
    (Request.padded 'W'.toUInt8 keyA 2).WellFormed [120, 121] where
  name _ := by decide
  len _ := by decide
  length_le := by decide
  data h := absurd rfl h

/-- A write of two bytes, whose header and data each come in one chunk. -/
theorem alike_writeA : (Request.padded 'W'.toUInt8 keyA 2).Alike [120, 121] 40 2 :=
  (alike_iff wellFormed_writeA ⟨by decide, by decide⟩).2
    ⟨fun h => absurd h (by decide), fun _ => by decide, fun _ => le_rfl, fun _ => by decide⟩

/-- A write of two bytes, which come one by one. -/
theorem not_alike_writeA : (Request.padded 'W'.toUInt8 keyA 2).WellFormed [120, 121] ∧
    ¬(Request.padded 'W'.toUInt8 keyA 2).Alike [120, 121] 40 1 :=
  ⟨wellFormed_writeA, fun ha =>
    absurd (ha.size_data wellFormed_writeA ⟨by decide, by decide⟩ rfl).1 (by decide)⟩

end Cs5600.Db
