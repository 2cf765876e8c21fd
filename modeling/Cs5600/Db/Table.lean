import Mathlib.Data.List.FinRange
import Mathlib.Logic.Function.Basic
import Cs5600.CText

/-!
# The database

The functions of `database.c`, under the names of the source. The table has 200
records; the data of the record `i` is in the file `/tmp/data.i`, which the
functions open, read, write and unlink. A file is an inode with bytes, as a name
may be unlinked or get another inode while somebody has the file open.

A `char *` is the bytes in memory from where it points on. The C code reads them
up to a NUL (`CText.cString`).
-/

namespace Cs5600.Db

open CText

/-- The status of a record. -/
inductive Status
  | invalid
  | busy
  | valid
  deriving DecidableEq

/-- `struct db_record`. -/
structure Record where
  recordName : Fin 31 → UInt8
  status : Status

/-- The C string of the name of a record. A byte of padding, which is 0, follows the name. -/
def Record.name (r : Record) : List UInt8 := cString (List.ofFn r.recordName)

/-- The table of records, and the files in `/tmp`. -/
structure State where
  /-- `db_table`. -/
  table : Fin 200 → Record
  /-- The inode of the file `/tmp/data.i`, if it exists. -/
  file : Fin 200 → Option ℕ
  /-- The bytes of an inode. -/
  content : ℕ → List UInt8
  /-- The inodes from here on are new. -/
  fresh : ℕ

namespace State

variable (s : State)

/-- The table when the server starts, without files. -/
def init : State where
  table _ := { recordName := fun _ => 0, status := .invalid }
  file _ := none
  content _ := []
  fresh := 0

/-! ## Assignments and system calls -/

/-- `db_table[i].status = st`. -/
def setStatus (i : Fin 200) (st : Status) : State :=
  { s with table := Function.update s.table i { s.table i with status := st } }

/-- `strncpy(db_table[i].record_name, name, sizeof(db_table[i].record_name))`. -/
def setName (i : Fin 200) (name : List UInt8) : State :=
  { s with table := Function.update s.table i { s.table i with recordName := strncpy name } }

/-- `open(filename, O_WRONLY | O_CREAT | O_TRUNC, 0777)`, for `/tmp/data.i`, and the inode of the
    file. -/
def create (i : Fin 200) : State × ℕ :=
  match s.file i with
  | some f => ({ s with content := Function.update s.content f [] }, f)
  | none =>
    ({ s with
        file := Function.update s.file i (some s.fresh)
        content := Function.update s.content s.fresh []
        fresh := s.fresh + 1 }, s.fresh)

/-- `write`, at the beginning of a file. -/
def write (f : ℕ) (bytes : List UInt8) : State :=
  { s with
    content := Function.update s.content f (bytes ++ (s.content f).drop bytes.length) }

/-- `unlink`, of `/tmp/data.i`. -/
def unlink (i : Fin 200) : State := { s with file := Function.update s.file i none }

/-! ## The functions of `database.c` -/

/-- `find_key`. -/
def findKey (key : List UInt8) : Option (Fin 200) :=
  (List.finRange 200).find? fun i =>
    (s.table i).status == .valid && (s.table i).name == cString key

/-- `free_index`. -/
def freeIndex : Option (Fin 200) :=
  (List.finRange 200).find? fun i => (s.table i).status == .invalid

/-- `count_valid_objects`. -/
def countValidObjects : ℕ := (List.finRange 200).countP fun i => (s.table i).status == .valid

end State

/-- How the system calls of a call go. -/
structure Io where
  /-- Whether `open` succeeds. -/
  opens : Bool
  /-- How many bytes `write` leaves out, unless it fails. -/
  short : Option ℕ

/-- System calls that succeed. -/
def Io.all : Io := { opens := true, short := some 0 }

/-- What `write(fd, data, len)` returns. -/
def Io.written (io : Io) (len : ℤ) : ℤ :=
  if len < 0 then -1
  else
    match io.short with
    | none => -1
    | some k => max 0 (len - k)

/-- `db_write`. -/
def dbWrite (io : Io) (name data : List UInt8) (len : ℤ) (s : State) : ℤ × State :=
  match (s.findKey name).or s.freeIndex with
  | none => (-1, s)
  | some index =>
    let s := s.setStatus index .busy
    if io.opens then
      let (s, fd) := s.create index
      let writeDone := io.written len
      let s := s.write fd (data.take writeDone.toNat)
      if writeDone ≠ len then (-1, s.setStatus index .invalid)
      else (0, (s.setName index name).setStatus index .valid)
    else (-1, s.setStatus index .invalid)

/-- `db_read`: what it returns, and the bytes read, if there are any. -/
def dbRead (io : Io) (name : List UInt8) (s : State) : ℤ × List UInt8 :=
  match s.findKey name with
  | none => (-1, [])
  | some index =>
    match s.file index with
    | none => (-1, [])
    | some fd =>
      if io.opens then
        let buf := (s.content fd).take 4096
        (buf.length, buf)
      else (-1, [])

/-- `db_delete`. -/
def dbDelete (name : List UInt8) (s : State) : ℤ × State :=
  match s.findKey name with
  | none => (-1, s)
  | some index =>
    if (s.table index).status = .busy then (-1, s)
    else if (s.file index).isSome then (0, (s.unlink index).setStatus index .invalid)
    else (-1, s)

/-! ## Names -/

/-- A name of a record: at most 30 bytes before the NUL. -/
structure Key where
  bytes : List UInt8
  nul_notMem : 0 ∉ bytes
  length_le : bytes.length ≤ 30
  deriving DecidableEq

namespace Key

variable (k : Key)

@[simp] theorem cString_bytes : cString k.bytes = k.bytes := cString_eq_self k.nul_notMem

/-- A name of at most 30 bytes is stored as it is. -/
theorem cString_strncpy : cString (List.ofFn (strncpy k.bytes : Fin 31 → UInt8)) = k.bytes := by
  rw [ofFn_strncpy (by rw [cString_bytes]; exact k.length_le), cString_bytes,
    cString_append_nul k.nul_notMem]

end Key

/-! ## Records after assignments -/

namespace State

variable {s : State} {i j : Fin 200}

@[simp] theorem setStatus_self (st : Status) :
    (s.setStatus i st).table i = { s.table i with status := st } := Function.update_self ..

theorem setStatus_of_ne (st : Status) (h : j ≠ i) : (s.setStatus i st).table j = s.table j :=
  Function.update_of_ne h ..

@[simp] theorem setName_self (name : List UInt8) :
    (s.setName i name).table i = { s.table i with recordName := strncpy name } :=
  Function.update_self ..

theorem setName_of_ne (name : List UInt8) (h : j ≠ i) : (s.setName i name).table j = s.table j :=
  Function.update_of_ne h ..

@[simp] theorem create_table : (s.create i).1.table = s.table := by
  rw [create]
  split <;> rfl

theorem write_content_self (f : ℕ) (bytes : List UInt8) :
    (s.write f bytes).content f = bytes ++ (s.content f).drop bytes.length :=
  Function.update_self ..

theorem create_file_self : (s.create i).1.file i = some (s.create i).2 := by
  rw [create]
  split
  · assumption
  · exact Function.update_self ..

theorem create_content_self : (s.create i).1.content (s.create i).2 = [] := by
  rw [create]
  split
  · exact Function.update_self ..
  · exact Function.update_self ..

end State

/-! ## Looking up records -/

namespace State

variable {s : State} {i : Fin 200} {k : Key}

/-- The record `i` holds a value for a key. -/
structure Holds (s : State) (i : Fin 200) (k : Key) : Prop where
  status : (s.table i).status = .valid
  name : (s.table i).name = k.bytes

theorem of_findKey {name : List UInt8} (h : s.findKey name = some i) :
    (s.table i).status = .valid ∧ (s.table i).name = cString name := by
  have hi := List.find?_some h
  rwa [Bool.and_eq_true, beq_iff_eq, beq_iff_eq] at hi

theorem findKey_none_iff {name : List UInt8} :
    s.findKey name = none ↔
      ∀ i, (s.table i).status = .valid → (s.table i).name ≠ cString name := by
  rw [findKey, List.find?_eq_none]
  refine forall_congr' fun i => ?_
  rw [Bool.and_eq_true, beq_iff_eq, beq_iff_eq, not_and]
  exact ⟨fun h => h (List.mem_finRange i), fun h _ => h⟩

/-- `find_key` finds the first one of the records with the name. -/
theorem findKey_eq_some_iff {name : List UInt8} :
    s.findKey name = some i ↔
      ((s.table i).status = .valid ∧ (s.table i).name = cString name) ∧
      ∀ j < i, (s.table j).status = .valid → (s.table j).name ≠ cString name := by
  have hno : ∀ j, (!((s.table j).status == .valid && (s.table j).name == cString name)) = true ↔
      ((s.table j).status = .valid → (s.table j).name ≠ cString name) := by
    intro j
    rw [Bool.not_eq_true', Bool.and_eq_false_iff, beq_eq_false_iff_ne, beq_eq_false_iff_ne,
      imp_iff_not_or]
  rw [findKey, List.find?_eq_some_iff_getElem, Bool.and_eq_true, beq_iff_eq, beq_iff_eq]
  refine and_congr_right fun _ => ⟨?_, fun h => ⟨i, by simp, by simp, fun j hj => ?_⟩⟩
  · rintro ⟨n, hn, hi, hlt⟩ j hj
    rw [List.getElem_finRange] at hi
    subst hi
    have hj' := hlt j hj
    rw [List.getElem_finRange] at hj'
    exact (hno j).1 hj'
  · rw [List.getElem_finRange]
    exact (hno _).2 (h _ hj)

theorem of_findKey_eq_some (h : s.findKey k.bytes = some i) : s.Holds i k := by
  obtain ⟨hstatus, hname⟩ := of_findKey h
  exact ⟨hstatus, hname.trans k.cString_bytes⟩

theorem findKey_eq_none : s.findKey k.bytes = none ↔ ∀ i, ¬s.Holds i k := by
  rw [findKey_none_iff, k.cString_bytes]
  exact ⟨fun h i hi => h i hi.status hi.name, fun h i hi hn => h i ⟨hi, hn⟩⟩

theorem of_freeIndex_eq_some (h : s.freeIndex = some i) : (s.table i).status = .invalid :=
  beq_iff_eq.1 (List.find?_some (p := fun i => (s.table i).status == .invalid) h)

theorem freeIndex_eq_none : s.freeIndex = none ↔ ∀ i, (s.table i).status ≠ .invalid := by
  rw [freeIndex, List.find?_eq_none]
  exact ⟨fun h i hi => h i (List.mem_finRange i) (beq_iff_eq.2 hi),
    fun h i _ hi => h i (beq_iff_eq.1 hi)⟩

end State

/-! ## Names in memory -/

section Names

variable {s : State} {name name' : List UInt8} (h : cString name' = cString name)
include h

/-- The functions of the database only look at a name up to its NUL. -/
theorem dbWrite_congr (io : Io) (data : List UInt8) (len : ℤ) :
    dbWrite io name' data len s = dbWrite io name data len s := by
  have hset : ∀ (t : State) (i : Fin 200), t.setName i name' = t.setName i name := by
    intro t i
    have hcpy : (strncpy name' : Fin 31 → UInt8) = strncpy name :=
      funext fun j => by rw [strncpy, strncpy, h]
    rw [State.setName, State.setName, hcpy]
  rw [dbWrite, dbWrite, State.findKey, State.findKey, h]
  simp only [hset]

theorem dbRead_congr (io : Io) : dbRead io name' s = dbRead io name s := by
  rw [dbRead, dbRead, State.findKey, State.findKey, h]

theorem dbDelete_congr : dbDelete name' s = dbDelete name s := by
  rw [dbDelete, dbDelete, State.findKey, State.findKey, h]

end Names

end Cs5600.Db
