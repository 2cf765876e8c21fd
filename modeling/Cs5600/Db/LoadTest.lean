import Mathlib.Algebra.Order.BigOperators.Group.Finset
import Mathlib.Algebra.Order.Ring.Nat
import Cs5600.Db.Client
import Cs5600.Interleave
import Cs5600.Traces

/-!
# The load test

The threads of `dbtest.c` that send random requests to the server and check what they read. They
share a table of the keys that they have written, with the length and the checksum of the data, and
a thread marks the entry that it works with as busy. Here the threads take their steps in any order;
each of the sections under the mutex is a step, and so is the handling of a request by the server,
which does so for one request at a time.

`get_op` never chooses to delete, so that `n_objects` only grows. The number of threads
and the argument `max` decide how far: a thread that has found `n_objects` to be small enough for
another write may only count it after all others have done so, too. As long as the table has room for
all of them, no thread runs over its end; then no assertion fails, and no thread complains about
what it reads (`loadTest_clean`), if `randstr` does not happen to choose a name twice.
-/

namespace Cs5600.Db

open BoundedMap CText

/-! ## The functions of `dbtest.c` -/

/-- An entry of `table`. -/
structure Entry where
  name : List UInt8
  len : ℕ
  crc : ℤ
  busy : Bool

/-- What `get_op` returns. -/
inductive Op
  | write
  | read
  | delete
  deriving DecidableEq

def Op.byte : Op → UInt8
  | write => 'W'.toUInt8
  | read => 'R'.toUInt8
  | delete => 'D'.toUInt8

/-- An `int` can be this number. -/
def IsInt (v : ℤ) : Prop := -2 ^ 31 ≤ v ∧ v < 2 ^ 31

instance (v : ℤ) : Decidable (IsInt v) := inferInstanceAs (Decidable (_ ∧ _))

/-- `get_op`, if `random` returns first `n` and then `r`, unless a product overflows. -/
def getOp (maxKeys nn : ℤ) (n r : ℕ) : Option Op :=
  if IsInt (maxKeys * 85) ∧ IsInt (maxKeys * 15) then
    let hi := (maxKeys * 85).tdiv 100
    let lo := (maxKeys * 15).tdiv 100
    let op := if nn ≥ hi then (if n % 20 > 10 then .read else .delete) else .write
    some (if nn ≥ lo then (if ((r % 100 : ℕ) : ℤ) > nn - lo then .write else .read) else op)
  else none

/-- `pick_random`, which tries these entries. -/
def pickRandom (table : Fin 150 → Entry) (nums : List (Fin 150)) : Option (Fin 150) :=
  nums.find? fun num => 0 < (table num).len && !(table num).busy

/-- `get_free`, unless it finds no entry and uses the memory after the table. -/
def getFree (table : Fin 150 → Entry) : Option (Fin 150) :=
  (List.finRange 150).find? fun num => (table num).len == 0 && !(table num).busy

/-- What `randstr` may make. -/
def Randstr (s : List UInt8) : Prop := ∀ b ∈ s, 'A'.toUInt8 ≤ b ∧ b < 'A'.toUInt8 + 25

/-- The header of a request of `thread`. -/
def loadRequest (op : Op) (name : List UInt8) (len : ℕ) : Request :=
  ({ (Request.ofBytes []).setName name with opStatus := op.byte } : Request).setLen len

/-- Where a thread is. -/
inductive Tester
  /-- Before `get_op`. -/
  | idle
  /-- It is going to write. -/
  | write
  /-- Before it counts a new object. -/
  | new
  /-- Before `get_free`. -/
  | counted
  /-- `get_free` has returned an entry, which does not have the name yet. -/
  | got (num : Fin 150) (name : List UInt8)
  /-- It is going to write a key again. -/
  | again (num : Fin 150)
  /-- Before it sends data. -/
  | writing (num : Fin 150) (name : List UInt8)
  /-- The server has not handled the request yet. -/
  | sent (num : Fin 150) (name data : List UInt8)
  | written (num : Fin 150) (name data reply : List UInt8)
  /-- Before `pick_random`. -/
  | pick (op : Op)
  | picked (op : Op) (num : Fin 150)
  /-- The server has not handled the request yet. -/
  | asked (op : Op) (num : Fin 150) (name : List UInt8) (savedCrc : ℤ) (savedLen : ℕ)
  | answered (op : Op) (num : Fin 150) (name : List UInt8) (savedCrc : ℤ) (savedLen : ℕ)
    (reply : List UInt8)
  deriving DecidableEq

/-- What must not happen to a thread. -/
inductive Fault
  /-- It uses the memory after the table. -/
  | overrun
  /-- An assertion fails. -/
  | assertion
  /-- It reads for ever. -/
  | endless
  /-- A product does not fit into an `int`. -/
  | overflow

/-- The threads, the table, and the server. -/
structure Load (T : Type*) where
  table : Fin 150 → Entry
  nObjects : ℤ
  tester : T → Tester
  server : Server
  printed : List UInt8
  faults : List Fault

namespace Load

variable {T : Type*} [DecidableEq T]

/-- The beginning. -/
def init : Load T where
  table _ := { name := [], len := 0, crc := 0, busy := false }
  nObjects := 0
  tester _ := .idle
  server := .init
  printed := []
  faults := []

variable (s : Load T) (t : T)

def goto (ph : Tester) : Load T := { s with tester := Function.update s.tester t ph }

def fault (f : Fault) : Load T := { s with faults := s.faults ++ [f] }

def setEntry (num : Fin 150) (e : Entry) : Load T :=
  { s with table := Function.update s.table num e }

def setBusy (num : Fin 150) (busy : Bool) : Load T :=
  s.setEntry num { s.table num with busy }

def print (text : List UInt8) : Load T := { s with printed := s.printed ++ text }

/-- What comes of a request to the server. -/
def handle (vars : Locals) (rq : Request) (data : List UInt8) : Handled :=
  handleWork .all vars ⟨rq.bytes ++ data, []⟩ s.server

/-- The end of a write, when the reply has arrived. -/
def finishWrite (crc : List UInt8 → ℤ) (error : List UInt8) (num : Fin 150)
    (name data : List UInt8) (sock : Socket) : Load T :=
  let (val, _, _) := sock.read 40
  let s := if val < 40 then s.print (noHeader "WRITE" error val) else s
  if (s.table num).name = name then
    (s.setEntry num { name, len := data.length, crc := crc data, busy := false }).goto t .idle
  else s.fault .assertion

/-- What a thread prints if what it has read is not what has been written. -/
def complaint (name : List UInt8) (what : String) (v saved : ℤ) : List UInt8 :=
  if v ≠ saved then
    "READ ".toUTF8.toList ++ name ++ (": bad " ++ what ++ " ").toUTF8.toList ++ formatInt v ++
      " (should be ".toUTF8.toList ++ formatInt saved ++ ")\n".toUTF8.toList
  else []

/-- The end of a read, with what is in memory after the header and in `buf`. -/
def finishRead (crc : List UInt8 → ℤ) (error above buf : List UInt8) (num : Fin 150)
    (name : List UInt8) (savedCrc : ℤ) (savedLen : ℕ) (sock : Socket) : Load T :=
  let (val, bytes, sock) := sock.read 40
  let rq := (loadRequest .read name 0).fill bytes
  let s := if val < 40 then s.print (noHeader "R HDR" error val) else s
  let len := (atoi (List.ofFn rq.len ++ above)).toNat
  match readLoop sock.splits sock.incoming len with
  | none => s.fault .endless
  | some (bytes, failed) =>
    let s := s.print (noData error failed)
    let data := (bytes ++ buf.drop bytes.length).take len
    let s := s.print (complaint name "len" len savedLen)
    let s := s.print (complaint name "cksum" (crc data) savedCrc)
    (s.setBusy num false).goto t .idle

/-- The end of a delete. -/
def finishDelete (error : List UInt8) (num : Fin 150) (sock : Socket) : Load T :=
  let (val, _, _) := sock.read 40
  let s := if val < 40 then s.print (noHeader "D HDR" error val) else s
  ({ s.setEntry num { s.table num with len := 0, busy := false } with
    nObjects := s.nObjects - 1 }).goto t .idle

/-- A step of a thread, or of the server for it, and the name that `randstr` has chosen in it. The
    headers of replies arrive whole, and how many requests a thread sends is not limited. -/
inductive Step (maxKeys : ℤ) (crc : List UInt8 → ℤ) (s : Load T) (t : T) :
    Option (List UInt8) → Load T → Prop
  | getOp (n r : ℕ) : s.tester t = .idle → Step maxKeys crc s t none
      (match Db.getOp maxKeys s.nObjects n r with
        | some .write => s.goto t .write
        | some op => s.goto t (.pick op)
        | none => s.fault .overflow)
  | fresh : s.tester t = .write → Step maxKeys crc s t none (s.goto t .new)
  | rewrite (nums : List (Fin 150)) : s.tester t = .write → nums.length = 20 →
      Step maxKeys crc s t none (match pickRandom s.table nums with
        | none => s.goto t .new
        | some num => (s.setBusy num true).goto t (.again num))
  | count : s.tester t = .new → Step maxKeys crc s t none
      ({ s with nObjects := s.nObjects + 1 }.goto t .counted)
  | getFree {name : List UInt8} : s.tester t = .counted → name.length = 16 → Randstr name →
      Step maxKeys crc s t (some name) (match Db.getFree s.table with
        | none => s.fault .overrun
        | some num => (s.setBusy num true).goto t (.got num name))
  | strcpy {num : Fin 150} {name : List UInt8} : s.tester t = .got num name →
      Step maxKeys crc s t none (if (s.table num).busy then
        (s.setEntry num { s.table num with name }).goto t (.writing num name)
      else s.fault .assertion)
  | copyName {num : Fin 150} : s.tester t = .again num →
      Step maxKeys crc s t none (if (s.table num).busy then
        s.goto t (.writing num (s.table num).name)
      else s.fault .assertion)
  | send {num : Fin 150} {name data : List UInt8} : s.tester t = .writing num name →
      20 ≤ data.length → data.length < 620 → Randstr data →
      Step maxKeys crc s t none (s.goto t (.sent num name data))
  | handleWrite {num : Fin 150} {name data : List UInt8} (vars : Locals) :
      s.tester t = .sent num name data → Step maxKeys crc s t none
        (let h := s.handle vars (loadRequest .write name data.length) data
        { s with server := h.server }.goto t (.written num name data h.sent))
  | finishWrite {num : Fin 150} {name data reply error : List UInt8} {splits : List (Option ℕ)} :
      s.tester t = .written num name data reply → Delivers splits →
      Step maxKeys crc s t none (s.finishWrite t crc error num name data ⟨reply, splits⟩)
  | pick {op : Op} (nums : List (Fin 150)) : s.tester t = .pick op → nums.length = 20 →
      Step maxKeys crc s t none (match pickRandom s.table nums with
        | none => s
        | some num => (s.setBusy num true).goto t (.picked op num))
  | copy {op : Op} {num : Fin 150} : s.tester t = .picked op num → Step maxKeys crc s t none
      (s.goto t (.asked op num (s.table num).name (s.table num).crc (s.table num).len))
  | handleRead {op : Op} {num : Fin 150} {name : List UInt8} {savedCrc : ℤ} {savedLen : ℕ}
      (vars : Locals) : s.tester t = .asked op num name savedCrc savedLen → Step maxKeys crc s t none
        (let h := s.handle vars (loadRequest op name 0) []
        { s with server := h.server }.goto t (.answered op num name savedCrc savedLen h.sent))
  | finishRead {num : Fin 150} {name reply error above buf : List UInt8} {savedCrc : ℤ}
      {savedLen : ℕ} {splits : List (Option ℕ)} :
      s.tester t = .answered .read num name savedCrc savedLen reply → Delivers splits →
      Step maxKeys crc s t none
        (s.finishRead t crc error above buf num name savedCrc savedLen ⟨reply, splits⟩)
  | finishDelete {num : Fin 150} {name reply error : List UInt8} {savedCrc : ℤ} {savedLen : ℕ}
      {splits : List (Option ℕ)} :
      s.tester t = .answered .delete num name savedCrc savedLen reply → Delivers splits →
      Step maxKeys crc s t none (s.finishDelete t error num ⟨reply, splits⟩)

/-- A step of any thread. -/
def Steps (maxKeys : ℤ) (crc : List UInt8 → ℤ) (s : Load T) (name : Option (List UInt8))
    (s' : Load T) : Prop := ∃ t, Step maxKeys crc s t name s'

end Load

/-! ## Entries and keys -/

/-- The entry that a thread works with. -/
def Tester.slot : Tester → Option (Fin 150)
  | got num _ | again num | writing num _ | sent num _ _ | written num _ _ _ | picked _ num
  | asked _ num _ _ _ | answered _ num _ _ _ _ => some num
  | _ => none

/-- An entry has a key, and the length and the checksum of its value. -/
def Entry.Settled (crc : List UInt8 → ℤ) (e : Entry) (key value : Option (List UInt8)) : Prop :=
  key = some e.name ∧ 0 < e.len ∧ ∃ d, value = some d ∧ d.length = e.len ∧ crc d = e.crc

/-- What holds of the entry that a thread works with, of its key, and of the value of the key. -/
def Tester.Works (crc : List UInt8 → ℤ) (e : Entry) (key value : Option (List UInt8)) :
    Tester → Prop
  | got _ name => key = some name
  | again _ => key = some e.name
  | writing _ name => key = some name ∧ e.name = name
  | sent _ name data => (key = some name ∧ e.name = name) ∧ 20 ≤ data.length ∧ data.length < 620
  | written _ name data reply => (key = some name ∧ e.name = name) ∧ 0 < data.length ∧
      value = some data ∧ Responds 'K'.toUInt8 [] reply
  | picked op _ => op = .read ∧ e.Settled crc key value
  | asked op _ name savedCrc savedLen => op = .read ∧ e.Settled crc key value ∧
      e.name = name ∧ e.crc = savedCrc ∧ e.len = savedLen
  | answered op _ _ savedCrc savedLen reply => op = .read ∧ e.Settled crc key value ∧
      e.crc = savedCrc ∧ e.len = savedLen ∧ ∃ d, value = some d ∧ Responds 'K'.toUInt8 d reply
  | _ => False

/-- What holds of an entry, of its key, and of the value of the key, if this thread works with it, or
    none does. -/
def Entry.Ok (crc : List UInt8 → ℤ) (e : Entry) (key value : Option (List UInt8)) :
    Option Tester → Prop
  | none => e.busy = false ∧ ((e.len = 0 ∧ key = none) ∨ e.Settled crc key value)
  | some ph => e.busy = true ∧ ph.Works crc e key value

namespace Load

variable {T : Type*} [DecidableEq T] {maxKeys : ℤ} {crc : List UInt8 → ℤ} {s s' : Load T} {t : T}
  {key key' : Fin 150 → Option (List UInt8)} {m m' : List UInt8 → Option (List UInt8)}
  {owner owner' : Fin 150 → Option T} {i : Fin 150} {ph : Tester}

omit [DecidableEq T] in
/-- The entries have different keys, and at most one thread works with each of them. -/
structure Slots (crc : List UInt8 → ℤ) (s : Load T) (key : Fin 150 → Option (List UInt8))
    (m : List UInt8 → Option (List UInt8)) (owner : Fin 150 → Option T) : Prop where
  owns : ∀ t i, (s.tester t).slot = some i ↔ owner i = some t
  ok : ∀ i, (s.table i).Ok crc (key i) ((key i).bind m) ((owner i).map s.tester)
  inj : ∀ i j name, key i = some name → key j = some name → i = j
  reads : ∀ t op, s.tester t = .pick op → op = .read

namespace Slots

/-- A thread goes on with an entry, or takes one that no thread has, or leaves its own. -/
theorem move (h : Slots crc s key m owner) (htester : s'.tester = Function.update s.tester t ph)
    (htable : ∀ j, j ≠ i → s'.table j = s.table j) (hkey : ∀ j, j ≠ i → key' j = key j)
    (hm : ∀ j, j ≠ i → (key j).bind m' = (key j).bind m)
    (hinj : ∀ j name, j ≠ i → key j = some name → key' i ≠ some name)
    (howner : owner i = some t ∨ owner i = none ∧ (s.tester t).slot = none)
    (howner' : owner' = Function.update owner i (ph.slot.map fun _ => t))
    (hslot : ∀ j, ph.slot = some j → j = i) (hread : ∀ op, ph = .pick op → op = .read)
    (hok : (s'.table i).Ok crc (key' i) ((key' i).bind m') (ph.slot.map fun _ => ph)) :
    Slots crc s' key' m' owner' := by
  -- Before the step, the thread works with no other entry.
  have hnot : ∀ j, j ≠ i → owner j ≠ some t := by
    intro j hj hown
    have hs := (h.owns t j).2 hown
    rcases howner with ho | ⟨-, ho⟩
    · exact hj (Option.some.inj (hs.symm.trans ((h.owns t i).2 ho)))
    · rw [ho] at hs
      cases hs
  have hother : ∀ u, u ≠ t → owner i ≠ some u := by
    intro u hu hown
    rcases howner with ho | ⟨ho, -⟩
    · exact hu (Option.some.inj (hown.symm.trans ho))
    · rw [ho] at hown
      cases hown
  refine ⟨fun u j => ?_, fun j => ?_, fun j k name hj hk => ?_, fun u op hu => ?_⟩
  · rw [htester, howner']
    by_cases hut : u = t
    · subst hut
      rw [Function.update_self]
      by_cases hj : j = i
      · subst hj
        rw [Function.update_self]
        cases hph : ph.slot with
        | none => exact iff_of_false (fun h => by cases h) fun h => by cases h
        | some k =>
          obtain rfl := hslot k hph
          exact iff_of_true rfl rfl
      · rw [Function.update_of_ne hj]
        exact iff_of_false (fun h => hj (hslot j h)) (hnot j hj)
    · rw [Function.update_of_ne hut]
      by_cases hj : j = i
      · subst hj
        rw [Function.update_self, h.owns]
        refine iff_of_false (hother u hut) fun h => ?_
        obtain ⟨-, -, he⟩ := Option.map_eq_some_iff.1 h
        exact hut he.symm
      · rw [Function.update_of_ne hj]
        exact h.owns u j
  · rw [htester, howner']
    by_cases hj : j = i
    · subst hj
      rw [Function.update_self, Option.map_map]
      cases hph : ph.slot with
      | none => rw [hph] at hok; exact hok
      | some k =>
        rw [hph] at hok
        simpa only [Option.map_some, Function.comp_apply, Function.update_self] using hok
    · rw [Function.update_of_ne hj, htable j hj, hkey j hj, hm j hj]
      have hmap : (owner j).map (Function.update s.tester t ph) = (owner j).map s.tester := by
        cases ho : owner j with
        | none => rfl
        | some u =>
          have hut : u ≠ t := fun he => hnot j hj (he ▸ ho)
          rw [Option.map_some, Option.map_some, Function.update_of_ne hut]
      rw [hmap]
      exact h.ok j
  · by_cases hji : j = i
    · subst hji
      by_contra hne
      exact hinj k name (Ne.symm hne) (by rwa [hkey k (Ne.symm hne)] at hk) hj
    · rw [hkey j hji] at hj
      by_cases hki : k = i
      · subst hki
        exact absurd hk (hinj j name hji hj)
      · rw [hkey k hki] at hk
        exact h.inj j k name hj hk
  · rw [htester] at hu
    by_cases hut : u = t
    · subst hut
      rw [Function.update_self] at hu
      exact hread op hu
    · rw [Function.update_of_ne hut] at hu
      exact h.reads u op hu

/-- A thread goes on without an entry. -/
theorem stay (h : Slots crc s key m owner) (htester : s'.tester = Function.update s.tester t ph)
    (htable : s'.table = s.table) (hslot : (s.tester t).slot = none) (hph : ph.slot = none)
    (hread : ∀ op, ph = .pick op → op = .read) : Slots crc s' key m owner := by
  have hnot : ∀ j, owner j ≠ some t := by
    intro j hown
    rw [(h.owns t j).2 hown] at hslot
    cases hslot
  refine ⟨fun u j => ?_, fun j => ?_, h.inj, fun u op hu => ?_⟩
  · rw [htester]
    by_cases hut : u = t
    · subst hut
      rw [Function.update_self, hph]
      exact iff_of_false (fun h => by cases h) (hnot j)
    · rw [Function.update_of_ne hut]
      exact h.owns u j
  · have hmap : (owner j).map s'.tester = (owner j).map s.tester := by
      cases ho : owner j with
      | none => rfl
      | some u =>
        have hut : u ≠ t := fun he => hnot j (he ▸ ho)
        rw [Option.map_some, Option.map_some, htester, Function.update_of_ne hut]
    rw [htable, hmap]
    exact h.ok j
  · rw [htester] at hu
    by_cases hut : u = t
    · subst hut
      rw [Function.update_self] at hu
      exact hread op hu
    · rw [Function.update_of_ne hut] at hu
      exact h.reads u op hu

omit [DecidableEq T] in
/-- No thread works with an entry that is not busy. -/
theorem owner_eq_none (h : Slots crc s key m owner) (hbusy : (s.table i).busy = false) :
    owner i = none := by
  cases ho : owner i with
  | none => rfl
  | some u =>
    have hok := (h.ok i)
    rw [ho] at hok
    rw [hok.1] at hbusy
    cases hbusy

omit [DecidableEq T] in
/-- The entry that a thread works with. -/
theorem works (h : Slots crc s key m owner) (ht : (s.tester t).slot = some i) :
    owner i = some t ∧ (s.table i).busy = true ∧
      (s.tester t).Works crc (s.table i) (key i) ((key i).bind m) := by
  have ho := (h.owns t i).1 ht
  have hok := h.ok i
  rw [ho] at hok
  exact ⟨ho, hok⟩

omit [DecidableEq T] in
theorem settled (h : Slots crc s key m owner) (hbusy : (s.table i).busy = false)
    (hlen : 0 < (s.table i).len) : (s.table i).Settled crc (key i) ((key i).bind m) := by
  have hok := h.ok i
  rw [h.owner_eq_none hbusy] at hok
  exact hok.2.resolve_left fun h => hlen.ne' h.1

omit [DecidableEq T] in
/-- An entry is free if and only if it has no key. -/
theorem key_eq_none_iff (h : Slots crc s key m owner) :
    key i = none ↔ (s.table i).len = 0 ∧ (s.table i).busy = false := by
  have hok := h.ok i
  cases ho : owner i with
  | none =>
    rw [ho] at hok
    rcases hok with ⟨hbusy, ⟨hlen, hkey⟩ | ⟨hkey, hlen, -⟩⟩
    · exact iff_of_true hkey ⟨hlen, hbusy⟩
    · exact iff_of_false (by rw [hkey]; exact fun h => by cases h) fun h => hlen.ne' h.1
  | some u =>
    rw [ho] at hok
    obtain ⟨hbusy, hworks⟩ := hok
    refine iff_of_false ?_ fun h => by rw [hbusy] at h; cases h.2
    cases hph : s.tester u with
    | got _ _ => rw [hph] at hworks; rw [show key i = _ from hworks]; exact fun h => by cases h
    | again _ => rw [hph] at hworks; rw [show key i = _ from hworks]; exact fun h => by cases h
    | writing _ _ => rw [hph] at hworks; rw [hworks.1]; exact fun h => by cases h
    | sent _ _ _ => rw [hph] at hworks; rw [hworks.1.1]; exact fun h => by cases h
    | written _ _ _ _ => rw [hph] at hworks; rw [hworks.1.1]; exact fun h => by cases h
    | picked _ _ => rw [hph] at hworks; rw [hworks.2.1]; exact fun h => by cases h
    | asked _ _ _ _ _ => rw [hph] at hworks; rw [hworks.2.1.1]; exact fun h => by cases h
    | answered _ _ _ _ _ _ => rw [hph] at hworks; rw [hworks.2.1.1]; exact fun h => by cases h
    | _ => rw [hph] at hworks; exact hworks.elim

end Slots

/-! ## Counting -/

/-- An entry with a key. -/
def taken : Option (List UInt8) → ℕ
  | some _ => 1
  | none => 0

/-- A thread that has counted an object, but has no entry for it. -/
def counting : Tester → ℕ
  | .counted => 1
  | _ => 0

/-- A thread that may still count an object. -/
def deciding : Tester → ℕ
  | .write | .new => 1
  | _ => 0

theorem taken_le (k : Option (List UInt8)) : taken k ≤ 1 := by
  cases k
  · exact Nat.zero_le _
  · exact Nat.le_refl _

theorem sum_taken_le (key : Fin 150 → Option (List UInt8)) : ∑ i, taken (key i) ≤ 150 := by
  refine (Finset.sum_le_card_nsmul _ _ 1 fun i _ => taken_le (key i)).trans (Nat.le_of_eq ?_)
  rw [Finset.card_univ, Fintype.card_fin]
  rfl

omit [DecidableEq T] in
/-- The entries that have keys are those in use. -/
theorem Slots.sum_taken (h : Slots crc s key m owner) : ∑ i, taken (key i) =
    (Finset.univ.filter fun i => 0 < (s.table i).len ∨ (s.table i).busy).card := by
  rw [Finset.card_filter]
  refine Finset.sum_congr rfl fun i _ => ?_
  have hi := h.key_eq_none_iff (i := i)
  cases hk : key i with
  | none =>
    obtain ⟨hlen, hbusy⟩ := hi.1 hk
    rw [if_neg]
    · rfl
    · rw [hlen, hbusy]
      exact fun h => by rcases h with h | h <;> cases h
  | some k =>
    rw [if_pos]
    · rfl
    · by_contra hno
      rw [not_or, Nat.pos_iff_ne_zero, not_not, Bool.not_eq_true] at hno
      rw [hi.2 hno] at hk
      cases hk

omit [DecidableEq T] in
theorem sum_counting [Fintype T] (f : T → Tester) : ∑ t, counting (f t) =
    (Finset.univ.filter fun t => f t = .counted).card := by
  rw [Finset.card_filter]
  refine Finset.sum_congr rfl fun t _ => ?_
  cases f t <;> rfl

omit [DecidableEq T] in
theorem sum_deciding_le [Fintype T] (f : T → Tester) :
    ∑ t, deciding (f t) ≤ Fintype.card T := by
  refine (Finset.sum_le_card_nsmul _ _ 1 fun t _ => ?_).trans (Nat.le_of_eq ?_)
  · cases f t <;> simp only [deciding, Nat.zero_le, Nat.le_refl]
  · rw [Finset.card_univ, Nat.nsmul_eq_mul, Nat.mul_one]

/-- `lo` and `hi` of `get_op`. -/
theorem lo_le_hi {maxKeys : ℤ} (hmax : 0 ≤ maxKeys) :
    (maxKeys * 15).tdiv 100 ≤ (maxKeys * 85).tdiv 100 := by
  rw [Int.tdiv_eq_ediv_of_nonneg (by omega), Int.tdiv_eq_ediv_of_nonneg (by omega)]
  omega

/-- The products of `get_op` do not overflow, if the larger one does not. -/
theorem getOp_of_lt (hmax : 0 ≤ maxKeys) (hint : maxKeys * 85 < 2 ^ 31) (nn : ℤ) (n r : ℕ) :
    getOp maxKeys nn n r = some (if nn ≥ (maxKeys * 15).tdiv 100 then
      (if ((r % 100 : ℕ) : ℤ) > nn - (maxKeys * 15).tdiv 100 then .write else .read) else .write) := by
  have hlohi := lo_le_hi hmax
  have hfits : IsInt (maxKeys * 85) ∧ IsInt (maxKeys * 15) := by
    refine ⟨⟨?_, hint⟩, ?_, ?_⟩ <;> omega
  rw [getOp, if_pos hfits]
  dsimp only
  split_ifs with hlo hr hhi
  · rfl
  · rfl
  · -- If there are too few objects for the second bound, there are too few for the first.
    omega
  · omega
  · rfl

/-- If there is room for the threads, then the products do not overflow. -/
theorem mul_lt_of_tdiv_le (hmax : 0 ≤ maxKeys) {n : ℕ} (hroom : (maxKeys * 15).tdiv 100 + n ≤ 52) :
    maxKeys * 85 < 2 ^ 31 := by
  rw [Int.tdiv_eq_ediv_of_nonneg (by omega)] at hroom
  omega

/-- `get_op` never chooses to delete, and it only chooses to write while there are few objects. -/
theorem getOp_spec (hmax : 0 ≤ maxKeys) (hint : maxKeys * 85 < 2 ^ 31) (nn : ℤ) (n r : ℕ) :
    getOp maxKeys nn n r = some .read ∨
      getOp maxKeys nn n r = some .write ∧ nn ≤ (maxKeys * 15).tdiv 100 + 98 := by
  rw [getOp_of_lt hmax hint]
  split_ifs with hlo hr
  · exact .inr ⟨rfl, by omega⟩
  · exact .inl rfl
  · exact .inr ⟨rfl, by omega⟩

/-! ## Steps -/

/-- What holds in every state, if these names have been chosen: the keys of the entries have values on
    the server, and `n_objects` counts them, and those that are about to get an entry. -/
structure Tested [Fintype T] (maxKeys : ℤ) (crc : List UInt8 → ℤ) (s : Load T)
    (drawn : List (List UInt8)) (key : Fin 150 → Option (List UInt8))
    (m : List UInt8 → Option (List UInt8)) (owner : Fin 150 → Option T) : Prop where
  slots : Slots crc s key m owner
  implements : s.server.db.Implements m
  values : ∀ k, (m k).isSome → k ∈ drawn
  keys : ∀ i name, key i = some name → name ∈ drawn
  names : ∀ name ∈ drawn, 0 ∉ name ∧ name.length ≤ 30
  drawn : drawn.length = ∑ i, taken (key i)
  count : s.nObjects = ((∑ i, taken (key i) + ∑ t, counting (s.tester t) : ℕ) : ℤ)
  bound : ∑ t, deciding (s.tester t) = 0 ∧ s.nObjects = 0 ∨
    s.nObjects + (∑ t, deciding (s.tester t) : ℕ) ≤
      (maxKeys * 15).tdiv 100 + 98 + Fintype.card T
  clean : s.printed = [] ∧ s.faults = []

namespace Tested

variable [Fintype T] {drawn : List (List UInt8)} (h : Tested maxKeys crc s drawn key m owner)
include h

omit [DecidableEq T] in
/-- There is room for another key on the server. -/
theorem size_lt : size m < 200 := by
  have hsub : {k | (m k).isSome} ⊆ (drawn.toFinset : Set (List UInt8)) := fun k hk =>
    Finset.mem_coe.2 (List.mem_toFinset.2 (h.values k hk))
  have hle := Set.ncard_le_ncard hsub drawn.toFinset.finite_toSet
  rw [Set.ncard_coe_finset] at hle
  have hcard := drawn.toFinset_card_le
  have hkeys := sum_taken_le key
  rw [← h.drawn] at hkeys
  rw [size]
  omega

/-- A thread goes on, but not with counting an object. -/
theorem goto (hslots : Slots crc s' key m' owner')
    (htester : s'.tester = Function.update s.tester t ph)
    (hcounting : counting ph = counting (s.tester t))
    (hdeciding : deciding ph ≤ deciding (s.tester t)) (hn : s'.nObjects = s.nObjects)
    (himpl : s'.server.db.Implements m') (hvalues : ∀ k, (m' k).isSome → k ∈ drawn)
    (hclean : s'.printed = s.printed ∧ s'.faults = s.faults) :
    Tested maxKeys crc s' drawn key m' owner' := by
  have hc := Interleave.sum_update counting s.tester t ph
  have hd := Interleave.sum_update deciding s.tester t ph
  refine ⟨hslots, himpl, hvalues, h.keys, h.names, h.drawn, ?_, ?_, ?_⟩
  · rw [hn, htester, h.count]
    omega
  · rw [hn, htester]
    exact h.bound.imp (fun hb => ⟨by omega, hb.2⟩) fun hb => by omega
  · rw [hclean.1, hclean.2]
    exact h.clean

/-- A thread chooses what to do. -/
theorem getOp (hmax : 0 ≤ maxKeys) (hint : maxKeys * 85 < 2 ^ 31) (ht : s.tester t = .idle)
    (n r : ℕ) : Tested maxKeys crc (match Db.getOp maxKeys s.nObjects n r with
      | some .write => s.goto t .write
      | some op => s.goto t (.pick op)
      | none => s.fault .overflow) drawn key m owner := by
  have hslot : (s.tester t).slot = none := by rw [ht]; rfl
  rcases getOp_spec hmax hint s.nObjects n r with hop | ⟨hop, hle⟩
  · rw [hop]
    refine h.goto (h.slots.stay rfl rfl hslot rfl fun op h => (Tester.pick.inj h).symm) rfl ?_ ?_ rfl
      h.implements h.values ⟨rfl, rfl⟩
    · rw [ht]; rfl
    · exact Nat.zero_le _
  · rw [hop]
    have hslots : Slots crc (s.goto t .write) key m owner :=
      h.slots.stay rfl rfl hslot rfl fun op h => by cases h
    have hc := Interleave.sum_update counting s.tester t .write
    rw [ht] at hc
    have hd := sum_deciding_le (Function.update s.tester t .write)
    refine ⟨hslots, h.implements, h.values, h.keys, h.names, h.drawn, ?_, .inr ?_, h.clean⟩
    · have hcount := h.count
      change _ + 0 = _ + 0 at hc
      change s.nObjects = ((_ + ∑ u, counting (Function.update s.tester t .write u) : ℕ) : ℤ)
      omega
    · change s.nObjects + ((∑ u, deciding (Function.update s.tester t .write u) : ℕ) : ℤ) ≤ _
      omega

/-- A thread counts a new object. -/
theorem countObject (ht : s.tester t = .new) :
    Tested maxKeys crc ({ s with nObjects := s.nObjects + 1 }.goto t .counted) drawn key m owner := by
  have hc := Interleave.sum_update counting s.tester t .counted
  have hd := Interleave.sum_update deciding s.tester t .counted
  rw [ht] at hc hd
  change _ + 0 = _ + 1 at hc
  change _ + 1 = _ + 0 at hd
  have hslots : Slots crc ({ s with nObjects := s.nObjects + 1 }.goto t .counted) key m owner :=
    h.slots.stay rfl rfl (by rw [ht]; rfl) rfl fun op h => by cases h
  refine ⟨hslots, h.implements, h.values, h.keys, h.names, h.drawn, ?_, .inr ?_, h.clean⟩
  · change s.nObjects + 1 = ((∑ i, taken (key i) +
      ∑ u, counting (Function.update s.tester t .counted u) : ℕ) : ℤ)
    have hcount := h.count
    omega
  · change s.nObjects + 1 + ((∑ u, deciding (Function.update s.tester t .counted u) : ℕ) : ℤ) ≤ _
    rcases h.bound with hb | hb <;> omega

/-- A thread gets an entry for a new key, as the table has room for it. -/
theorem getFree (hroom : (maxKeys * 15).tdiv 100 + Fintype.card T ≤ 52) (ht : s.tester t = .counted)
    {name : List UInt8} (hname : 0 ∉ name ∧ name.length ≤ 30) (hnew : name ∉ drawn) :
    ∃ num, Db.getFree s.table = some num ∧
      Tested maxKeys crc ((s.setBusy num true).goto t (.got num name)) (drawn ++ [name])
        (Function.update key num (some name)) m (Function.update owner num (some t)) := by
  have hc := fun ph => Interleave.sum_update counting s.tester t ph
  have hd := fun ph => Interleave.sum_update deciding s.tester t ph
  rw [ht] at hc hd
  cases hfree : Db.getFree s.table with
  | none =>
    -- All entries have keys, and the object of this thread has been counted, too.
    have hall : ∀ i, taken (key i) = 1 := by
      intro i
      have hi := List.find?_eq_none.1 hfree i (List.mem_finRange i)
      have hkey : key i ≠ none := by
        intro hk
        obtain ⟨hlen, hbusy⟩ := h.slots.key_eq_none_iff.1 hk
        rw [hlen, hbusy] at hi
        exact hi rfl
      obtain ⟨k, hk⟩ := Option.ne_none_iff_exists'.1 hkey
      rw [hk]
      rfl
    have hsum : ∑ i, taken (key i) = 150 := by
      rw [Finset.sum_congr rfl fun i _ => hall i, Finset.sum_const, Finset.card_univ,
        Fintype.card_fin]
      rfl
    have hcount := h.count
    have hc := hc .idle
    change _ + 1 = _ + 0 at hc
    rw [hsum] at hcount
    rcases h.bound with hb | hb <;> omega
  | some num =>
    have hnum := List.find?_some hfree
    rw [Bool.and_eq_true, beq_iff_eq, Bool.not_eq_true'] at hnum
    have hkey := h.slots.key_eq_none_iff.2 hnum
    have howner := h.slots.owner_eq_none hnum.2
    have hslots : Slots crc ((s.setBusy num true).goto t (.got num name))
        (Function.update key num (some name)) m (Function.update owner num (some t)) := by
      refine h.slots.move (i := num) rfl (fun j hj => Function.update_of_ne hj ..)
        (fun j hj => Function.update_of_ne hj ..) (fun _ _ => rfl) (fun j k hj hk hk' => ?_)
        (.inr ⟨howner, by rw [ht]; rfl⟩) rfl (fun j hj => (Option.some.inj hj).symm)
        (fun op h => by cases h) ?_
      · rw [Function.update_self] at hk'
        obtain rfl := Option.some.inj hk'
        exact hnew (h.keys j _ hk)
      · rw [Function.update_self]
        refine ⟨?_, rfl⟩
        change (Function.update s.table num _ num).busy = true
        rw [Function.update_self]
    have htaken := Interleave.sum_update taken key num (some name)
    rw [hkey] at htaken
    change _ + 0 = _ + 1 at htaken
    have hc := hc (.got num name)
    have hd := hd (.got num name)
    change _ + 1 = _ + 0 at hc
    change _ + 0 = _ + 0 at hd
    refine ⟨num, rfl, hslots, h.implements, fun k hk => List.mem_append_left _ (h.values k hk),
      fun i k hk => ?_, ?_, ?_, ?_, ?_, h.clean⟩
    · by_cases hi : i = num
      · subst hi
        rw [Function.update_self] at hk
        obtain rfl := Option.some.inj hk
        exact List.mem_append_right _ List.mem_cons_self
      · rw [Function.update_of_ne hi] at hk
        exact List.mem_append_left _ (h.keys i k hk)
    · intro k hk
      rcases List.mem_append.1 hk with hk | hk
      · exact h.names k hk
      · rwa [List.mem_singleton.1 hk]
    · rw [List.length_append, List.length_singleton, h.drawn]
      omega
    · have hcount := h.count
      change s.nObjects = ((_ + ∑ u, counting (Function.update s.tester t (.got num name) u) : ℕ) : ℤ)
      omega
    · change ∑ u, deciding (Function.update s.tester t (.got num name) u) = 0 ∧ s.nObjects = 0 ∨
        s.nObjects + ((∑ u, deciding (Function.update s.tester t (.got num name) u) : ℕ) : ℤ) ≤ _
      exact h.bound.imp (fun hb => ⟨by omega, hb.2⟩) fun hb => by omega

/-- A thread gets an entry that `pick_random` has found. -/
theorem take {num : Fin 150} {nums : List (Fin 150)} (hnum : pickRandom s.table nums = some num)
    (hslot : (s.tester t).slot = none) (hph : ph.slot = some num)
    (hcounting : counting ph = counting (s.tester t))
    (hdeciding : deciding ph ≤ deciding (s.tester t))
    (hworks : ∀ e : Entry, e.Settled crc (key num) ((key num).bind m) →
      ph.Works crc e (key num) ((key num).bind m)) :
    Tested maxKeys crc ((s.setBusy num true).goto t ph) drawn key m
      (Function.update owner num (some t)) := by
  have hfree := List.find?_some hnum
  rw [Bool.and_eq_true, decide_eq_true_eq, Bool.not_eq_true'] at hfree
  obtain ⟨hlen, hbusy⟩ := hfree
  have hsettled := h.slots.settled hbusy hlen
  refine h.goto (h.slots.move (i := num) rfl (fun j hj => Function.update_of_ne hj ..)
    (fun _ _ => rfl) (fun _ _ => rfl) (fun j k hj hk hk' => hj (h.slots.inj j num k hk hk'))
    (.inr ⟨h.slots.owner_eq_none hbusy, hslot⟩) (by rw [hph]; rfl)
    (fun j hj => Option.some.inj (hj.symm.trans hph)) (fun op he => ?_) ?_) rfl hcounting hdeciding rfl
    h.implements h.values ⟨rfl, rfl⟩
  · rw [he] at hph
    cases hph
  · rw [hph]
    change Entry.Ok crc (Function.update s.table num _ num) _ _ (some ph)
    rw [Function.update_self]
    exact ⟨rfl, hworks _ hsettled⟩

/-- A thread goes on with its entry. -/
theorem goOn (num : Fin 150) (hslot : (s.tester t).slot = some num) (hph : ph.slot = some num)
    (htester : s'.tester = Function.update s.tester t ph)
    (htable : ∀ j, j ≠ num → s'.table j = s.table j) (hbusy : (s'.table num).busy = true)
    (hm : ∀ j, j ≠ num → (key j).bind m' = (key j).bind m)
    (hworks : ph.Works crc (s'.table num) (key num) ((key num).bind m'))
    (hcounting : counting ph = counting (s.tester t))
    (hdeciding : deciding ph ≤ deciding (s.tester t)) (hn : s'.nObjects = s.nObjects)
    (himpl : s'.server.db.Implements m') (hvalues : ∀ k, (m' k).isSome → k ∈ drawn)
    (hclean : s'.printed = s.printed ∧ s'.faults = s.faults) :
    Tested maxKeys crc s' drawn key m' owner := by
  have howner := (h.slots.works hslot).1
  refine h.goto (h.slots.move htester htable (fun _ _ => rfl) hm
    (fun j k hj hk hk' => hj (h.slots.inj j num k hk hk')) (.inl howner) ?_
    (fun j hj => Option.some.inj (hj.symm.trans hph)) (fun op he => ?_) ?_) htester hcounting hdeciding
    hn himpl hvalues hclean
  · rw [hph, Option.map_some, ← howner, Function.update_eq_self]
  · rw [he] at hph
    cases hph
  · rw [hph]
    exact ⟨hbusy, hworks⟩

/-- A thread is done with its entry. -/
theorem release (num : Fin 150) (hslot : (s.tester t).slot = some num)
    (htester : s'.tester = Function.update s.tester t .idle)
    (htable : ∀ j, j ≠ num → s'.table j = s.table j) (hbusy : (s'.table num).busy = false)
    (hsettled : (s'.table num).Settled crc (key num) ((key num).bind m))
    (hcounting : counting (s.tester t) = 0) (hn : s'.nObjects = s.nObjects)
    (hserver : s'.server = s.server) (hclean : s'.printed = s.printed ∧ s'.faults = s.faults) :
    Tested maxKeys crc s' drawn key m (Function.update owner num none) :=
  h.goto (h.slots.move htester htable (fun _ _ => rfl) (fun _ _ => rfl)
    (fun j k hj hk hk' => hj (h.slots.inj j num k hk hk')) (.inl (h.slots.works hslot).1) rfl
    (fun j hj => by cases hj) (fun op he => by cases he) ⟨hbusy, .inr hsettled⟩) htester
    hcounting.symm (Nat.zero_le _) hn (hserver ▸ h.implements) h.values hclean

end Tested

/-! ## Requests -/

theorem loadRequest_asks {name : List UInt8} (hname : 0 ∉ name ∧ name.length ≤ 30) :
    (loadRequest .read name 0).Asks [] (.read name) ∧ ∀ data : List UInt8,
      1 ≤ data.length ∧ data.length ≤ 4096 →
        (loadRequest .write name data.length).Asks data (.write name data) := by
  refine ⟨⟨rfl, ⟨cString_setName _ hname, hname.2⟩, rfl⟩, fun data hdata => ?_⟩
  refine ⟨rfl, ⟨cString_setName _ hname, hname.2⟩, hdata, ?_, rfl⟩
  have hlength : (decimal data.length).length ≤ 7 := length_decimal_le (by decide) (by omega)
  exact Request.cString_setLen _ hlength nul_notMem_decimal

omit [DecidableEq T] in
/-- What comes of a request that asks a query. -/
theorem handle_asks {rq : Request} {data : List UInt8} {q : Query (List UInt8) (List UInt8)}
    (himpl : s.server.db.Implements m) (hasks : rq.Asks data q) (vars : Locals) :
    Sends (s.handle vars rq data).sent (BoundedMap.step 200 m q).1 ∧
      (s.handle vars rq data).server.db.Implements (BoundedMap.step 200 m q).2 := by
  obtain ⟨sent, db, stats', hw, hsends, hdb⟩ := handleWork_ask himpl
    { query := q, request := rq, data, asks := hasks, vars } s.server.stats
  change s.handle vars rq data = _ at hw
  rw [hw]
  exact ⟨hsends, hdb⟩

/-- Letters are no NULs. -/
theorem nul_notMem_of_randstr {name : List UInt8} (h : Randstr name) : 0 ∉ name := fun hmem => by
  have hle := (h 0 hmem).1
  exact absurd hle (by decide)

namespace Tested

variable [Fintype T] {drawn : List (List UInt8)} (h : Tested maxKeys crc s drawn key m owner)
include h

/-- The server handles a write, and the key has the data as its value. -/
theorem handleWrite {num : Fin 150} {name data : List UInt8} (ht : s.tester t = .sent num name data)
    (vars : Locals) :
    let hd := s.handle vars (loadRequest .write name data.length) data
    Tested maxKeys crc ({ s with server := hd.server }.goto t (.written num name data hd.sent)) drawn
      key (Function.update m name (some data)) owner := by
  intro hd
  obtain ⟨-, hbusy, hworks⟩ := h.slots.works (by rw [ht]; rfl)
  rw [ht] at hworks
  obtain ⟨⟨hkey, hname⟩, hlow, hhigh⟩ := hworks
  have hdrawn := h.keys num name hkey
  obtain ⟨hsends, himpl⟩ := handle_asks h.implements
    ((loadRequest_asks (h.names name hdrawn)).2 data (by omega)) vars
  rw [BoundedMap.step, if_pos (.inr h.size_lt)] at hsends himpl
  have hvalue : (key num).bind (Function.update m name (some data)) = some data := by
    rw [hkey, Option.bind_some, Function.update_self]
  refine h.goOn num (by rw [ht]; rfl) rfl rfl (fun _ _ => rfl) hbusy (fun j hj => ?_)
    ⟨⟨hkey, hname⟩, by omega, hvalue, hsends⟩ (by rw [ht]; rfl) (Nat.zero_le _) rfl himpl
    (fun k hk => ?_) ⟨rfl, rfl⟩
  · -- The keys of other entries are other keys.
    cases hk : key j with
    | none => rfl
    | some k =>
      have hne : k ≠ name := fun he => hj (h.slots.inj j num k hk (by rw [hkey, he]))
      rw [Option.bind_some, Option.bind_some, Function.update_of_ne hne]
  · by_cases hkn : k = name
    · rwa [hkn]
    · rw [Function.update_of_ne hkn] at hk
      exact h.values k hk

/-- A thread records what it has written. -/
theorem finishWrite {num : Fin 150} {name data reply : List UInt8}
    (ht : s.tester t = .written num name data reply) {splits : List (Option ℕ)}
    (hsplits : Delivers splits) (error : List UInt8) :
    Tested maxKeys crc (s.finishWrite t crc error num name data ⟨reply, splits⟩) drawn key m
      (Function.update owner num none) := by
  obtain ⟨-, -, hworks⟩ := h.slots.works (by rw [ht]; rfl)
  rw [ht] at hworks
  obtain ⟨⟨hkey, hname⟩, hlen, hvalue, r, rfl, -⟩ := hworks
  rw [Load.finishWrite, hsplits.read_header]
  simp only [lt_irrefl, if_false, hname, if_true]
  refine h.release num (by rw [ht]; rfl) rfl (fun j hj => Function.update_of_ne hj ..) ?_ ?_
    (by rw [ht]; rfl) rfl rfl ⟨rfl, rfl⟩
  · change (Function.update s.table num _ num).busy = false
    rw [Function.update_self]
  · change (Function.update s.table num _ num).Settled _ _ _
    rw [Function.update_self]
    exact ⟨hkey, hlen, data, hvalue, rfl, rfl⟩

/-- The server handles a read. -/
theorem handleRead {op : Op} {num : Fin 150} {name : List UInt8} {savedCrc : ℤ} {savedLen : ℕ}
    (ht : s.tester t = .asked op num name savedCrc savedLen) (vars : Locals) :
    let hd := s.handle vars (loadRequest op name 0) []
    Tested maxKeys crc
      ({ s with server := hd.server }.goto t (.answered op num name savedCrc savedLen hd.sent)) drawn
      key m owner := by
  intro hd
  obtain ⟨-, hbusy, hworks⟩ := h.slots.works (by rw [ht]; rfl)
  rw [ht] at hworks
  obtain ⟨rfl, hsettled, rfl, hcrc, hlen⟩ := hworks
  obtain ⟨hkey, -, d, hvalue, -⟩ := id hsettled
  have hm : m (s.table num).name = some d := by rwa [hkey] at hvalue
  obtain ⟨hsends, himpl⟩ := handle_asks h.implements
    (loadRequest_asks (h.names _ (h.keys num _ hkey))).1 vars
  rw [BoundedMap.step, hm] at hsends himpl
  exact h.goOn num (by rw [ht]; rfl) rfl rfl (fun _ _ => rfl) hbusy (fun _ _ => rfl)
    ⟨rfl, hsettled, hcrc, hlen, d, hvalue, hsends⟩ (by rw [ht]; rfl) (Nat.zero_le _) rfl himpl h.values
    ⟨rfl, rfl⟩

/-- A thread finds the length and the checksum that it expects. -/
theorem finishRead {num : Fin 150} {name reply : List UInt8} {savedCrc : ℤ} {savedLen : ℕ}
    (ht : s.tester t = .answered .read num name savedCrc savedLen reply)
    {splits : List (Option ℕ)} (hsplits : Delivers splits) (error above buf : List UInt8) :
    Tested maxKeys crc
      (s.finishRead t crc error above buf num name savedCrc savedLen ⟨reply, splits⟩) drawn key m
      (Function.update owner num none) := by
  obtain ⟨-, -, hworks⟩ := h.slots.works (by rw [ht]; rfl)
  rw [ht] at hworks
  obtain ⟨-, hsettled, hcrc, hlen, d, hvalue, r, rfl, -, -, hrlen⟩ := hworks
  obtain ⟨hkey, -, d', hvalue', hd'len, hd'crc⟩ := id hsettled
  obtain rfl := Option.some.inj (hvalue.symm.trans hvalue')
  rw [hkey] at hvalue
  have hsize := (h.implements.sized _ d hvalue).2
  have hnone : none ∉ splits.tail := fun hmem => hsplits.noError (List.mem_of_mem_tail hmem)
  rw [Load.finishRead, hsplits.read_header]
  simp only [Request.fill_bytes, lt_irrefl, if_false, atoi_header hsize hrlen above,
    Int.toNat_natCast, readLoop_eq hnone (le_refl d.length), List.take_length, List.take_left]
  refine h.release num (by rw [ht]; rfl) rfl (fun j hj => Function.update_of_ne hj ..) ?_ ?_
    (by rw [ht]; rfl) rfl rfl ⟨?_, rfl⟩
  · change (Function.update s.table num _ num).busy = false
    rw [Function.update_self]
  · change (Function.update s.table num _ num).Settled _ _ _
    rw [Function.update_self]
    exact hsettled
  · change ((s.printed ++ []) ++ complaint name "len" d.length savedLen) ++
      complaint name "cksum" (crc d) savedCrc = s.printed
    rw [complaint, complaint, if_neg (by rw [hd'len, hlen]; exact fun h => h rfl),
      if_neg (by rw [hd'crc, hcrc]; exact fun h => h rfl), List.append_nil, List.append_nil,
      List.append_nil]

/-- Every step keeps what holds, as long as `randstr` chooses new names. -/
theorem step (hmax : 0 ≤ maxKeys) (hroom : (maxKeys * 15).tdiv 100 + Fintype.card T ≤ 52)
    {name : Option (List UInt8)} (hstep : Step maxKeys crc s t name s')
    (hnew : ∀ k, name = some k → k ∉ drawn) :
    ∃ key' m' owner', Tested maxKeys crc s' (drawn ++ name.toList) key' m' owner' := by
  cases hstep with
  | getOp n r ht =>
    rw [Option.toList_none, List.append_nil]
    exact ⟨key, m, owner, h.getOp hmax (mul_lt_of_tdiv_le hmax hroom) ht n r⟩
  | fresh ht =>
    rw [Option.toList_none, List.append_nil]
    exact ⟨key, m, owner, h.goto (h.slots.stay rfl rfl (by rw [ht]; rfl) rfl fun op h => by cases h)
      rfl (by rw [ht]; rfl) (by rw [ht]; exact Nat.le_refl _) rfl h.implements h.values ⟨rfl, rfl⟩⟩
  | rewrite nums ht _ =>
    rw [Option.toList_none, List.append_nil]
    cases hnum : pickRandom s.table nums with
    | none =>
      exact ⟨key, m, owner, h.goto
        (h.slots.stay rfl rfl (by rw [ht]; rfl) rfl fun op h => by cases h)
        rfl (by rw [ht]; rfl) (by rw [ht]; exact Nat.le_refl _) rfl h.implements h.values ⟨rfl, rfl⟩⟩
    | some num =>
      refine ⟨key, m, _, h.take hnum (by rw [ht]; rfl) rfl (by rw [ht]; rfl) (Nat.zero_le _)
        fun e he => he.1⟩
  | count ht =>
    rw [Option.toList_none, List.append_nil]
    exact ⟨key, m, owner, h.countObject ht⟩
  | @getFree name ht hlength hrandstr =>
    obtain ⟨num, hnum, htested⟩ := h.getFree hroom ht
      ⟨nul_notMem_of_randstr hrandstr, by omega⟩ (hnew name rfl)
    rw [hnum]
    exact ⟨_, _, _, htested⟩
  | @strcpy num name ht =>
    rw [Option.toList_none, List.append_nil]
    obtain ⟨-, hbusy, hworks⟩ := h.slots.works (by rw [ht]; rfl)
    rw [ht] at hworks
    rw [if_pos hbusy]
    refine ⟨key, m, owner, h.goOn num (by rw [ht]; rfl) rfl rfl
      (fun j hj => Function.update_of_ne hj ..) ?_ (fun _ _ => rfl) ⟨hworks, ?_⟩ (by rw [ht]; rfl)
      (Nat.zero_le _) rfl h.implements h.values ⟨rfl, rfl⟩⟩
    · change (Function.update s.table num _ num).busy = true
      rw [Function.update_self]
      exact hbusy
    · change (Function.update s.table num _ num).name = name
      rw [Function.update_self]
  | @copyName num ht =>
    rw [Option.toList_none, List.append_nil]
    obtain ⟨-, hbusy, hworks⟩ := h.slots.works (by rw [ht]; rfl)
    rw [ht] at hworks
    rw [if_pos hbusy]
    exact ⟨key, m, owner, h.goOn num (by rw [ht]; rfl) rfl rfl (fun _ _ => rfl) hbusy
      (fun _ _ => rfl) ⟨hworks, rfl⟩ (by rw [ht]; rfl) (Nat.zero_le _) rfl h.implements h.values
      ⟨rfl, rfl⟩⟩
  | @send num name data ht hlow hhigh _ =>
    rw [Option.toList_none, List.append_nil]
    obtain ⟨-, hbusy, hworks⟩ := h.slots.works (by rw [ht]; rfl)
    rw [ht] at hworks
    exact ⟨key, m, owner, h.goOn num (by rw [ht]; rfl) rfl rfl (fun _ _ => rfl) hbusy
      (fun _ _ => rfl) ⟨hworks, hlow, hhigh⟩ (by rw [ht]; rfl) (Nat.zero_le _) rfl h.implements
      h.values ⟨rfl, rfl⟩⟩
  | handleWrite vars ht =>
    rw [Option.toList_none, List.append_nil]
    exact ⟨key, _, owner, h.handleWrite ht vars⟩
  | finishWrite ht hsplits =>
    rw [Option.toList_none, List.append_nil]
    exact ⟨key, m, _, h.finishWrite ht hsplits _⟩
  | @pick op nums ht _ =>
    rw [Option.toList_none, List.append_nil]
    obtain rfl := h.slots.reads t op ht
    cases hnum : pickRandom s.table nums with
    | none => exact ⟨key, m, owner, h⟩
    | some num =>
      exact ⟨key, m, _, h.take hnum (by rw [ht]; rfl) rfl (by rw [ht]; rfl) (Nat.zero_le _)
        fun e he => ⟨rfl, he⟩⟩
  | @copy op num ht =>
    rw [Option.toList_none, List.append_nil]
    obtain ⟨-, hbusy, hworks⟩ := h.slots.works (by rw [ht]; rfl)
    rw [ht] at hworks
    exact ⟨key, m, owner, h.goOn num (by rw [ht]; rfl) rfl rfl (fun _ _ => rfl) hbusy
      (fun _ _ => rfl) ⟨hworks.1, hworks.2, rfl, rfl, rfl⟩ (by rw [ht]; rfl) (Nat.zero_le _) rfl
      h.implements h.values ⟨rfl, rfl⟩⟩
  | handleRead vars ht =>
    rw [Option.toList_none, List.append_nil]
    exact ⟨key, m, owner, h.handleRead ht vars⟩
  | finishRead ht hsplits =>
    rw [Option.toList_none, List.append_nil]
    exact ⟨key, m, _, h.finishRead ht hsplits _ _ _⟩
  | finishDelete ht _ =>
    -- No thread deletes.
    obtain ⟨-, -, hworks⟩ := h.slots.works (by rw [ht]; rfl)
    rw [ht] at hworks
    cases hworks.1

end Tested

/-! ## Runs -/

section Runs

variable [Fintype T] {names : List (Option (List UInt8))}

omit [DecidableEq T] in
theorem tested_init : Tested maxKeys crc (init : Load T) [] (fun _ => none) (fun _ => none)
    (fun _ => none) where
  slots :=
    { owns := fun _ _ => iff_of_false (fun h => by cases h) fun h => by cases h
      ok := fun _ => ⟨rfl, .inl ⟨rfl, rfl⟩⟩
      inj := fun _ _ _ h => by cases h
      reads := fun _ _ h => by cases h }
  implements := State.init_implements
  values _ h := by cases h
  keys _ _ h := by cases h
  names _ h := absurd h List.not_mem_nil
  drawn := (Finset.sum_eq_zero fun _ _ => rfl).symm
  count := by
    have h₁ : ∑ _i : Fin 150, taken none = 0 := Finset.sum_eq_zero fun _ _ => rfl
    have h₂ : ∑ _t : T, counting .idle = 0 := Finset.sum_eq_zero fun _ _ => rfl
    change (0 : ℤ) = ((∑ _i : Fin 150, taken none + ∑ _t : T, counting .idle : ℕ) : ℤ)
    rw [h₁, h₂]
    rfl
  bound := .inl ⟨Finset.sum_eq_zero fun _ _ => rfl, rfl⟩
  clean := ⟨rfl, rfl⟩

theorem tested_of_trace (hmax : 0 ≤ maxKeys)
    (hroom : (maxKeys * 15).tdiv 100 + Fintype.card T ≤ 52)
    (h : Traces.Trace (Steps maxKeys crc) init names s)
    (hnames : (names.flatMap Option.toList).Nodup) :
    ∃ key m owner, Tested maxKeys crc s (names.flatMap Option.toList) key m owner := by
  induction h with
  | nil => exact ⟨_, _, _, tested_init⟩
  | @snoc names name _ _ _ hstep ih =>
    obtain ⟨t, hstep⟩ := hstep
    rw [List.flatMap_append, List.flatMap_singleton] at hnames ⊢
    obtain ⟨key, m, owner, hs⟩ := ih hnames.of_append_left
    refine hs.step hmax hroom hstep fun k hk hmem => ?_
    rw [hk] at hnames
    exact List.disjoint_of_nodup_append hnames hmem List.mem_cons_self

end Runs

end Load

/-- In every run of the load test against the server, with any number of threads that the table has
    room for (22 of them if `max` is 200), no thread uses the memory after the table, no assertion fails,
    and nothing is printed, if `randstr` chooses no name twice. No two threads work with the same
    entry, and none ever deletes; `n_objects` is the number of entries in use and of threads that are
    about to get one; and the server has the data of all entries that no thread works with, with the
    length and the checksum that the table says. -/
theorem loadTest_clean {T : Type*} [DecidableEq T] [Fintype T] {maxKeys : ℤ}
    {crc : List UInt8 → ℤ} (hmax : 0 ≤ maxKeys)
    (hroom : (maxKeys * 15).tdiv 100 + Fintype.card T ≤ 52) {names : List (Option (List UInt8))}
    {s : Load T} (h : Traces.Trace (Load.Steps maxKeys crc) .init names s)
    (hnames : (names.flatMap Option.toList).Nodup) :
    (s.faults = [] ∧ s.printed = []) ∧
      (∀ t t' i, (s.tester t).slot = some i → (s.tester t').slot = some i → t = t') ∧
      (∀ t, s.tester t ≠ .pick .delete) ∧
      s.nObjects = (((Finset.univ.filter fun i => 0 < (s.table i).len ∨ (s.table i).busy).card +
        (Finset.univ.filter fun t => s.tester t = Tester.counted).card : ℕ) : ℤ) ∧
      ∃ m, s.server.db.Implements m ∧ ∀ i, (s.table i).busy = false → 0 < (s.table i).len →
        ∃ d, m (s.table i).name = some d ∧ d.length = (s.table i).len ∧ crc d = (s.table i).crc := by
  obtain ⟨key, m, owner, hs⟩ := Load.tested_of_trace hmax hroom h hnames
  refine ⟨hs.clean.symm, fun t t' i ht ht' => ?_, fun t ht => ?_, ?_, m, hs.implements,
    fun i hbusy hlen => ?_⟩
  · exact Option.some.inj (((hs.slots.owns t i).1 ht).symm.trans ((hs.slots.owns t' i).1 ht'))
  · cases hs.slots.reads t _ ht
  · rw [hs.count, hs.slots.sum_taken, Load.sum_counting]
  · obtain ⟨hkey, -, d, hvalue, hd⟩ := hs.slots.settled hbusy hlen
    rw [hkey] at hvalue
    exact ⟨d, hvalue, hd⟩

/-- Two threads, one of which has chosen to write a new object. -/
theorem loadTest_clean_new : ∃ s : Load Bool, s.tester true = .new ∧ s.faults = [] := by
  have h₁ : Load.Steps (T := Bool) 200 (fun _ => 0) .init none _ := ⟨true, .getOp 0 0 rfl⟩
  have h₂ := (Traces.Trace.single h₁).snoc ⟨true, .fresh (t := true) rfl⟩
  have hroom : ((200 : ℤ) * 15).tdiv 100 + Fintype.card Bool ≤ 52 := by decide
  exact ⟨_, rfl, (loadTest_clean (by decide) hroom h₂ List.nodup_nil).1.1⟩

end Cs5600.Db
