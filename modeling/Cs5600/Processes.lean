import Cs5600.Switch
import Cs5600.Traces
import Cs5600.Ugrep
import Mathlib.Algebra.Notation.Indicator

/-!
# Two processes

`part-3.c`. `main` sets up the stacks of two processes and switches to the first one. They
call functions of the vector: to print, to yield to the other one, and to go back to
`main`, which says that it is done, and exits.

Between calls, a process sees the registers that functions keep, its stack from the
stack pointer up, and its data (`View`), and what it calls next is a function of these.
`Coroutines` are two processes that have nothing to do with each other: each one goes from
view to view. The functions run on the stack of the process that calls them: a switch leaves
a frame there, and `do_print` has an array for the text. As long as the processes keep room for
this, the machine with its stacks and context switches does what the coroutines do
(`machine_traces`).
-/

namespace Cs5600.Processes

open Console Loads Switch Traces Ugrep WordStack

/-! ## Processes -/

/-- The registers that a function keeps for its caller. -/
def calleeSaved : List Reg := [.rbp, .rbx, .r12, .r13, .r14, .r15]

/-- What a process can rely on when a call returns: where it is, its stack pointer, the registers
    that functions keep, and its memory. -/
@[ext]
structure View where
  rip : Word
  sp : Word
  regs : Reg → Word
  mem : Word → Word

/-- The functions of the vector. -/
inductive Service
  | print (buf : Ptr)
  | yield12
  | yield21
  | uexit

/-- A call, and what the process sees when it has returned. -/
structure Call where
  service : Service
  view : View

/-- What a process calls next. -/
abbrev Program := View → Call

/-- What `main` finds before it sets up the stacks: where the stacks and the data of the processes
    are, their entry points, and the addresses that calls of `switch_to` return to. -/
structure Setup extends Layout Process where
  data : Process → Set Word
  data_disjoint : ∀ {c c' a}, a ∈ data c → a ∈ data c' → c = c'
  data_notMem_stack : ∀ {c a}, a ∈ data c → ∀ c', a ∉ stack c'
  slot_notMem_data : ∀ c c', slot c ∉ data c'
  /-- `stack1 + STACK_SIZE` and `stack2 + STACK_SIZE`. -/
  stackEnd : Process → Word
  entry : Process → Word
  /-- In `do_yield12` and `do_yield21`. -/
  yieldRet : Process → Word
  /-- In `do_uexit`. -/
  exitRet : Word
  /-- In `main`. -/
  mainRet : Word
  machine : Machine
  /-- The words that `do_print` and the functions that it calls have on the stack, besides the array
      `temp`. -/
  printFrame : ℕ
  room : ∀ c, c ≠ .main → Room (stack c) (stackTop (stackEnd c)) 13
  room_main : Room (stack .main) machine.sp (max 10 (printFrame + 1))
  sp_main : 8 * max 10 (printFrame + 1) ≤ machine.sp.toNat
  entry_ne : ∀ c, entry c ≠ yieldRet c

/-- The machine with its contexts, what has been printed, and the code of `exit`. -/
structure State extends System Process where
  tty : Tty
  exit : Option ℤ

section

variable (P : Setup)

/-- The memory that only a process uses. -/
def Setup.own (c : Process) : Set Word := {a | a ∈ P.stack c ∨ a ∈ P.data c}

/-- The memory that a process relies on: its data, and its stack from the stack pointer up. -/
def Setup.live (c : Process) (sp : Word) : Set Word :=
  {a | a ∈ P.data c ∨ a ∈ P.stack c ∧ sp.toNat ≤ a.toNat}

/-- What a process sees. -/
noncomputable def Setup.view (c : Process) (m : Machine) : View where
  rip := m.rip
  sp := m.sp
  regs r := if r ∈ calleeSaved then m.regs r else 0
  mem := (P.live c m.sp).indicator m.mem

/-- There is room on the stack for so many words. -/
def Setup.HasRoom (c : Process) (sp : Word) (n : ℕ) : Prop :=
  Room (P.stack c) sp n ∧ 8 * n ≤ sp.toNat

/-- The words that a call of `do_print` has on the stack. The array `temp` is as long as the text. -/
def Setup.printWords (buf : Ptr) : ℕ := P.printFrame + ((CText.cString buf).length + 7) / 8

/-- A process may yield from its side only, and needs room for a return address, `rbp` and the frame of
    `switch_to`. To print, it needs room for the text. -/
def Setup.Allowed (c : Process) (sp : Word) : Service → Prop
  | .print buf => P.HasRoom c sp (P.printWords buf)
  | .yield12 => c = .process1 ∧ P.HasRoom c sp 12
  | .yield21 => c = .process2 ∧ P.HasRoom c sp 12
  | .uexit => P.HasRoom c sp 12

/-! ## The code -/

/-- `switch_to(&slot, target)`, with the stack pointer of a context as the target. -/
def switchVia (slot : Word) (c : Process) (ret : Word) (s : System Process) : System Process :=
  let target := s.machine.mem (P.slot c)
  match callSwitchTo slot target ret s.machine with
  | none => { s with halted := true }
  | some m =>
    { s with
      machine := m
      running := c
      context := Function.update (Function.update s.context c none) s.running
        (some (.called slot target ret s.machine)) }

/-- A function is called, and saves `rbp`, as it does when it is compiled without optimization. -/
def enter (m : Machine) : Machine :=
  let m := (m.call m.rip).push .rbp
  m.set .rbp m.sp

/-- It returns. -/
def leave (m : Machine) : Machine := (m.pop .rbp).ret

/-- A function whose call of `switch_to` has returned here returns too. -/
def resume (ret : Word) (m : Machine) : Machine := if m.rip = ret then leave m else m

/-- `switch_to(&s1, s2)` or the other way round, and a return. -/
def doYield (c c' : Process) (s : System Process) : System Process :=
  let s := switchVia P (P.slot c) c' (P.yieldRet c) s
  { s with machine := resume (P.yieldRet s.running) s.machine }

/-- `do_yield12`. -/
def doYield12 : System Process → System Process := doYield P .process1 .process2

/-- `do_yield21`. -/
def doYield21 : System Process → System Process := doYield P .process2 .process1

/-- `do_uexit`, which never returns: `main` exits. -/
def doUexit : System Process → System Process := switchVia P (P.slot .process1) .main P.exitRet

/-- The running process has called a function that is going to return to this machine. -/
def called (m : Machine) (s : System Process) : System Process := { s with machine := enter m }

/-- What `do_print` leaves when it returns to a machine: it keeps the registers that functions keep, and
    all memory but the words below the stack pointer that it has used. -/
structure Setup.Printed (buf : Ptr) (m m' : Machine) : Prop where
  rip : m'.rip = m.rip
  sp : m'.sp = m.sp
  regs : ∀ r ∈ calleeSaved, m'.regs r = m.regs r
  mem : ∀ a, a ∉ below m.sp (P.printWords buf) → m'.mem a = m.mem a

/-- The running process has called a function, and is going to go on as in this machine. -/
inductive State.Serves (m : Machine) (s : State) : Service → State → Prop
  | print {buf : Ptr} {m' : Machine} : P.Printed buf m m' →
      Serves m s (.print buf) { s with machine := m', tty := doPrint buf s.tty }
  | yield12 : Serves m s .yield12 { s with toSystem := doYield12 P (called m s.toSystem) }
  | yield21 : Serves m s .yield21 { s with toSystem := doYield21 P (called m s.toSystem) }
  | uexit : Serves m s .uexit { s with toSystem := doUexit P (called m s.toSystem) }

/-- What `main` prints at the end. -/
def done : Ptr := ascii "done\n"

/-- The end of `main`, when `do_print` has returned. -/
def State.finish (m : Machine) (s : State) : State :=
  { s with machine := m, tty := doPrint done s.tty, exit := some 0 }

/-- `main` sets up the stack of a process, and keeps its stack pointer. -/
def setUpStack (c : Process) (s : System Process) : System Process :=
  let new := setupStack0 s.machine.mem (P.stackEnd c) (P.entry c)
  { s with
    machine := { s.machine with mem := Function.update new.mem (P.slot c) new.sp }
    context := Function.update s.context c (some (.fresh (P.stackEnd c) (P.entry c) 0 0)) }

/-- `main` sets up both stacks. -/
def setUp : System Process :=
  setUpStack P .process2 (setUpStack P .process1 (System.init .main P.machine))

/-- `main` has switched to the first process. -/
def State.start (t : Tty) : State where
  toSystem := switchVia P (P.slot .main) .process1 P.mainRet (setUp P)
  tty := t
  exit := none

/-- What is called, or that `main` ends. -/
inductive Event
  | calls (c : Process) (service : Service)
  | finishes

/-- A step of the machine: the running process computes with its registers, its stack and its data
    up to its next call, and that is served. -/
inductive State.Step (programs : Process → Program) : State → Event → State → Prop
  | calls {s : State} {service : Service} {m : Machine} (hexit : s.exit = none)
      (hrunning : s.running ≠ .main)
      (hcall : programs s.running (P.view s.running s.machine) = ⟨service, P.view s.running m⟩)
      (hmem : ∀ a, a ∉ P.own s.running → m.mem a = s.machine.mem a)
      (hallowed : P.Allowed s.running m.sp service) {s' : State} (hserves : s.Serves P m service s') :
      Step programs s (.calls s.running service) s'
  | finishes {s : State} {m : Machine} (hexit : s.exit = none) (hrunning : s.running = .main)
      (hrip : s.machine.rip = P.mainRet)
      (hallowed : P.Allowed .main s.machine.sp (.print done)) (hprinted : P.Printed done s.machine m) :
      Step programs s .finishes (s.finish m)

end

/-! ## Coroutines -/

/-- A machine on which a context goes on, with this memory. -/
def wake (p : Suspended) (mem : Word → Word) : Machine where
  sp := p.sp
  mem := mem
  regs := p.regs
  rip := p.rip

/-- What both processes see, and which one runs. -/
structure Coroutines where
  view : Process → View
  running : Process
  tty : Tty
  exit : Option ℤ

namespace Coroutines

variable (P : Setup)

/-- The running one is going to see this. -/
def sees (v : View) (a : Coroutines) : Coroutines :=
  { a with view := Function.update a.view a.running v }

/-- The running one has called a function, and is going to see this. -/
def serve (v : View) (a : Coroutines) : Service → Coroutines
  | .print buf => { a.sees v with tty := doPrint buf a.tty }
  | .yield12 => { a.sees v with running := .process2 }
  | .yield21 => { a.sees v with running := .process1 }
  | .uexit => { a.sees v with running := .main }

def finish (a : Coroutines) : Coroutines :=
  { a with tty := doPrint done a.tty, exit := some 0 }

/-- Both are going to enter their functions, the first one runs. -/
noncomputable def start (t : Tty) : Coroutines where
  view c := P.view c (wake (fresh (P.stackEnd c) (P.entry c) 0 0) (setUp P).machine.mem)
  running := .process1
  tty := t
  exit := none

inductive Step (programs : Process → Program) : Coroutines → Event → Coroutines → Prop
  | calls {a : Coroutines} {service : Service} {m : Machine} (hexit : a.exit = none)
      (hrunning : a.running ≠ .main)
      (hcall : programs a.running (a.view a.running) = ⟨service, P.view a.running m⟩)
      (hallowed : P.Allowed a.running m.sp service) :
      Step programs a (.calls a.running service) (a.serve (P.view a.running m) service)
  | finishes {a : Coroutines} (hexit : a.exit = none) (hrunning : a.running = .main) :
      Step programs a .finishes a.finish

end Coroutines

/-! ## Views -/

variable {P : Setup} {c : Process} {m m' : Machine} {p : Suspended} {v : View}

/-- What a process sees only depends on what it can rely on. -/
theorem view_congr (hrip : m'.rip = m.rip) (hsp : m'.sp = m.sp)
    (hregs : ∀ r ∈ calleeSaved, m'.regs r = m.regs r)
    (hmem : ∀ a ∈ P.live c m.sp, m'.mem a = m.mem a) : P.view c m' = P.view c m := by
  refine View.ext hrip hsp (funext fun r => ?_) (funext fun a => ?_)
  · by_cases hr : r ∈ calleeSaved
    · exact (if_pos hr).trans ((hregs r hr).trans (if_pos hr).symm)
    · exact (if_neg hr).trans (if_neg hr).symm
  · change (P.live c m'.sp).indicator m'.mem a = (P.live c m.sp).indicator m.mem a
    rw [hsp]
    by_cases ha : a ∈ P.live c m.sp
    · rw [Set.indicator_of_mem ha, Set.indicator_of_mem ha, hmem a ha]
    · rw [Set.indicator_of_notMem ha, Set.indicator_of_notMem ha]

theorem ne_rax {r : Reg} (hr : r ∈ calleeSaved) : r ≠ .rax := by
  rintro rfl
  exact absurd hr (by decide)

theorem own_inj {c' : Process} {a : Word} (h : a ∈ P.own c) (h' : a ∈ P.own c') : c = c' := by
  rcases h with h | h <;> rcases h' with h' | h'
  · exact P.disjoint h h'
  · exact absurd h (P.data_notMem_stack h' c)
  · exact absurd h' (P.data_notMem_stack h c')
  · exact P.data_disjoint h h'

theorem slot_notMem_own (c c' : Process) : P.slot c ∉ P.own c' := by
  rintro (h | h)
  · exact P.slot_notMem c c' h
  · exact P.slot_notMem_data c c' h

theorem own_of_live {sp a : Word} (h : a ∈ P.live c sp) : a ∈ P.own c := by
  rcases h with h | ⟨h, -⟩
  · exact .inr h
  · exact .inl h

/-- A process that does not run will see this when it goes on. If it goes on in the function that has
    called `switch_to`, then `rbp` and its return address are on its stack. -/
structure Waits (P : Setup) (c : Process) (p : Suspended) (mem : Word → Word) (v : View) : Prop where
  mem_stack : p.rip = P.yieldRet c → p.sp ∈ P.stack c ∧ p.sp + 8 ∈ P.stack c
  view : P.view c (resume (P.yieldRet c) (wake p mem)) = v

/-- It sees that on each machine on which it goes on, if its memory has not changed. -/
theorem Waits.resumed {mem : Word → Word} (h : Waits P c p mem v) (hm : p.Resumed m)
    (hmem : ∀ a ∈ P.own c, m.mem a = mem a) :
    P.view c (resume (P.yieldRet c) m) = v := by
  obtain ⟨hrip, hsp, hregs⟩ := hm
  have hlive : ∀ {sp : Word}, ∀ a ∈ P.live c sp, m.mem a = mem a := fun a ha =>
    hmem a (own_of_live ha)
  have hregs' : ∀ r ∈ calleeSaved, m.regs r = p.regs r := fun r hr => hregs r (ne_rax hr)
  rw [← h.view, resume, resume]
  by_cases hret : p.rip = P.yieldRet c
  · rw [if_pos (hrip.trans hret), if_pos (show (wake p mem).rip = _ from hret)]
    obtain ⟨hbp, hra⟩ := h.mem_stack hret
    refine view_congr ?_ (congrArg (· + 8 + 8) hsp) (fun r hr => ?_) hlive
    · exact (congrArg (fun a => m.mem (a + 8)) hsp).trans (hmem _ (.inl hra))
    · by_cases hr' : r = .rbp
      · subst hr'
        exact (congrArg m.mem hsp).trans (hmem _ (.inl hbp))
      · refine (Function.update_of_ne hr' _ _).trans ((hregs' r hr).trans ?_)
        exact (Function.update_of_ne hr' _ _).symm
  · rw [if_neg fun h => hret (hrip.symm.trans h), if_neg (show (wake p mem).rip ≠ _ from hret)]
    exact view_congr hrip hsp hregs' hlive

theorem Waits.congr {mem mem' : Word → Word} (h : Waits P c p mem v)
    (hmem : ∀ a ∈ P.own c, mem' a = mem a) : Waits P c p mem' v where
  mem_stack := h.mem_stack
  view := h.resumed ⟨rfl, rfl, fun _ _ => rfl⟩ hmem

theorem resume_mem (ret : Word) : (resume ret m).mem = m.mem := by
  rw [resume]
  split_ifs <;> rfl

/-! ## Switches -/

theorem room_below {S : Set Word} {t : ℕ} {a : Word} {n : ℕ} (h : Room S a n) (hn : 8 * n ≤ a.toNat)
    (ht : a.toNat ≤ t) : Room {b | b ∈ S ∧ b.toNat < t} a n := by
  induction n generalizing a with
  | zero => trivial
  | succ n ih =>
    have hsub : (a - 8).toNat = a.toNat - 8 := by bv_omega
    exact ⟨⟨h.1, by omega⟩, ih h.2 (by omega) (by omega)⟩

theorem Setup.HasRoom.le {sp : Word} {k n : ℕ} (h : P.HasRoom c sp n) (hk : k ≤ n) :
    P.HasRoom c sp k := ⟨h.1.mono hk, (Nat.mul_le_mul_left 8 hk).trans h.2⟩

/-- A process does not rely on words below its stack pointer. -/
theorem notMem_below_of_live {sp a : Word} {n : ℕ} (hroom : P.HasRoom c sp n)
    (ha : a ∈ P.live c sp) : a ∉ below sp n := by
  intro hb
  rcases ha with ha | ⟨-, hle⟩
  · exact P.data_notMem_stack ha c (hroom.1.mem_of_below hb)
  · exact absurd (toNat_lt_of_below hroom.2 hb) (Nat.not_lt.2 hle)

variable {s : System Process}

/-- A switch has resumed another context. Only the location and words below the stack pointer have
    been written. -/
structure Switched (P : Setup) (slot : Word) (c : Process) (ret : Word) (ctx : Context)
    (s s' : System Process) : Prop where
  halted : s'.halted = false
  running : s'.running = c
  resumed : ctx.suspended.Resumed s'.machine
  caller : s'.context s.running = some (.called slot (s.machine.mem (P.slot c)) ret s.machine)
  context : ∀ c', c' ≠ c → c' ≠ s.running → s'.context c' = s.context c'
  mem : ∀ a, a ≠ slot → (a ∈ P.stack s.running → s.machine.sp.toNat ≤ a.toNat) →
    s'.machine.mem a = s.machine.mem a

theorem switched_switchVia (h : s.Inv P.toLayout) (hc : c ≠ s.running) {ctx : Context}
    (hctx : s.context c = some ctx) (c' : Process) (ret : Word)
    (hroom : Room (P.stack s.running) s.machine.sp 10) (hsp : 80 ≤ s.machine.sp.toNat) :
    Switched P (P.slot c') c ret ctx s (switchVia P (P.slot c') c ret s) := by
  obtain ⟨m, hcall, hresumed, -, -, hmem⟩ := callSwitchTo_resumes ret
    (room_below hroom hsp (Nat.le_refl _)) (T := P.stack c)
    (fun a ha ha' => hc (P.disjoint ha ha'.1)) (fun hs => P.slot_notMem c' s.running hs.1)
    (P.slot_notMem c' c) (P.slot_ne_zero c') (h.frame hctx)
  rw [← h.saved hctx] at hcall
  rw [switchVia]
  simp only [hcall]
  refine ⟨h.halted, rfl, hresumed, Function.update_self .., fun c'' hc'' hne => ?_,
    fun a ha hle => ?_⟩
  · exact (Function.update_of_ne hne _ _).trans (Function.update_of_ne hc'' _ _)
  · exact hmem a (fun hs => absurd hs.2 (Nat.not_lt.2 (hle hs.1))) ha

/-- A switch with the location of the running context is a step of the contexts. -/
theorem inv_switchVia (h : s.Inv P.toLayout) (hc : c ≠ s.running) {ctx : Context}
    (hctx : s.context c = some ctx) {ret : Word}
    (hroom : Room (P.stack s.running) s.machine.sp 10) :
    (switchVia P (P.slot s.running) c ret s).Inv P.toLayout := by
  have hstep : (System.step P.toLayout (.switch c ret) () s).Inv P.toLayout :=
    (h.switch hc hctx hroom).1
  exact hstep

/-- A function that is called writes the two words below the stack pointer. -/
theorem enter_mem {a : Word} (ha : a ∉ below m.sp 2) : (enter m).mem a = m.mem a := by
  have hbp : a ≠ m.sp - 8 - 8 := fun he => ha ⟨1, by decide, by rw [he]; bv_omega⟩
  have hra : a ≠ m.sp - 8 := fun he => ha ⟨0, by decide, he⟩
  exact (Function.update_of_ne hbp _ _).trans (Function.update_of_ne hra _ _)

/-- There they are. -/
theorem enter_spec : (enter m).sp = m.sp - 8 - 8 ∧ (enter m).mem (m.sp - 8) = m.rip ∧
    (enter m).mem (m.sp - 8 - 8) = m.regs .rbp ∧ ∀ r, r ≠ .rbp → (enter m).regs r = m.regs r := by
  have hne : m.sp - 8 ≠ m.sp - 8 - 8 := by bv_omega
  refine ⟨rfl, ?_, Function.update_self .., fun r hr => Function.update_of_ne hr _ _⟩
  exact (Function.update_of_ne hne _ _).trans (Function.update_self ..)

/-- What has been called from a process waits with what the process is going to see. -/
theorem waits_called {slot target : Word} {mem : Word → Word} (hroom : P.HasRoom c m.sp 12)
    (hmem : ∀ a, a ∈ below m.sp 2 ∨ a ∈ P.live c m.sp → mem a = (enter m).mem a) :
    Waits P c (caller (enter m) slot target (P.yieldRet c)) mem (P.view c m) := by
  obtain ⟨-, hra, hbp, hregs⟩ := enter_spec (m := m)
  have hra' : m.sp - 8 - 8 + 8 = m.sp - 8 := BitVec.sub_add_cancel _ _
  refine ⟨fun _ => ⟨hroom.1.2.1, ?_⟩, ?_⟩
  · change m.sp - 8 - 8 + 8 ∈ P.stack c
    rw [hra']
    exact hroom.1.1
  have hret : resume (P.yieldRet c) (wake (caller (enter m) slot target (P.yieldRet c)) mem) =
      leave (wake (caller (enter m) slot target (P.yieldRet c)) mem) := if_pos rfl
  rw [hret]
  refine view_congr ?_ ?_ (fun r hr => ?_) fun a ha => ?_
  · change mem (m.sp - 8 - 8 + 8) = m.rip
    rw [hra', hmem (m.sp - 8) (.inl ⟨0, by decide, rfl⟩), hra]
  · change m.sp - 8 - 8 + 8 + 8 = m.sp
    rw [hra', BitVec.sub_add_cancel]
  · by_cases hr' : r = .rbp
    · subst hr'
      change mem (m.sp - 8 - 8) = m.regs .rbp
      rw [hmem (m.sp - 8 - 8) (.inl ⟨1, by decide, by bv_omega⟩), hbp]
    · have hdi : r ≠ .rdi := by
        rintro rfl
        exact absurd hr (by decide)
      have hsi : r ≠ .rsi := by
        rintro rfl
        exact absurd hr (by decide)
      refine (Function.update_of_ne hr' _ _).trans ((Function.update_of_ne hsi _ _).trans ?_)
      exact (Function.update_of_ne hdi _ _).trans (hregs r hr')
  · refine (hmem a (.inr ha)).trans (enter_mem fun hb => ?_)
    exact notMem_below_of_live (hroom.le (by decide)) ha hb

/-! ## Steps -/

/-- A process runs, and this is what it sees. The other one waits with its view, and `main` waits for
    the end. -/
structure Ready (P : Setup) (s : System Process) (view : Process → View) : Prop where
  inv : s.Inv P.toLayout
  sees : P.view s.running s.machine = view s.running
  main : ∃ ctx, s.context .main = some ctx ∧ ctx.suspended.rip = P.mainRet ∧
    ctx.suspended.sp = P.machine.sp
  waits : ∀ c, c ≠ .main → c ≠ s.running → ∃ ctx, s.context c = some ctx ∧
    Waits P c ctx.suspended s.machine.mem (view c)

variable {view : Process → View}

/-- The running process computes. -/
theorem Ready.compute (h : Ready P s view)
    (hmem : ∀ b, b ∉ P.own s.running → m.mem b = s.machine.mem b) :
    Ready P { s with machine := m } (Function.update view s.running (P.view s.running m)) where
  inv := h.inv.compute (fun c => hmem _ (slot_notMem_own c _))
    fun c hc b hb => hmem b fun hb' => hc (own_inj (.inl hb) hb')
  sees := (Function.update_self s.running (P.view s.running m) view).symm
  main := h.main
  waits c hc hne := by
    obtain ⟨ctx, hctx, hwaits⟩ := h.waits c hc hne
    refine ⟨ctx, hctx, ?_⟩
    rw [Function.update_of_ne hne]
    exact hwaits.congr fun b hb => hmem b fun hb' => hne (own_inj hb hb')

/-- When the running process has called a function, the contexts are as before. -/
theorem Ready.inv_called (h : Ready P s view) (hroom : P.HasRoom s.running s.machine.sp 12) :
    (called s.machine s).Inv P.toLayout ∧
      ∀ b, b ∉ P.own s.running → (enter s.machine).mem b = s.machine.mem b := by
  have hcall : ∀ b, b ∉ P.own s.running → (enter s.machine).mem b = s.machine.mem b :=
    fun b hb => enter_mem fun hb' => hb (.inl ((hroom.le (by decide)).1.mem_of_below hb'))
  exact ⟨h.inv.compute (fun c => hcall _ (slot_notMem_own c _))
    fun c hc b hb => hcall b fun hb' => hc (own_inj (.inl hb) hb'), hcall⟩

/-- The function has room for the frame of `switch_to`. -/
theorem Setup.HasRoom.enter (h : P.HasRoom c m.sp 12) :
    Room (P.stack c) (enter m).sp 10 ∧ 80 ≤ (enter m).sp.toNat := by
  have hle := h.2
  refine ⟨h.1.2.2, ?_⟩
  change 80 ≤ (m.sp - 8 - 8).toNat
  bv_omega

/-- The running process yields: the other one goes on with its view. -/
theorem Ready.yield (h : Ready P s view) {c' : Process} (hmain : s.running ≠ .main)
    (hc' : c' ≠ .main) (hne : c' ≠ s.running) (hroom : P.HasRoom s.running s.machine.sp 12) :
    (doYield P s.running c' (called s.machine s)).running = c' ∧
      Ready P (doYield P s.running c' (called s.machine s)) view := by
  obtain ⟨hinv, hcall⟩ := h.inv_called hroom
  obtain ⟨ctx, hctx, hwaits⟩ := h.waits c' hc' hne
  have hswitched := switched_switchVia hinv hne hctx s.running (P.yieldRet s.running) hroom.enter.1
    hroom.enter.2
  have hinv' : (switchVia P (P.slot s.running) c' (P.yieldRet s.running)
      (called s.machine s)).Inv P.toLayout := inv_switchVia hinv hne hctx hroom.enter.1
  rw [doYield]
  generalize switchVia P (P.slot s.running) c' (P.yieldRet s.running) (called s.machine s) = s' at *
  obtain rfl := hswitched.running
  -- What the other processes have is as before.
  have hother : ∀ c, c ≠ s.running → ∀ b ∈ P.own c, s'.machine.mem b = s.machine.mem b := by
    intro c hc b hb
    have hb' : b ∉ P.own s.running := fun hb' => hc (own_inj hb hb')
    refine (hswitched.mem b ?_ fun hb'' => absurd (.inl hb'') hb').trans (hcall b hb')
    exact fun he => slot_notMem_own s.running c (he ▸ hb)
  refine ⟨rfl, hinv'.compute (fun c => by rw [resume_mem]) fun c _ b _ => by rw [resume_mem],
    hwaits.resumed hswitched.resumed (hother _ hne), ?_, fun c hc hcne => ?_⟩
  · obtain ⟨ctx', hctx', hmain'⟩ := h.main
    exact ⟨ctx', (hswitched.context .main hc'.symm hmain.symm).trans hctx', hmain'⟩
  · -- The one that has yielded.
    have hcases : c = s.running := by
      generalize s'.running = c' at *
      generalize s.running = c'' at *
      cases c <;> cases c' <;> cases c'' <;> first | rfl | contradiction
    subst hcases
    refine ⟨_, hswitched.caller, ?_⟩
    dsimp only
    rw [resume_mem, ← h.sees]
    refine waits_called hroom fun b hb => hswitched.mem b ?_ fun hb' => ?_
    · rintro rfl
      rcases hb with hb | hb
      · exact P.slot_notMem s.running s.running ((hroom.le (by decide)).1.mem_of_below hb)
      · exact slot_notMem_own s.running s.running (own_of_live hb)
    · have hle := hroom.2
      change (s.machine.sp - 8 - 8).toNat ≤ b.toNat
      rcases hb with ⟨i, hi, rfl⟩ | hb | ⟨-, hb⟩
      · bv_omega
      · exact absurd hb' (P.data_notMem_stack hb _)
      · bv_omega

/-- The running process, whichever it is, goes back to `main`. -/
theorem Ready.uexit (h : Ready P s view) (hmain : s.running ≠ .main)
    (hroom : P.HasRoom s.running s.machine.sp 12) :
    (doUexit P (called s.machine s)).halted = false ∧
      (doUexit P (called s.machine s)).running = .main ∧
      (doUexit P (called s.machine s)).machine.rip = P.mainRet ∧
      (doUexit P (called s.machine s)).machine.sp = P.machine.sp := by
  obtain ⟨ctx, hctx, hrip, hsp⟩ := h.main
  have hswitched := switched_switchVia (h.inv_called hroom).1 hmain.symm hctx .process1 P.exitRet
    hroom.enter.1 hroom.enter.2
  exact ⟨hswitched.halted, hswitched.running, hswitched.resumed.1.trans hrip,
    hswitched.resumed.2.1.trans hsp⟩

/-! ## Traces -/

/-- The machine and the coroutines: either a process runs, or `main` is about to end. -/
structure Related (P : Setup) (s : State) (a : Coroutines) : Prop where
  halted : s.halted = false
  running : s.running = a.running
  tty : s.tty = a.tty
  exit : s.exit = a.exit
  ready : s.running ≠ .main → Ready P s.toSystem a.view
  main : s.running = .main → s.machine.rip = P.mainRet ∧ s.machine.sp = P.machine.sp

variable {a : Coroutines}

/-- `do_print` may leave memory as it is. -/
theorem Setup.Printed.refl (buf : Ptr) (m : Machine) : P.Printed buf m m where
  rip := rfl
  sp := rfl
  regs _ _ := rfl
  mem _ _ := rfl

/-- What `do_print` leaves, the process does not see. -/
theorem Setup.Printed.view_eq {buf : Ptr} (h : P.Printed buf m m')
    (hroom : P.HasRoom c m.sp (P.printWords buf)) : P.view c m' = P.view c m :=
  view_congr h.rip h.sp h.regs fun b hb => h.mem b (notMem_below_of_live hroom hb)

/-- What the machine serves, the coroutines serve. -/
theorem Related.serves {s s' : State} (h : Related P s a) (hmain : s.running ≠ .main)
    (hmem : ∀ b, b ∉ P.own s.running → m.mem b = s.machine.mem b) {service : Service}
    (hallowed : P.Allowed s.running m.sp service) (hserves : s.Serves P m service s') :
    Related P s' (a.serve (P.view s.running m) service) := by
  have hready {m' : Machine} (hmem' : ∀ b, b ∉ P.own s.running → m'.mem b = s.machine.mem b)
      (hview : P.view s.running m' = P.view s.running m) :
      Ready P { s.toSystem with machine := m' } (a.sees (P.view s.running m)).view := by
    rw [Coroutines.sees, ← h.running, ← hview]
    exact (h.ready hmain).compute hmem'
  have hyield (c' : Process) (hc' : c' ≠ .main) (hne : c' ≠ s.running)
      (hroom : P.HasRoom s.running m.sp 12) :
      Related P { s with toSystem := doYield P s.running c' (called m s.toSystem) }
        { a.sees (P.view s.running m) with running := c' } := by
    obtain ⟨hrunning, h'⟩ := (hready hmem rfl).yield hmain hc' hne hroom
    exact ⟨h'.inv.halted, hrunning, h.tty, h.exit, fun _ => h',
      fun he => absurd (hrunning.symm.trans he) hc'⟩
  cases hserves with
  | @print buf m' hprinted =>
    -- The frame of `do_print` is on the stack of the process.
    have hmem' : ∀ b, b ∉ P.own s.running → m'.mem b = s.machine.mem b := fun b hb =>
      (hprinted.mem b fun hb' => hb (.inl (hallowed.1.mem_of_below hb'))).trans (hmem b hb)
    exact ⟨h.halted, h.running, congrArg (doPrint buf) h.tty, h.exit,
      fun _ => hready hmem' (hprinted.view_eq hallowed), fun he => absurd he hmain⟩
  | yield12 =>
    have h' := hyield .process2 (by decide) (by rw [hallowed.1]; decide) hallowed.2
    rw [hallowed.1] at h' ⊢
    exact h'
  | yield21 =>
    have h' := hyield .process1 (by decide) (by rw [hallowed.1]; decide) hallowed.2
    rw [hallowed.1] at h' ⊢
    exact h'
  | uexit =>
    obtain ⟨hhalted, hrunning, hmain'⟩ := (hready hmem rfl).uexit hmain hallowed
    exact ⟨hhalted, hrunning, h.tty, h.exit, fun hne => absurd hrunning hne, fun _ => hmain'⟩

variable {programs : Process → Program}

/-- There is room for what `main` calls. -/
theorem Setup.hasRoom_main (P : Setup) :
    P.HasRoom .main P.machine.sp 10 ∧ P.HasRoom .main P.machine.sp (P.printWords done) :=
  have hroom : P.HasRoom .main P.machine.sp (max 10 (P.printFrame + 1)) := ⟨P.room_main, P.sp_main⟩
  ⟨hroom.le (Nat.le_max_left ..), hroom.le (Nat.le_max_right ..)⟩

theorem Related.finish {s : State} (h : Related P s a) (hmain : s.running = .main)
    (hprinted : P.Printed done s.machine m) : Related P (s.finish m) a.finish :=
  ⟨h.halted, h.running, congrArg (doPrint done) h.tty, rfl, fun hne => absurd hmain hne,
    fun _ => ⟨hprinted.rip.trans (h.main hmain).1, hprinted.sp.trans (h.main hmain).2⟩⟩

/-- A step of the machine is one of the coroutines. -/
theorem Related.step (s : State) (a : Coroutines) (e : Event) (s' : State) (h : Related P s a)
    (hs : State.Step P programs s e s') :
    ∃ a', Coroutines.Step P programs a e a' ∧ Related P s' a' := by
  cases hs with
  | @calls service m hexit hmain hcall hmem hallowed _ hserves =>
    have hrel := h.serves hmain hmem hallowed hserves
    rw [(h.ready hmain).sees] at hcall
    rw [h.running] at hmain hcall hallowed hrel ⊢
    exact ⟨_, .calls (h.exit ▸ hexit) hmain hcall hallowed, hrel⟩
  | finishes hexit hmain _ _ hprinted =>
    exact ⟨_, .finishes (h.exit ▸ hexit) (h.running ▸ hmain), h.finish hmain hprinted⟩

/-- Every function does something. -/
theorem State.exists_serves (P : Setup) (m : Machine) (s : State) (service : Service) :
    ∃ s', s.Serves P m service s' := by
  cases service with
  | print buf => exact ⟨_, .print (.refl buf m)⟩
  | yield12 => exact ⟨_, .yield12⟩
  | yield21 => exact ⟨_, .yield21⟩
  | uexit => exact ⟨_, .uexit⟩

/-- A step of the coroutines is one of the machine. -/
theorem Related.exists_step (a : Coroutines) (s : State) (e : Event) (a' : Coroutines)
    (h : Related P s a) (ha : Coroutines.Step P programs a e a') :
    ∃ s', State.Step P programs s e s' ∧ Related P s' a' := by
  classical
  cases ha with
  | @calls service m hexit hmain hcall hallowed =>
    rw [← h.running] at hmain hcall hallowed ⊢
    -- The machine, on which the memory of the others has not changed.
    let m' : Machine := { m with mem b := if b ∈ P.own s.running then m.mem b else s.machine.mem b }
    have hview : P.view s.running m' = P.view s.running m :=
      view_congr rfl rfl (fun _ _ => rfl) fun b hb => if_pos (own_of_live hb)
    have hmem : ∀ b, b ∉ P.own s.running → m'.mem b = s.machine.mem b := fun b hb => if_neg hb
    rw [← (h.ready hmain).sees, ← hview] at hcall
    rw [← hview]
    obtain ⟨s', hserves⟩ := State.exists_serves P m' s service
    exact ⟨s', .calls (h.exit.trans hexit) hmain hcall hmem hallowed hserves,
      h.serves hmain hmem hallowed hserves⟩
  | finishes hexit hmain =>
    have hmain' : s.running = .main := h.running.trans hmain
    obtain ⟨hrip, hsp⟩ := h.main hmain'
    have hprinted : P.Printed done s.machine s.machine := .refl done s.machine
    exact ⟨_, .finishes (h.exit.trans hexit) hmain' hrip (hsp ▸ P.hasRoom_main.2) hprinted,
      h.finish hmain' hprinted⟩

/-- A process that has been set up waits to enter its function. -/
theorem waits_fresh (P : Setup) (c : Process) (mem : Word → Word) :
    Waits P c (fresh (P.stackEnd c) (P.entry c) 0 0) mem
      (P.view c (wake (fresh (P.stackEnd c) (P.entry c) 0 0) mem)) where
  mem_stack hrip := absurd hrip (P.entry_ne c)
  view := congrArg (P.view c) (if_neg (P.entry_ne c))

theorem inv_setUp (P : Setup) : (setUp P).Inv P.toLayout := by
  have hinv : (System.step P.toLayout
      (.setup .process1 (P.stackEnd .process1) (P.entry .process1) 0 0) ()
      (System.init .main P.machine)).Inv P.toLayout :=
    System.inv_init.setup (show Process.process1 ≠ .main by decide) (P.room _ (by decide))
  exact hinv.setup (show Process.process2 ≠ .main by decide) (P.room _ (by decide))

theorem related_start (P : Setup) (t : Tty) :
    Related P (State.start P t) (Coroutines.start P t) := by
  have hctx : (setUp P).context .process1 =
      some (.fresh (P.stackEnd .process1) (P.entry .process1) 0 0) := rfl
  have hctx' : (setUp P).context .process2 =
      some (.fresh (P.stackEnd .process2) (P.entry .process2) 0 0) := rfl
  have hne : Process.process1 ≠ (setUp P).running := show Process.process1 ≠ .main by decide
  have hswitched := switched_switchVia (inv_setUp P) hne hctx .main P.mainRet P.hasRoom_main.1.1
    P.hasRoom_main.1.2
  have hinv' : (State.start P t).toSystem.Inv P.toLayout :=
    inv_switchVia (inv_setUp P) hne hctx P.hasRoom_main.1.1
  change Switched P _ _ _ _ _ (State.start P t).toSystem at hswitched
  have hmem : ∀ c, c ≠ .main → ∀ b ∈ P.own c,
      (State.start P t).machine.mem b = (setUp P).machine.mem b := by
    intro c hc b hb
    refine hswitched.mem b (fun he => slot_notMem_own .main c (he ▸ hb)) fun hb' => ?_
    exact absurd (own_inj hb (.inl hb')) hc
  refine ⟨hswitched.halted, hswitched.running, rfl, rfl, fun _ => ⟨hinv', ?_, ?_, ?_⟩, ?_⟩
  · rw [hswitched.running]
    refine Eq.trans ?_ ((waits_fresh P .process1 _).resumed hswitched.resumed (hmem _ (by decide)))
    exact congrArg (P.view .process1)
      (if_neg fun hrip => P.entry_ne .process1 (hswitched.resumed.1.symm.trans hrip)).symm
  · exact ⟨_, hswitched.caller, rfl, rfl⟩
  · intro c hc hne
    rw [hswitched.running] at hne
    have hcases : c = .process2 := by cases c <;> first | rfl | contradiction
    subst hcases
    refine ⟨_, (hswitched.context _ hne (show Process.process2 ≠ .main by decide)).trans hctx', ?_⟩
    exact (waits_fresh P .process2 _).congr (hmem _ hc)
  · exact fun hrunning => absurd (hswitched.running.symm.trans hrunning) (by decide)

/-- As long as the processes keep room on their stacks, the machine does what the coroutines do: it
    does not halt, and has the same traces, with the same output and the same exit code. -/
theorem machine_traces (P : Setup) (programs : Process → Program) (t : Tty) (es : List Event) :
    (∀ s, Trace (State.Step P programs) (State.start P t) es s →
      ∃ a, Trace (Coroutines.Step P programs) (Coroutines.start P t) es a ∧
        s.halted = false ∧ s.tty = a.tty ∧ s.exit = a.exit) ∧
      ∀ a, Trace (Coroutines.Step P programs) (Coroutines.start P t) es a →
        ∃ s, Trace (State.Step P programs) (State.start P t) es s ∧
          s.halted = false ∧ s.tty = a.tty ∧ s.exit = a.exit := by
  constructor
  · intro s h
    obtain ⟨a, ha, hrel⟩ := h.simulate Related.step (related_start P t)
    exact ⟨a, ha, hrel.halted, hrel.tty, hrel.exit⟩
  · intro a h
    obtain ⟨s, hs, hrel⟩ := h.simulate Related.exists_step (related_start P t)
    exact ⟨s, hs, hrel.halted, hrel.tty, hrel.exit⟩

/-! ## Turns -/

/-- How a process yields to the other one, and which one that is. -/
def yieldOf : Process → Service × Process
  | .process1 => (.yield12, .process2)
  | .process2 => (.yield21, .process1)
  | .main => (.uexit, .main)

/-- From a view on, a process prints texts and yields after each of them, and then goes back to
    `main`. It keeps room on its stack. -/
def Prints (P : Setup) (c : Process) (program : Program) : View → List Ptr → Prop
  | v, [] => ∃ m, program v = ⟨.uexit, P.view c m⟩ ∧ P.HasRoom c m.sp 12
  | v, buf :: bufs => ∃ m m', program v = ⟨.print buf, P.view c m⟩ ∧
      P.HasRoom c m.sp (P.printWords buf) ∧
      program (P.view c m) = ⟨(yieldOf c).1, P.view c m'⟩ ∧ P.HasRoom c m'.sp 12 ∧
      Prints P c program (P.view c m') bufs

/-- What two processes that print texts print together, if the one with the first texts starts. The
    one that has no more texts ends it. -/
def turns : List Ptr → List Ptr → List UInt8
  | [], _ => []
  | buf :: _, [] => CText.cString buf
  | buf :: bufs, buf' :: bufs' => CText.cString buf ++ CText.cString buf' ++ turns bufs bufs'

/-- After each text, it is the turn of the other one. -/
theorem turns_cons (buf : Ptr) (bufs bufs' : List Ptr) :
    turns (buf :: bufs) bufs' = CText.cString buf ++ turns bufs' bufs := by
  induction bufs' generalizing buf bufs with
  | nil => rw [turns, turns, List.append_nil]
  | cons buf' bufs' ih =>
    rw [turns, List.append_assoc]
    cases bufs with
    | nil => rw [turns, turns, List.append_nil]
    | cons buf₂ bufs => rw [ih, turns, List.append_assoc]

/-- How far two processes that print texts have come: what is still going to be printed, and how many
    steps that takes at most. -/
inductive Stage (P : Setup) (programs : Process → Program) (a : Coroutines) : List UInt8 → ℕ → Prop
  | prints {bufs bufs' : List Ptr} (hexit : a.exit = none) (hmain : a.running ≠ .main)
      (hprints : Prints P a.running (programs a.running) (a.view a.running) bufs)
      (hprints' : Prints P (yieldOf a.running).2 (programs (yieldOf a.running).2)
        (a.view (yieldOf a.running).2) bufs') :
      Stage P programs a (turns bufs bufs' ++ ascii "done\n") (2 * (bufs.length + bufs'.length) + 2)
  | yields {bufs bufs' : List Ptr} {m : Machine} (hexit : a.exit = none) (hmain : a.running ≠ .main)
      (hcall : programs a.running (a.view a.running) = ⟨(yieldOf a.running).1, P.view a.running m⟩)
      (hroom : P.HasRoom a.running m.sp 12)
      (hprints : Prints P a.running (programs a.running) (P.view a.running m) bufs)
      (hprints' : Prints P (yieldOf a.running).2 (programs (yieldOf a.running).2)
        (a.view (yieldOf a.running).2) bufs') :
      Stage P programs a (turns bufs' bufs ++ ascii "done\n") (2 * (bufs.length + bufs'.length) + 3)
  | ends (hexit : a.exit = none) (hmain : a.running = .main) :
      Stage P programs a (ascii "done\n") 1
  | exited (hexit : a.exit = some 0) : Stage P programs a [] 0

theorem yieldOf_ne (hc : c ≠ .main) : (yieldOf c).2 ≠ c := by
  cases c with
  | main => exact absurd rfl hc
  | process1 => decide
  | process2 => decide

theorem yieldOf_yieldOf (c : Process) : (yieldOf (yieldOf c).2).2 = c := by cases c <;> rfl

theorem yieldOf_ne_main (hc : c ≠ .main) : (yieldOf c).2 ≠ .main := by
  intro h
  rw [← yieldOf_yieldOf c, h] at hc
  exact hc rfl

theorem Coroutines.view_sees (a : Coroutines) (v : View) : (a.sees v).view a.running = v :=
  Function.update_self ..

/-- The other process sees what it has seen before. -/
theorem view_sees_yieldOf {a : Coroutines} (hmain : a.running ≠ .main) (v : View) :
    (a.sees v).view (yieldOf a.running).2 = a.view (yieldOf a.running).2 :=
  Function.update_of_ne (yieldOf_ne hmain) _ _

theorem serve_yieldOf (a : Coroutines) (v : View) : a.serve v (yieldOf a.running).1 =
    { a.sees v with running := (yieldOf a.running).2 } := by
  obtain ⟨view, running, tty, exit⟩ := a
  cases running <;> rfl

/-- What is printed goes on as it should. -/
theorem Stage.step {a a' : Coroutines} {out : List UInt8} {n : ℕ} (h : Stage P programs a out n)
    (hs : Coroutines.Step P programs a e a') : ∃ out' n', Stage P programs a' out' n' ∧ n' < n ∧
      a'.tty.output ++ out' = a.tty.output ++ out := by
  cases h with
  | @prints bufs bufs' hexit hmain hprints hprints' =>
    cases hs with
    | finishes _ hmain' => exact absurd hmain' hmain
    | @calls service m _ _ hcall hallowed =>
      cases bufs with
      | nil =>
        obtain ⟨m', hcall', -⟩ := hprints
        obtain ⟨rfl, -⟩ := Call.mk.inj (hcall.symm.trans hcall')
        exact ⟨_, _, .ends hexit rfl, by omega, rfl⟩
      | cons buf bufs =>
        obtain ⟨m₁, m₂, hcall₁, -, hcall₂, hroom, hprints⟩ := hprints
        obtain ⟨rfl, hview⟩ := Call.mk.inj (hcall.symm.trans hcall₁)
        rw [← hview] at hcall₂
        have hself := a.view_sees (P.view a.running m)
        rw [← view_sees_yieldOf hmain (P.view a.running m)] at hprints'
        refine ⟨_, _, .yields hexit hmain ((congrArg _ hself).trans hcall₂) hroom hprints hprints', ?_,
          ?_⟩
        · rw [List.length_cons]
          omega
        · change a.tty.output ++ CText.cString buf ++ _ = _
          rw [turns_cons, List.append_assoc, List.append_assoc]
  | @yields bufs bufs' m' hexit hmain hcall' hroom hprints hprints' =>
    cases hs with
    | finishes _ hmain' => exact absurd hmain' hmain
    | @calls service m _ _ hcall hallowed =>
      obtain ⟨rfl, hview⟩ := Call.mk.inj (hcall.symm.trans hcall')
      rw [← hview, ← a.view_sees (P.view a.running m)] at hprints
      have hback : Prints P (yieldOf (yieldOf a.running).2).2
          (programs (yieldOf (yieldOf a.running).2).2)
          ((a.sees (P.view a.running m)).view (yieldOf (yieldOf a.running).2).2) bufs := by
        rw [yieldOf_yieldOf]
        exact hprints
      rw [← view_sees_yieldOf hmain (P.view a.running m)] at hprints'
      rw [serve_yieldOf]
      exact ⟨_, _, .prints hexit (yieldOf_ne_main hmain) hprints' hback, by omega, rfl⟩
  | ends hexit hmain =>
    cases hs with
    | calls _ hmain' => exact absurd hmain hmain'
    | finishes => exact ⟨_, _, .exited rfl, Nat.one_pos, List.append_nil _⟩
  | exited hexit =>
    cases hs with
    | calls hexit' => exact absurd (hexit.symm.trans hexit') (by decide)
    | finishes hexit' => exact absurd (hexit.symm.trans hexit') (by decide)

/-- It goes on until the program has exited. -/
theorem Stage.exists_step {out : List UInt8} {n : ℕ} (h : Stage P programs a out n)
    (hexit : a.exit = none) : ∃ e a', Coroutines.Step P programs a e a' := by
  have hyield : ∀ {c sp}, c ≠ .main → P.HasRoom c sp 12 → P.Allowed c sp (yieldOf c).1 := by
    intro c sp hc hroom
    cases c with
    | main => exact absurd rfl hc
    | process1 => exact ⟨rfl, hroom⟩
    | process2 => exact ⟨rfl, hroom⟩
  cases h with
  | @prints bufs _ _ hmain hprints =>
    cases bufs with
    | nil =>
      obtain ⟨m, hcall, hroom⟩ := hprints
      exact ⟨_, _, .calls hexit hmain hcall hroom⟩
    | cons buf bufs =>
      obtain ⟨m, _, hcall, hroom, -⟩ := hprints
      exact ⟨_, _, .calls hexit hmain hcall hroom⟩
  | yields _ hmain hcall hroom => exact ⟨_, _, .calls hexit hmain hcall (hyield hmain hroom)⟩
  | ends _ hmain => exact ⟨_, _, .finishes hexit hmain⟩
  | exited hexit' => exact absurd (hexit.symm.trans hexit') (by decide)

theorem Stage.trace {a' : Coroutines} {out : List UInt8} {n : ℕ} {es : List Event}
    (h : Stage P programs a out n) (ha : Trace (Coroutines.Step P programs) a es a') :
    ∃ out' n', Stage P programs a' out' n' ∧ es.length + n' ≤ n ∧
      a'.tty.output ++ out' = a.tty.output ++ out := by
  induction ha with
  | nil => exact ⟨out, n, h, Nat.le_of_eq (Nat.zero_add n), rfl⟩
  | snoc _ hstep ih =>
    obtain ⟨out₁, n₁, hstage₁, hle₁, hout₁⟩ := ih
    obtain ⟨out₂, n₂, hstage₂, hlt₂, hout₂⟩ := hstage₁.step hstep
    refine ⟨out₂, n₂, hstage₂, ?_, hout₂.trans hout₁⟩
    rw [List.length_append, List.length_singleton]
    omega

theorem Stage.exit_eq {out : List UInt8} {n : ℕ} (h : Stage P programs a out n)
    (hexit : a.exit ≠ none) : a.exit = some 0 ∧ out = [] := by
  cases h with
  | prints hexit' => exact absurd hexit' hexit
  | yields hexit' => exact absurd hexit' hexit
  | ends hexit' => exact absurd hexit' hexit
  | exited hexit' => exact ⟨hexit', rfl⟩

theorem Stage.exists_exit {out : List UInt8} {n : ℕ} (h : Stage P programs a out n) :
    ∃ es a', Trace (Coroutines.Step P programs) a es a' ∧ a'.exit = some 0 := by
  induction n using Nat.strong_induction_on generalizing a out with
  | _ n ih =>
    by_cases hexit : a.exit = none
    · obtain ⟨e, a₁, hstep⟩ := h.exists_step hexit
      obtain ⟨_, n₁, hstage, hlt, -⟩ := h.step hstep
      obtain ⟨es, a', ha, hexit'⟩ := ih n₁ hlt hstage
      exact ⟨[e] ++ es, a', (Trace.single hstep).append ha, hexit'⟩
    · exact ⟨[], a, .nil, (h.exit_eq hexit).1⟩

/-- Two processes that print texts print them in turns, until one of them has no more. Then `main`
    says that it is done, and exits: a run of the machine can always go on until then. -/
theorem trace_turns (P : Setup) (programs : Process → Program) (t : Tty) {bufs bufs' : List Ptr}
    (hprints : Prints P .process1 (programs .process1) ((Coroutines.start P t).view .process1) bufs)
    (hprints' : Prints P .process2 (programs .process2) ((Coroutines.start P t).view .process2)
      bufs') :
    (∃ es s, Trace (State.Step P programs) (State.start P t) es s ∧ s.exit = some 0) ∧
      ∀ es s, Trace (State.Step P programs) (State.start P t) es s →
        es.length ≤ 2 * (bufs.length + bufs'.length) + 2 ∧
        s.tty.output <+: t.output ++ (turns bufs bufs' ++ ascii "done\n") ∧
        (s.exit = none ∧ (∃ e s', State.Step P programs s e s') ∨
          s.exit = some 0 ∧ s.tty.output = t.output ++ (turns bufs bufs' ++ ascii "done\n")) := by
  have hstart : Stage P programs (Coroutines.start P t) _ _ :=
    .prints rfl (show Process.process1 ≠ .main by decide) hprints hprints'
  constructor
  · obtain ⟨es, a, ha, hexit⟩ := hstart.exists_exit
    obtain ⟨s, hs, hrel⟩ := ha.simulate Related.exists_step (related_start P t)
    exact ⟨es, s, hs, hrel.exit.trans hexit⟩
  · intro es s h
    obtain ⟨a, ha, hrel⟩ := h.simulate Related.step (related_start P t)
    obtain ⟨out, n, hstage, hle, hout⟩ := hstart.trace ha
    rw [← hrel.tty] at hout
    refine ⟨by omega, ⟨out, hout⟩, ?_⟩
    by_cases hexit : s.exit = none
    · obtain ⟨e, a', ha'⟩ := hstage.exists_step (hrel.exit.symm.trans hexit)
      obtain ⟨s', hs', -⟩ := Related.exists_step _ _ _ _ hrel ha'
      exact .inl ⟨hexit, e, s', hs'⟩
    · obtain ⟨hexit', rfl⟩ := hstage.exit_eq (hrel.exit ▸ hexit)
      exact .inr ⟨hrel.exit.trans hexit', (List.append_nil _).symm.trans hout⟩

/-! ## `process1.c` and `process2.c` -/

/-- A process that prints a text and yields, four times. Its calls return to successive addresses. -/
def rounds (buf : Ptr) (yield : Service) (entry : Word) (v : View) : Call where
  service :=
    if 8 ≤ (v.rip - entry).toNat then .uexit
    else if (v.rip - entry).toNat % 2 = 0 then .print buf
    else yield
  view := { v with rip := v.rip + 1 }

def process1 : Word → Program := rounds (ascii "program 1\n") .yield12

def process2 : Word → Program := rounds (ascii "program 2\n") .yield21

/-- When so many calls have returned. -/
theorem rounds_view {buf : Ptr} {yield : Service} {entry : Word} {k : ℕ} (hk : k ≤ 8) {m : Machine}
    (hrip : m.rip = entry + BitVec.ofNat 64 k) :
    rounds buf yield entry (P.view c m) =
      ⟨if 8 ≤ k then .uexit else if k % 2 = 0 then .print buf else yield,
        P.view c { m with rip := entry + BitVec.ofNat 64 (k + 1) }⟩ := by
  have hsub : ((P.view c m).rip - entry).toNat = k := by
    change (m.rip - entry).toNat = k
    rw [hrip]
    bv_omega
  have hnext : m.rip + 1 = entry + BitVec.ofNat 64 (k + 1) := by
    rw [hrip]
    bv_omega
  rw [rounds, hsub, ← hnext]
  rfl

theorem prints_rounds {buf : Ptr} {entry : Word} {k : ℕ} (hk : k ≤ 4) {m : Machine}
    (hrip : m.rip = entry + BitVec.ofNat 64 (2 * k)) (hroom : P.HasRoom c m.sp 12)
    (hroom' : P.HasRoom c m.sp (P.printWords buf)) :
    Prints P c (rounds buf (yieldOf c).1 entry) (P.view c m) (List.replicate (4 - k) buf) := by
  induction hn : 4 - k generalizing k m with
  | zero =>
    refine ⟨{ m with rip := entry + BitVec.ofNat 64 (2 * k + 1) },
      (rounds_view (by omega) hrip).trans ?_, hroom⟩
    rw [if_pos (by omega)]
  | succ n ih =>
    refine ⟨{ m with rip := entry + BitVec.ofNat 64 (2 * k + 1) },
      { m with rip := entry + BitVec.ofNat 64 (2 * (k + 1)) },
      (rounds_view (by omega) hrip).trans ?_, hroom',
      (rounds_view (k := 2 * k + 1) (by omega) rfl).trans ?_, hroom,
      ih (k := k + 1) (by omega) rfl hroom hroom' (by omega)⟩
    · rw [if_neg (by omega), if_pos (by omega)]
    · rw [if_neg (by omega), if_neg (by omega)]
      rfl

/-- With room for its calls, such a process prints the text four times from its start on. -/
theorem prints_start (P : Setup) (t : Tty) (c : Process) (buf : Ptr)
    (hroom : P.HasRoom c ((Coroutines.start P t).view c).sp (max 12 (P.printWords buf))) :
    Prints P c (rounds buf (yieldOf c).1 (P.entry c)) ((Coroutines.start P t).view c)
      (List.replicate 4 buf) :=
  prints_rounds (k := 0) (by decide) (BitVec.add_zero _).symm (hroom.le (Nat.le_max_left ..))
    (hroom.le (Nat.le_max_right ..))

/-! ## A setup -/

/-- Where the data of a process are. -/
def dataRegion : Process → ℕ
  | .main => 7
  | .process1 => 9
  | .process2 => 8

/-- Where the code of a process starts. -/
def entryOf : Process → Word
  | .main => 1
  | .process1 => 0x90000000
  | .process2 => 0x80000000

/-- The data are not on a stack. -/
theorem notMem_stack_of_dataRegion {c c' : Process} {a : Word}
    (h : a.toNat / 0x10000000 = dataRegion c) : a ∉ processes.stack c' := by
  intro h'
  have hlt : a.toNat < c'.base + 4096 := h'.2.1
  cases c <;> cases c' <;> simp only [Process.base, dataRegion] at hlt h <;> omega

/-- There is room for the first frames of a stack. -/
theorem room_stackTop (c : Process) :
    Room (processes.stack c) (stackTop (BitVec.ofNat 64 (c.base + 4096))) 13 := by
  cases c <;> exact room_processes (by decide) (by decide) (by decide)

theorem room_machine0 : Room (processes.stack .main) machine0.sp 65 :=
  room_processes (by decide) (by decide) (by decide)

/-- The stacks and the data of the processes in places of their own. -/
def setup0 : Setup where
  toLayout := processes
  data c := {a | a.toNat / 0x10000000 = dataRegion c}
  data_disjoint {c c' a} h h' := by
    have hregion : dataRegion c = dataRegion c' := h.symm.trans h'
    cases c <;> cases c' <;> first | rfl | exact absurd hregion (by decide)
  data_notMem_stack h _ := notMem_stack_of_dataRegion h
  slot_notMem_data c c' h := by
    cases c <;> cases c' <;> exact absurd h (by decide)
  stackEnd c := BitVec.ofNat 64 (c.base + 4096)
  entry := entryOf
  yieldRet _ := 2
  exitRet := 3
  mainRet := 4
  machine := machine0
  printFrame := 64
  room c _ := room_stackTop c
  room_main := room_machine0
  sp_main := by decide
  entry_ne c := by cases c <;> decide

/-! ## The output -/

/-- Two processes that print texts and yield print them in turns, whatever else they do, and then
    `main` says that it is done, and exits; and `process1` and `process2` are such processes. -/
theorem output_turns (P : Setup) (t : Tty) :
    (∀ {programs : Process → Program} {bufs bufs' : List Ptr},
      Prints P .process1 (programs .process1) ((Coroutines.start P t).view .process1) bufs →
      Prints P .process2 (programs .process2) ((Coroutines.start P t).view .process2) bufs' →
        (∃ es s, Trace (State.Step P programs) (State.start P t) es s ∧ s.exit = some 0) ∧
          ∀ es s, Trace (State.Step P programs) (State.start P t) es s →
            es.length ≤ 2 * (bufs.length + bufs'.length) + 2 ∧
            s.tty.output <+: t.output ++ (turns bufs bufs' ++ ascii "done\n") ∧
            (s.exit = none ∧ (∃ e s', State.Step P programs s e s') ∨
              s.exit = some 0 ∧ s.tty.output = t.output ++ (turns bufs bufs' ++ ascii "done\n"))) ∧
      (P.HasRoom .process1 ((Coroutines.start P t).view .process1).sp
          (max 12 (P.printWords (ascii "program 1\n"))) →
        Prints P .process1 (process1 (P.entry .process1)) ((Coroutines.start P t).view .process1)
          (List.replicate 4 (ascii "program 1\n"))) ∧
      (P.HasRoom .process2 ((Coroutines.start P t).view .process2).sp
          (max 12 (P.printWords (ascii "program 2\n"))) →
        Prints P .process2 (process2 (P.entry .process2)) ((Coroutines.start P t).view .process2)
          (List.replicate 4 (ascii "program 2\n"))) :=
  ⟨fun hprints hprints' => trace_turns P _ t hprints hprints', prints_start P t .process1 _,
    prints_start P t .process2 _⟩

/-- `process1` and `process2` print their texts in turns. -/
theorem output_turns_processes : ∃ es s,
    Trace (State.Step setup0 fun | .process1 => process1 0x90000000 | _ => process2 0x80000000)
      (State.start setup0 ⟨[], []⟩) es s ∧ s.exit = some 0 ∧
      s.tty.output = ascii ("program 1\nprogram 2\nprogram 1\nprogram 2\n" ++
        "program 1\nprogram 2\nprogram 1\nprogram 2\ndone\n") := by
  have hroom : ∀ c, setup0.HasRoom c ((Coroutines.start setup0 ⟨[], []⟩).view c).sp 66 := by
    intro c
    cases c <;> exact ⟨room_processes (by decide) (by decide) (by decide), by decide⟩
  obtain ⟨hturns, hprints, hprints'⟩ := output_turns setup0 ⟨[], []⟩
  obtain ⟨⟨es, s, h, hexit⟩, hall⟩ := @hturns
    (fun | .process1 => process1 0x90000000 | _ => process2 0x80000000) _ _
    (hprints (hroom .process1)) (hprints' (hroom .process2))
  refine ⟨es, s, h, hexit, ?_⟩
  obtain ⟨-, -, ⟨hexit', -⟩ | ⟨-, hout⟩⟩ := hall es s h
  · rw [hexit] at hexit'
    cases hexit'
  · exact hout.trans (by decide)

end Cs5600.Processes
