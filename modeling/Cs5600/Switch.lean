import Mathlib.Tactic.IntervalCases
import Cs5600.Interleave
import Cs5600.WordStack

/-!
# Context switches

`switch_to` of `switch.S` saves the registers of its caller on the stack and the
stack pointer in a location in memory, and goes on with another stack, on which
an earlier call has done the same, or which `setup_stack2` of `stack.c` has set up.
On top of a stack that can be switched to there is a flag, without which
`switch_to` halts.

A number of contexts run on their own stacks, and each has a location for its
stack pointer. The one that runs can do what it likes with registers, its own
stack and memory that is in no stack and no location, set up another one, or switch to
another one. Whatever they do, a switch to a context succeeds and finds the
registers as they were when it switched to another one, or as they were set up
(`switch_resumes`).
-/

namespace Cs5600.Switch

open WordStack

/-! ## The machine -/

/-- The registers other than `rsp`. -/
inductive Reg
  | rax
  | rbx
  | rbp
  | rdi
  | rsi
  | r12
  | r13
  | r14
  | r15
  deriving DecidableEq

/-- The stack pointer and the memory, the other registers, and where the machine is in the code. -/
structure Machine extends Stack where
  regs : Reg → Word
  rip : Word

namespace Machine

variable (m : Machine)

def set (r : Reg) (v : Word) : Machine := { m with regs := Function.update m.regs r v }

/-- `mov %rsp,(%r)`. -/
def storeSp (r : Reg) : Machine := { m with mem := Function.update m.mem (m.regs r) m.sp }

def push (r : Reg) : Machine := { m with toStack := m.toStack.push (m.regs r) }

def pop (r : Reg) : Machine :=
  { m with toStack := m.toStack.pop, regs := Function.update m.regs r (m.mem m.sp) }

/-- To push registers in order. -/
def pushAll (rs : List Reg) : Machine := rs.foldl push m

/-- To pop registers in order. -/
def popAll (rs : List Reg) : Machine := rs.foldl pop m

/-- `call`, of which only the return address matters. -/
def call (ret : Word) : Machine := { m with toStack := m.toStack.push ret }

def ret : Machine := { m with toStack := m.toStack.pop, rip := m.mem m.sp }

end Machine

/-! ## The code -/

/-- The flag on top of a stack that can be switched to. -/
def flag : Word := 0xA5A5A5A5A5A5A5A5

/-- The words in the guard zone. -/
def guardWord : Word := 0x3A3A3A3A3A3A3A3A

/-- `switch_to`, unless it halts. -/
def switchTo (m : Machine) : Option Machine :=
  let m := m.push .rbp
  let m := m.set .rbp m.sp
  -- debugging support
  let m := m.set .rax flag
  if m.mem (m.regs .rsi) = m.regs .rax then
    let m := m.pushAll [.rsi, .rdi, .rbx, .r12, .r13, .r14, .r15]
    let m := (m.set .rax flag).push .rax
    let m := if m.regs .rdi = 0 then m else m.storeSp .rdi
    -- the switch
    let m := { m with sp := m.regs .rsi }
    some (m.popAll [.rax, .r15, .r14, .r13, .r12, .rbx, .rdi, .rsi, .rbp]).ret
  else none

/-- The end of a stack, rounded down to a multiple of 16. -/
def stackTop (stack : Word) : Word := stack - (stack &&& 0x0F)

/-- `setup_stack2`: the resulting stack pointer, and the memory. -/
def setupStack2 (mem : Word → Word) (stack func arg1 arg2 : Word) : Stack :=
  (Stack.mk (stackTop stack) mem).pushAll
    [guardWord, guardWord, guardWord, func, stackTop stack, arg2, arg1, 0, 0, 0, 0, 0, flag]

/-- `setup_stack0`. -/
def setupStack0 (mem : Word → Word) (stack func : Word) : Stack := setupStack2 mem stack func 0 0

/-- `switch_to(&slot, target)`, with the address to return to. -/
def callSwitchTo (slot target ret : Word) (m : Machine) : Option Machine :=
  switchTo (((m.set .rdi slot).set .rsi target).call ret)

/-! ## What a switch does -/

/-- A context that does not run: its registers, with the stack pointer and the address to go on at. -/
structure Suspended where
  regs : Reg → Word
  sp : Word
  rip : Word

namespace Suspended

variable (p : Suspended)

/-- What is on its stack. -/
def frame : List Word :=
  [flag, p.regs .r15, p.regs .r14, p.regs .r13, p.regs .r12, p.regs .rbx, p.regs .rdi, p.regs .rsi,
    p.regs .rbp, p.rip]

/-- The address of the frame. -/
def top : Word := p.sp - 80

/-- It goes on. -/
def Resumed (m : Machine) : Prop := m.rip = p.rip ∧ m.sp = p.sp ∧ ∀ r, r ≠ .rax → m.regs r = p.regs r

end Suspended

variable {S T : Set Word} {m : Machine} {p : Suspended}

/-- To pop a frame restores the registers. -/
theorem resumed_popAll (h : m.toStack.Holds T p.frame) (hsp : m.sp = p.top) :
    p.Resumed (m.popAll [.rax, .r15, .r14, .r13, .r12, .rbx, .rdi, .rsi, .rbp]).ret := by
  obtain ⟨-, -, -, h15, -, h14, -, h13, -, h12, -, hbx, -, hdi, -, hsi, -, hbp, -, hret, -⟩ := h
  refine ⟨hret, ?_, fun r hr => ?_⟩
  · change m.sp + 8 + 8 + 8 + 8 + 8 + 8 + 8 + 8 + 8 + 8 = p.sp
    rw [hsp, Suspended.top]
    bv_omega
  · cases r with
    | rax => exact absurd rfl hr
    | rbx => exact hbx
    | rbp => exact hbp
    | rdi => exact hdi
    | rsi => exact hsi
    | r12 => exact h12
    | r13 => exact h13
    | r14 => exact h14
    | r15 => exact h15

theorem popAll_mem (rs : List Reg) : (m.popAll rs).mem = m.mem := by
  induction rs generalizing m with
  | nil => rfl
  | cons r rs ih => exact ih

/-- The caller of `switch_to`, which returns to `ret`. -/
def caller (m : Machine) (slot target ret : Word) : Suspended where
  regs := ((m.set .rdi slot).set .rsi target).regs
  sp := m.sp
  rip := ret

/-- A switch to a stack with a flag on top: what the caller has left on its own stack is its frame, and
    the stack pointer is in its location when the registers are popped. -/
theorem callSwitchTo_eq {slot target : Word} (ret : Word) (hroom : Room S m.sp 10) (htarget : target ∉ S)
    (hflag : m.mem target = flag) (hslot : slot ≠ 0) : ∃ m₁ : Machine,
      m₁.toStack = m.toStack.pushAll (caller m slot target ret).frame.reverse ∧
      callSwitchTo slot target ret m =
        some (({ m₁ with mem := Function.update m₁.mem slot m₁.sp, sp := target } : Machine).popAll
          [.rax, .r15, .r14, .r13, .r12, .rbx, .rdi, .rsi, .rbp]).ret := by
  -- The flag is looked at when the return address and `rbp` are on the stack.
  have hroom2 : Room S m.sp [ret, m.regs .rbp].length := ⟨hroom.1, hroom.2.1, trivial⟩
  have hmem : (m.toStack.pushAll [ret, m.regs .rbp]).mem target = flag :=
    (Stack.pushAll_mem hroom2 htarget).trans hflag
  let m₀ := ((m.set .rdi slot).set .rsi target).call ret |>.push .rbp
  let m₁ := ((m₀.set .rbp m₀.sp).set .rax flag).pushAll [.rsi, .rdi, .rbx, .r12, .r13, .r14, .r15]
  let m₂ := (m₁.set .rax flag).push .rax
  have hstored : (if m₂.regs .rdi = 0 then m₂ else m₂.storeSp .rdi) = m₂.storeSp .rdi :=
    if_neg hslot
  refine ⟨m₂, rfl, ?_⟩
  rw [callSwitchTo, switchTo]
  refine (if_pos hmem).trans ?_
  dsimp only
  rw [hstored]
  rfl

/-- A switch from a stack with room for a frame to another one, which has a frame, saves the caller and
    its stack pointer, and resumes the other one. -/
theorem callSwitchTo_resumes {slot : Word} (ret : Word) (hroom : Room S m.sp 10) (hdisj : ∀ a ∈ T, a ∉ S)
    (hS : slot ∉ S) (hT : slot ∉ T) (hslot : slot ≠ 0) (h : Words T m.mem p.top p.frame) :
    ∃ m', callSwitchTo slot p.top ret m = some m' ∧ p.Resumed m' ∧
      m'.mem slot = (caller m slot p.top ret).top ∧
      Words S m'.mem (caller m slot p.top ret).top (caller m slot p.top ret).frame ∧
      ∀ a, a ∉ S → a ≠ slot → m'.mem a = m.mem a := by
  obtain ⟨m₁, hstack, hcall⟩ := callSwitchTo_eq ret hroom (hdisj _ h.1) h.2.1 hslot
  have hsp : m₁.sp = (caller m slot p.top ret).top := by
    rw [hstack, Stack.pushAll_sp]
    rfl
  have hframe : m₁.toStack.Holds S (caller m slot p.top ret).frame := by
    have hpushed : (m.toStack.pushAll (caller m slot p.top ret).frame.reverse).Holds S
        ((caller m slot p.top ret).frame.reverse.reverse ++ []) := by
      refine Stack.Holds.pushAll trivial hroom ?_
      change 10 + 0 ≤ 2 ^ 60
      decide
    rwa [List.reverse_reverse, List.append_nil, ← hstack] at hpushed
  have hmem : ∀ a, a ∉ S → m₁.mem a = m.mem a := by
    intro a ha
    rw [hstack]
    exact Stack.pushAll_mem hroom ha
  -- The memory when the registers are popped, and afterwards.
  have hupdate : ∀ a, a ≠ slot → Function.update m₁.mem slot m₁.sp a = m₁.mem a :=
    fun a ha => Function.update_of_ne ha _ _
  have hpops : ∀ rs, ((Machine.popAll
      { m₁ with mem := Function.update m₁.mem slot m₁.sp, sp := p.top } rs).ret).mem =
        Function.update m₁.mem slot m₁.sp := fun rs => popAll_mem rs
  refine ⟨_, hcall, resumed_popAll (T := T) ?_ rfl, ?_, ?_, fun a ha hne => ?_⟩
  · refine Words.congr h fun a ha => ?_
    exact (hupdate a (ne_of_mem_of_not_mem ha hT)).trans (hmem a (hdisj a ha))
  · rw [hpops, Function.update_self, hsp]
  · rw [hpops, ← hsp]
    exact Words.congr hframe fun a ha => hupdate a (ne_of_mem_of_not_mem ha hS)
  · rw [hpops, hupdate a hne, hmem a ha]

/-! ## Fresh stacks -/

theorem stackTop_aligned (stack : Word) : (stackTop stack).toNat % 16 = 0 := by
  have hand : (stack &&& 0x0F).toNat = stack.toNat % 16 := Nat.and_two_pow_sub_one_eq_mod _ 4
  have hle : (stack &&& 0x0F).toNat ≤ stack.toNat := hand ▸ Nat.mod_le _ _
  rw [stackTop, BitVec.toNat_sub_of_le (BitVec.le_def.2 hle), hand]
  omega

/-- A context that is going to enter a function. -/
def fresh (stack func arg1 arg2 : Word) : Suspended where
  regs
    | .rdi => arg1
    | .rsi => arg2
    | .rbp => stackTop stack
    | _ => 0
  sp := stackTop stack - 24
  rip := func

/-- `setup_stack2` leaves the frame of a fresh context, and returns its address. -/
theorem setupStack2_fresh (mem : Word → Word) {stack : Word} (func arg1 arg2 : Word)
    (hroom : Room S (stackTop stack) 13) :
    (setupStack2 mem stack func arg1 arg2).sp = (fresh stack func arg1 arg2).top ∧
      Words S (setupStack2 mem stack func arg1 arg2).mem (fresh stack func arg1 arg2).top
        (fresh stack func arg1 arg2).frame ∧
      ∀ a, a ∉ S → (setupStack2 mem stack func arg1 arg2).mem a = mem a := by
  have hsp : (setupStack2 mem stack func arg1 arg2).sp = (fresh stack func arg1 arg2).top := by
    rw [setupStack2, Stack.pushAll_sp]
    change stackTop stack - BitVec.ofNat 64 104 = stackTop stack - 24 - 80
    bv_omega
  have hwords : (setupStack2 mem stack func arg1 arg2).Holds S
      ((fresh stack func arg1 arg2).frame ++ [guardWord, guardWord, guardWord] ++ []) := by
    refine Stack.Holds.pushAll trivial hroom ?_
    change 13 + 0 ≤ 2 ^ 60
    decide
  rw [Stack.Holds, hsp] at hwords
  exact ⟨hsp, hwords.left.left, fun a ha => Stack.pushAll_mem hroom ha⟩

/-! ## Contexts -/

variable {C : Type*}

/-- A context that does not run. -/
inductive Context
  /-- It has been set up by `setup_stack2`. -/
  | fresh (stack func arg1 arg2 : Word)
  /-- It has called `switch_to(slot, target)`, which returns to an address. -/
  | called (slot target ret : Word) (m : Machine)

namespace Context

/-- What it left on its stack. -/
def suspended : Context → Suspended
  | fresh stack func arg1 arg2 => Switch.fresh stack func arg1 arg2
  | called slot target ret m => caller m slot target ret

/-- It goes on as it should: it enters the function with its arguments, or returns from `switch_to`. -/
def Resumed : Context → Machine → Prop
  | fresh stack func arg1 arg2, m' =>
    m'.rip = func ∧ m'.regs .rdi = arg1 ∧ m'.regs .rsi = arg2 ∧ m'.regs .rbp = stackTop stack ∧
      (stackTop stack).toNat % 16 = 0 ∧ m'.sp.toNat % 16 = 8
  | called _ _ ret m, m' =>
    m'.rip = ret ∧ m'.sp = m.sp ∧
      ∀ r ∈ [Reg.rbp, .rbx, .r12, .r13, .r14, .r15], m'.regs r = m.regs r

theorem resumed {ctx : Context} {m' : Machine} (h : ctx.suspended.Resumed m') : ctx.Resumed m' := by
  obtain ⟨hrip, hsp, hregs⟩ := h
  cases ctx with
  | fresh stack func arg1 arg2 =>
    have htop := stackTop_aligned stack
    have hsp : m'.sp = stackTop stack - 24 := hsp
    refine ⟨hrip, hregs .rdi nofun, hregs .rsi nofun, hregs .rbp nofun, htop, ?_⟩
    rw [hsp]
    bv_omega
  | called slot target ret m =>
    refine ⟨hrip, hsp, fun r hr => ?_⟩
    have hne : r ≠ .rax ∧ r ≠ .rdi ∧ r ≠ .rsi := by
      refine ⟨?_, ?_, ?_⟩ <;> rintro rfl <;> exact absurd hr (by decide)
    refine (hregs r hne.1).trans ?_
    exact (Function.update_of_ne hne.2.2 _ _).trans (Function.update_of_ne hne.2.1 _ _)

end Context

/-- Where the stacks of contexts are, and the locations of their stack pointers. All are words of the
    memory, at multiples of 8. -/
structure Layout (C : Type*) where
  stack : C → Set Word
  slot : C → Word
  disjoint : ∀ {c c' a}, a ∈ stack c → a ∈ stack c' → c = c'
  slot_inj : Function.Injective slot
  slot_notMem : ∀ c c', slot c ∉ stack c'
  slot_ne_zero : ∀ c, slot c ≠ 0
  stack_aligned : ∀ c, ∀ a ∈ stack c, a.toNat % 8 = 0
  slot_aligned : ∀ c, (slot c).toNat % 8 = 0

/-- The machine and its contexts. -/
structure System (C : Type*) where
  machine : Machine
  running : C
  /-- The contexts that do not run, if they have been set up. -/
  context : C → Option Context
  halted : Bool

/-- What the running context does. -/
inductive Move (C : Type*)
  /-- It changes registers and memory. -/
  | compute (m : Machine)
  /-- It sets up the stack of another context, and keeps its stack pointer in the location of that. -/
  | setup (c : C) (stack func arg1 arg2 : Word)
  /-- It calls `switch_to`, with the stack pointer in the location of another context. -/
  | switch (c : C) (ret : Word)

namespace System

variable (L : Layout C)

/-- A context runs, and no other one has been set up. -/
def init (c : C) (m : Machine) : System C where
  machine := m
  running := c
  context _ := none
  halted := false

/-- What the running context may do. -/
def Admissible (s : System C) : Move C → Prop
  | .compute m => (∀ c, m.mem (L.slot c) = s.machine.mem (L.slot c)) ∧
      ∀ c, c ≠ s.running → ∀ a ∈ L.stack c, m.mem a = s.machine.mem a
  | .setup c stack _ _ _ => c ≠ s.running ∧ Room (L.stack c) (stackTop stack) 13
  | .switch c _ => c ≠ s.running ∧ (s.context c).isSome ∧
      Room (L.stack s.running) s.machine.sp 10

section Step

variable [DecidableEq C]

/-- A step of the running context. -/
def step (move : Move C) (_ : Unit) (s : System C) : System C :=
  match move with
  | .compute m => { s with machine := m }
  | .setup c stack func arg1 arg2 =>
    let new := setupStack2 s.machine.mem stack func arg1 arg2
    { s with
      machine := { s.machine with mem := Function.update new.mem (L.slot c) new.sp }
      context := Function.update s.context c (some (.fresh stack func arg1 arg2)) }
  | .switch c ret =>
    let slot := L.slot s.running
    let target := s.machine.mem (L.slot c)
    match callSwitchTo slot target ret s.machine with
    | none => { s with halted := true }
    | some m =>
      { s with
        machine := m
        running := c
        context := Function.update (Function.update s.context c none) s.running
          (some (.called slot target ret s.machine)) }

end Step

variable {L} {s : System C}

/-- The contexts that do not run have their frames on their stacks, and the addresses of these in
    their locations. -/
structure Inv (L : Layout C) (s : System C) : Prop where
  running : s.context s.running = none
  halted : s.halted = false
  saved : ∀ {c ctx}, s.context c = some ctx → s.machine.mem (L.slot c) = ctx.suspended.top
  frame : ∀ {c ctx}, s.context c = some ctx →
    Words (L.stack c) s.machine.mem ctx.suspended.top ctx.suspended.frame

theorem Inv.ne_running (h : s.Inv L) {c : C} {ctx : Context} (hctx : s.context c = some ctx) :
    c ≠ s.running := by
  rintro rfl
  rw [h.running] at hctx
  cases hctx

theorem Inv.compute (h : s.Inv L) {m : Machine}
    (hslot : ∀ c, m.mem (L.slot c) = s.machine.mem (L.slot c))
    (hstack : ∀ c, c ≠ s.running → ∀ a ∈ L.stack c, m.mem a = s.machine.mem a) :
    Inv L { s with machine := m } where
  running := h.running
  halted := h.halted
  saved hctx := (hslot _).trans (h.saved hctx)
  frame hctx := (h.frame hctx).congr (hstack _ (h.ne_running hctx))

theorem inv_init {c : C} {m : Machine} : (init c m).Inv L := ⟨rfl, rfl, nofun, nofun⟩

variable [DecidableEq C]

theorem Inv.setup (h : s.Inv L) {c : C} (hc : c ≠ s.running) {stack func arg1 arg2 : Word}
    (hroom : Room (L.stack c) (stackTop stack) 13) :
    (step L (.setup c stack func arg1 arg2) () s).Inv L := by
  obtain ⟨hsp, hwords, hmem⟩ :=
    setupStack2_fresh s.machine.mem func arg1 arg2 hroom
  have hstack : ∀ c', ∀ a ∈ L.stack c', Function.update (setupStack2 s.machine.mem stack func arg1
      arg2).mem (L.slot c) (setupStack2 s.machine.mem stack func arg1 arg2).sp a =
        (setupStack2 s.machine.mem stack func arg1 arg2).mem a :=
    fun c' a ha => Function.update_of_ne (ne_of_mem_of_not_mem ha (L.slot_notMem c c')) _ _
  -- The new context, or another one, whose stack and location do not change.
  have hcases : ∀ {c' ctx}, Function.update s.context c (some (.fresh stack func arg1 arg2)) c' =
      some ctx → c' = c ∧ ctx = .fresh stack func arg1 arg2 ∨ c' ≠ c ∧ s.context c' = some ctx := by
    intro c' ctx hctx
    by_cases hc' : c' = c
    · subst hc'
      rw [Function.update_self] at hctx
      exact .inl ⟨rfl, (Option.some.inj hctx).symm⟩
    · rw [Function.update_of_ne hc'] at hctx
      exact .inr ⟨hc', hctx⟩
  refine ⟨(Function.update_of_ne hc.symm _ _).trans h.running, h.halted, fun {c' ctx} hctx => ?_,
    fun {c' ctx} hctx => ?_⟩
  · rcases hcases hctx with ⟨rfl, rfl⟩ | ⟨hc', hctx⟩
    · exact (Function.update_self ..).trans hsp
    · have hne : L.slot c' ≠ L.slot c := fun he => hc' (L.slot_inj he)
      refine (Function.update_of_ne hne _ _).trans ?_
      exact (hmem _ (L.slot_notMem c' c)).trans (h.saved hctx)
  · rcases hcases hctx with ⟨rfl, rfl⟩ | ⟨hc', hctx⟩
    · exact hwords.congr (hstack c')
    · refine (h.frame hctx).congr fun a ha => (hstack c' a ha).trans (hmem a fun ha' => ?_)
      exact hc' (L.disjoint ha ha')

/-- A switch finds the frame of the context, and leaves that of the caller. -/
theorem Inv.switch (h : s.Inv L) {c : C} (hc : c ≠ s.running) {ctx : Context}
    (hctx : s.context c = some ctx) (hroom : Room (L.stack s.running) s.machine.sp 10) {ret : Word} :
    (step L (.switch c ret) () s).Inv L ∧ (step L (.switch c ret) () s).running = c ∧
      ctx.suspended.Resumed (step L (.switch c ret) () s).machine := by
  obtain ⟨m, hcall, hresumed, hsaved, hframe, hmem⟩ := callSwitchTo_resumes ret hroom
    (fun a ha ha' => hc (L.disjoint ha ha')) (L.slot_notMem s.running s.running)
    (L.slot_notMem s.running c) (L.slot_ne_zero s.running) (h.frame hctx)
  rw [← h.saved hctx] at hcall hsaved hframe
  have hstep : step L (.switch c ret) () s =
      { s with
        machine := m
        running := c
        context := Function.update (Function.update s.context c none) s.running
          (some (.called (L.slot s.running) (s.machine.mem (L.slot c)) ret s.machine)) } := by
    rw [step]
    simp only [hcall]
  -- The caller, or another context that does not run, whose stack and location do not change.
  have hcases : ∀ {c' ctx'}, Function.update (Function.update s.context c none) s.running
      (some (.called (L.slot s.running) (s.machine.mem (L.slot c)) ret s.machine)) c' = some ctx' →
        c' = s.running ∧ ctx' = .called (L.slot s.running) (s.machine.mem (L.slot c)) ret s.machine ∨
          c' ≠ s.running ∧ s.context c' = some ctx' := by
    intro c' ctx' hctx'
    by_cases hrun : c' = s.running
    · subst hrun
      rw [Function.update_self] at hctx'
      exact .inl ⟨rfl, (Option.some.inj hctx').symm⟩
    · rw [Function.update_of_ne hrun] at hctx'
      by_cases hc' : c' = c
      · subst hc'
        rw [Function.update_self] at hctx'
        cases hctx'
      · rw [Function.update_of_ne hc'] at hctx'
        exact .inr ⟨hrun, hctx'⟩
  rw [hstep]
  refine ⟨⟨?_, h.halted, fun {c' ctx'} hctx' => ?_, fun {c' ctx'} hctx' => ?_⟩, rfl, hresumed⟩
  · exact (Function.update_of_ne hc _ _).trans (Function.update_self ..)
  · rcases hcases hctx' with ⟨rfl, rfl⟩ | ⟨hrun, hctx'⟩
    · exact hsaved
    · have hne : L.slot c' ≠ L.slot s.running := fun he => hrun (L.slot_inj he)
      exact (hmem _ (L.slot_notMem c' s.running) hne).trans (h.saved hctx')
  · rcases hcases hctx' with ⟨rfl, rfl⟩ | ⟨hrun, hctx'⟩
    · exact hframe
    · refine (h.frame hctx').congr fun a ha => hmem a (fun ha' => hrun (L.disjoint ha ha')) ?_
      exact ne_of_mem_of_not_mem ha (L.slot_notMem s.running c')

theorem Inv.step (h : s.Inv L) {move : Move C} {u : Unit} (hmove : s.Admissible L move) :
    (System.step L move u s).Inv L := by
  cases move with
  | compute m => exact h.compute hmove.1 hmove.2
  | setup c stack func arg1 arg2 => exact h.setup hmove.1 hmove.2
  | switch c ret =>
    obtain ⟨hc, hsome, hroom⟩ := hmove
    obtain ⟨ctx, hctx⟩ := Option.isSome_iff_exists.1 hsome
    exact (h.switch hc hctx hroom).1

end System

/-- Whatever contexts do, when one of them switches to another one, the machine does not halt, and the
    other one goes on as it should. -/
theorem switch_resumes [DecidableEq C] (L : Layout C) {c₀ : C} {m₀ : Machine} {s : System C}
    (h : Interleave.Runs (System.step L) (System.Admissible L) (System.init c₀ m₀) s) {c : C}
    {ret : Word} (hmove : s.Admissible L (.switch c ret)) {ctx : Context}
    (hctx : s.context c = some ctx) :
    (System.step L (.switch c ret) () s).halted = false ∧
      (System.step L (.switch c ret) () s).running = c ∧
      ctx.Resumed (System.step L (.switch c ret) () s).machine := by
  have hinv : s.Inv L := by
    refine Interleave.Runs.invariant (I := System.Inv L) System.inv_init (fun s m u hs hm => ?_) h
    exact hs.step hm
  obtain ⟨hinv', hrunning, hresumed⟩ := hinv.switch hmove.1 hctx hmove.2.2
  exact ⟨hinv'.halted, hrunning, Context.resumed hresumed⟩

/-! ## The processes of `part-3.c` -/

/-- `main` and the two processes that it loads. -/
inductive Process
  | main
  | process1
  | process2
  deriving DecidableEq

/-- Where a stack of `STACK_SIZE` bytes begins. -/
def Process.base : Process → ℕ
  | main => 0x10000
  | process1 => 0x20000
  | process2 => 0x30000

/-- The stacks, with `s`, `s1` and `s2`. -/
def processes : Layout Process where
  stack c := {a | c.base ≤ a.toNat ∧ a.toNat < c.base + 4096 ∧ a.toNat % 8 = 0}
  slot
    | .main => 0x40000
    | .process1 => 0x40008
    | .process2 => 0x40010
  disjoint {c c' a} h h' := by
    obtain ⟨hle, hlt, -⟩ := h
    obtain ⟨hle', hlt', -⟩ := h'
    cases c <;> cases c' <;> first | rfl | (simp only [Process.base] at hle hlt hle' hlt'; omega)
  slot_inj c c' h := by
    cases c <;> cases c' <;> first | rfl | exact absurd h (by decide)
  slot_notMem c c' h := by
    obtain ⟨-, hlt, -⟩ := h
    cases c <;> cases c' <;> exact absurd hlt (by decide)
  slot_ne_zero c := by cases c <;> decide
  stack_aligned _ _ h := h.2.2
  slot_aligned c := by cases c <;> decide

/-- `main` is about to set up the stacks. -/
def machine0 : Machine where
  sp := 0x11000
  mem _ := 0
  regs _ := 0
  rip := 0

theorem room_processes {c : Process} {a : Word} {n : ℕ} (hle : c.base + 8 * n ≤ a.toNat)
    (hlt : a.toNat ≤ c.base + 4096) (h8 : a.toNat % 8 = 0) : Room (processes.stack c) a n := by
  induction n generalizing a with
  | zero => trivial
  | succ n ih =>
    have hsub : (a - 8).toNat = a.toNat - 8 := by bv_omega
    refine ⟨⟨?_, ?_, ?_⟩, ih ?_ ?_ ?_⟩ <;> rw [hsub] <;> omega

/-- `main` sets up the stacks of the processes, as long as it does not switch. -/
def setups : List (Move Process × Unit) :=
  [(.setup .process1 0x21000 0x90000000 0 0, ()), (.setup .process2 0x31000 0x80000000 0 0, ())]

/-- The first process enters its function. -/
theorem switch_resumes_process1 :
    (System.step processes (.switch .process1 1) ()
      (Interleave.exec (System.step processes) (System.init .main machine0) setups)).machine.rip =
        0x90000000 := by
  have hroom : ∀ {c : Process}, Room (processes.stack c) (BitVec.ofNat 64 (c.base + 4096)) 13 := by
    intro c
    cases c <;> exact room_processes (by decide) (by decide) (by decide)
  have hmove : System.Admissible processes
      (Interleave.exec (System.step processes) (System.init .main machine0) setups)
      (.switch .process1 1) :=
    ⟨nofun, rfl, room_processes (c := .main) (a := 0x11000) (by decide) (by decide) (by decide)⟩
  refine (switch_resumes processes (Interleave.runs_exec _ setups fun k hk => ?_) hmove rfl).2.2.1
  change k < 2 at hk
  interval_cases k
  · exact ⟨nofun, hroom⟩
  · exact ⟨nofun, hroom⟩

end Cs5600.Switch
