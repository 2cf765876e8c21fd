import Mathlib.Data.List.TakeWhile
import Mathlib.Data.UInt
import Mathlib.Logic.Function.Basic
import Mathlib.Tactic.Common

/-!
# Reading lines

`readline` of `part-1.c`, which reads bytes into a buffer until it is full or the line
ends, and then the rest of the line. That it has not ended is seen by the last byte
that was read, so the second loop may begin in the middle of a line, after its end, or
at the end of the input.

In all cases, it reads one line, and the next call reads the next one
(`readline_reads`).
-/

namespace Cs5600.Console

/-- The byte `'\n'`. -/
def newline : UInt8 := 10

/-- What a `read` gets before the end of the input: a byte, or an error. -/
inductive Outcome
  | byte (c : UInt8)
  | error

/-- Standard input, as what `read` gets one call after the other, and standard output. -/
structure Tty where
  input : List Outcome
  output : List UInt8

/-- What `read(0, &ch, 1)` returns. -/
inductive Read
  | byte (c : UInt8)
  | eof
  | error

/-- `read(0, &ch, 1)`. -/
def Tty.read (t : Tty) : Read × Tty :=
  match t.input with
  | [] => (.eof, t)
  | .byte c :: rest => (.byte c, { t with input := rest })
  | .error :: rest => (.error, { t with input := rest })

/-- `write(1, "Error reading input\n", 19)`, which leaves out the end of the line. -/
def Tty.readError (t : Tty) : Tty :=
  { t with output := t.output ++ "Error reading input".toUTF8.toList }

/-- The variables of `readline`. -/
structure Reading where
  buf : ℕ → UInt8
  i : ℕ
  ch : UInt8
  tty : Tty

/-- The first loop of `readline`, for at most this many more bytes. -/
def fill : ℕ → Reading → Reading
  | 0, r => r
  | n + 1, r =>
    match r.tty.read with
    | (.error, tty) => { r with tty := tty.readError }
    | (.eof, tty) => { r with tty }
    | (.byte ch, tty) =>
      if ch = newline then { r with ch, tty }
      else fill n { buf := Function.update r.buf r.i ch, i := r.i + 1, ch, tty }

/-- The second loop of `readline`: what is left of the input. -/
def skip (ch : UInt8) : List Outcome → List Outcome
  | [] => []
  | o :: rest =>
    if ch = newline then o :: rest
    else
      match o with
      | .byte ch => skip ch rest
      | .error => rest

/-- `readline`, with what is in the memory from `buf` on, and in `ch`, which is not initialized. -/
def readline (buf : ℕ → UInt8) (len : ℕ) (ch : UInt8) (tty : Tty) : (ℕ → UInt8) × Tty :=
  let r := fill (len - 1) { buf, i := 0, ch, tty }
  (Function.update r.buf r.i 0, { r.tty with input := skip r.ch r.tty.input })

/-- `do_readline` of `part-2.c`, which is the same. -/
def doReadline : (ℕ → UInt8) → ℕ → UInt8 → Tty → (ℕ → UInt8) × Tty := readline

/-! ## Lines -/

/-- The first line. -/
def line (s : List UInt8) : List UInt8 := s.takeWhile (· ≠ newline)

/-- What follows the first newline: nothing if there is none. -/
def afterLine (s : List UInt8) : List UInt8 := (s.dropWhile (· ≠ newline)).drop 1

/-- Bytes that are stored one after the other. -/
def put (buf : ℕ → UInt8) (i : ℕ) : List UInt8 → ℕ → UInt8
  | [] => buf
  | c :: l => put (Function.update buf i c) (i + 1) l

theorem put_apply (buf : ℕ → UInt8) (i : ℕ) (l : List UInt8) (j : ℕ) :
    put buf i l j = if i ≤ j ∧ j < i + l.length then l.getD (j - i) 0 else buf j := by
  induction l generalizing buf i with
  | nil => rw [put, if_neg (by rw [List.length_nil]; omega)]
  | cons c l ih =>
    rw [put, ih, List.length_cons]
    rcases lt_trichotomy j i with hj | rfl | hj
    · rw [if_neg (by omega), if_neg (by omega), Function.update_of_ne hj.ne]
    · rw [if_neg (by omega), if_pos (by omega), Function.update_self, Nat.sub_self]
      rfl
    · obtain ⟨d, rfl⟩ := Nat.exists_eq_add_of_lt hj
      rw [Function.update_of_ne hj.ne', show i + d + 1 - (i + 1) = d by omega,
        show i + d + 1 - i = d + 1 by omega, List.getD_cons_succ]
      exact if_congr (by omega) rfl rfl

theorem line_cons_of_ne {c : UInt8} (hc : c ≠ newline) (s : List UInt8) :
    line (c :: s) = c :: line s := List.takeWhile_cons_of_pos (by simpa using hc)

theorem afterLine_cons_of_ne {c : UInt8} (hc : c ≠ newline) (s : List UInt8) :
    afterLine (c :: s) = afterLine s := by
  rw [afterLine, List.dropWhile_cons_of_pos (by simpa using hc), afterLine]

theorem line_newline (s : List UInt8) : line (newline :: s) = [] :=
  List.takeWhile_cons_of_neg (by simp)

theorem afterLine_newline (s : List UInt8) : afterLine (newline :: s) = s := by
  rw [afterLine, List.dropWhile_cons_of_neg (by simp)]
  rfl

/-- The input that has these bytes. -/
def bytes (s : List UInt8) : List Outcome := s.map .byte

/-- In the middle of a line, the second loop reads the rest of it. -/
theorem skip_of_ne {ch : UInt8} (hch : ch ≠ newline) (s : List UInt8) :
    skip ch (bytes s) = bytes (afterLine s) := by
  induction s generalizing ch with
  | nil => rfl
  | cons c s ih =>
    rw [bytes, List.map_cons, skip, if_neg hch]
    by_cases hc : c = newline
    · subst hc
      rw [afterLine_newline]
      cases s with
      | nil => rfl
      | cons c s => exact if_pos rfl
    · rw [afterLine_cons_of_ne hc]
      exact ih hc

/-- At the end of a line, it reads nothing. -/
theorem skip_newline (s : List UInt8) : skip newline (bytes s) = bytes s := by
  cases s with
  | nil => rfl
  | cons c s => exact if_pos rfl

/-- The first loop stores the line, as far as there is room, and the second one reads the rest. -/
theorem fill_spec {n : ℕ} {r : Reading} {s : List UInt8} (hs : r.tty.input = bytes s)
    (hch : n = 0 → r.ch ≠ newline) :
    (fill n r).buf = put r.buf r.i ((line s).take n) ∧
      (fill n r).i = r.i + ((line s).take n).length ∧
      (fill n r).tty.output = r.tty.output ∧
      skip (fill n r).ch (fill n r).tty.input = bytes (afterLine s) := by
  induction n generalizing r s with
  | zero =>
    -- The buffer is full, in the middle of the line.
    refine ⟨rfl, rfl, rfl, ?_⟩
    rw [fill, hs]
    exact skip_of_ne (hch rfl) s
  | succ n ih =>
    cases s with
    | nil =>
      have hread : r.tty.read = (.eof, r.tty) := by
        rw [Tty.read, hs]
        rfl
      rw [fill, hread]
      refine ⟨rfl, rfl, rfl, ?_⟩
      dsimp only
      rw [hs]
      rfl
    | cons c s =>
      have hread : r.tty.read = (.byte c, { r.tty with input := bytes s }) := by
        rw [Tty.read, hs]
        rfl
      rw [fill, hread]
      dsimp only
      split_ifs with hc
      · -- The line has ended, so nothing is left to skip.
        subst hc
        rw [line_newline, afterLine_newline]
        exact ⟨rfl, rfl, rfl, skip_newline s⟩
      · obtain ⟨hbuf, hi, hout, hskip⟩ :=
          ih (r := ⟨Function.update r.buf r.i c, r.i + 1, c, { r.tty with input := bytes s }⟩)
            rfl fun _ => hc
        rw [line_cons_of_ne hc, afterLine_cons_of_ne hc, List.take_succ_cons, List.length_cons]
        refine ⟨hbuf, ?_, hout, hskip⟩
        rw [hi, Nat.add_assoc, Nat.add_comm 1]

/-! ## One call after the other -/

/-- What follows the first newlines, as many as given: nothing if there are fewer. -/
def afterLines (s : List UInt8) (k : ℕ) : List UInt8 := afterLine^[k] s

/-- The line of this number, from 0 on, which is empty if there are fewer. -/
def lineAt (s : List UInt8) (k : ℕ) : List UInt8 := (s.splitOn newline).getD k []

/-- The first of the lines is followed by the lines after it, unless it is the only one. -/
theorem exists_splitOn_eq (s : List UInt8) :
    ∃ more, s.splitOn newline = line s :: more ∧
      (more = (afterLine s).splitOn newline ∨ more = [] ∧ afterLine s = []) := by
  have hne : ∀ {l : List UInt8}, newline ∉ l → ∀ c ∈ l, decide (c ≠ newline) = true :=
    fun hl c hc => by simpa using ne_of_mem_of_not_mem hc hl
  by_cases h : newline ∈ s
  · obtain ⟨l, rest, rfl, hl⟩ := List.eq_append_cons_of_mem h
    have hline : line (l ++ newline :: rest) = l := by
      rw [line, List.takeWhile_append_of_pos (hne hl), ← line, line_newline, List.append_nil]
    have hafter : afterLine (l ++ newline :: rest) = rest := by
      rw [afterLine, List.dropWhile_append_of_pos (hne hl), ← afterLine, afterLine_newline]
    rw [hline, hafter]
    exact ⟨_, List.splitOn_append_cons_self_of_not_mem hl rest, .inl rfl⟩
  · rw [line, List.takeWhile_eq_self_iff.2 (hne h), afterLine, List.dropWhile_eq_nil_iff.2 (hne h)]
    exact ⟨[], List.splitOn_eq_singleton h, .inr ⟨rfl, rfl⟩⟩

theorem lineAt_zero_and_succ (s : List UInt8) :
    lineAt s 0 = line s ∧ ∀ k, lineAt s (k + 1) = lineAt (afterLine s) k := by
  obtain ⟨more, hsplit, hmore⟩ := exists_splitOn_eq s
  refine ⟨by rw [lineAt, hsplit, List.getD_cons_zero], fun k => ?_⟩
  rw [lineAt, hsplit, List.getD_cons_succ]
  rcases hmore with rfl | ⟨rfl, hafter⟩
  · rfl
  · rw [hafter, lineAt, List.splitOn_nil]
    cases k <;> rfl

theorem lineAt_eq (s : List UInt8) (k : ℕ) : lineAt s k = line (afterLines s k) := by
  induction k generalizing s with
  | zero => exact (lineAt_zero_and_succ s).1
  | succ k ih => rw [(lineAt_zero_and_succ s).2, ih, afterLines, afterLines, Function.iterate_succ_apply]

/-- A call of `readline`: its arguments, and what is in memory before. -/
structure Call where
  buf : ℕ → UInt8
  len : ℕ
  ch : UInt8

/-- Standard input and output after calls. -/
def after (f : (ℕ → UInt8) → ℕ → UInt8 → Tty → (ℕ → UInt8) × Tty) (t : Tty) (cs : List Call) : Tty :=
  cs.foldl (fun t c => (f c.buf c.len c.ch t).2) t

/-- A call reads the first line of the input. -/
theorem readline_spec {c : Call} (hlen : 2 ≤ c.len) (s out : List UInt8) :
    readline c.buf c.len c.ch ⟨bytes s, out⟩ =
      (Function.update (put c.buf 0 ((line s).take (c.len - 1))) ((line s).take (c.len - 1)).length 0,
        ⟨bytes (afterLine s), out⟩) := by
  obtain ⟨hbuf, hi, hout, hskip⟩ := fill_spec (n := c.len - 1)
    (r := ⟨c.buf, 0, c.ch, ⟨bytes s, out⟩⟩) (s := s) rfl fun h => absurd h (by omega)
  rw [Nat.zero_add] at hi
  rw [readline]
  dsimp only
  rw [hbuf, hi, hskip, hout]

/-- So calls read lines. -/
theorem after_readline {cs : List Call} (hlen : ∀ c ∈ cs, 2 ≤ c.len) (s out : List UInt8) :
    after readline ⟨bytes s, out⟩ cs = ⟨bytes (afterLines s cs.length), out⟩ := by
  induction cs generalizing s with
  | nil => rfl
  | cons c cs ih =>
    rw [after, List.foldl_cons, readline_spec (hlen c List.mem_cons_self), ← after,
      ih fun c hc => hlen c (List.mem_cons_of_mem _ hc)]
    rfl

/-- After calls that have read as many lines, a call stores the next line, as far as there is room, and
    a NUL. It writes nothing after that, and leaves the input after the line. -/
theorem readline_reads {f : (ℕ → UInt8) → ℕ → UInt8 → Tty → (ℕ → UInt8) × Tty}
    (hf : f = readline ∨ f = doReadline) (s out : List UInt8) (cs : List Call)
    (hcs : ∀ c ∈ cs, 2 ≤ c.len) (c : Call) (hlen : 2 ≤ c.len) :
    let l := (lineAt s cs.length).take (c.len - 1)
    let r := f c.buf c.len c.ch (after f ⟨bytes s, out⟩ cs)
    l.length = min (c.len - 1) (lineAt s cs.length).length ∧
      (∀ j < l.length, r.1 j = l.getD j 0) ∧ r.1 l.length = 0 ∧
      (∀ j, l.length < j → r.1 j = c.buf j) ∧ (∀ j, c.len ≤ j → r.1 j = c.buf j) ∧
      r.2 = ⟨bytes (afterLines s (cs.length + 1)), out⟩ := by
  obtain rfl : f = readline := hf.elim id id
  intro l r
  have hr : r = (Function.update (put c.buf 0 l) l.length 0,
      ⟨bytes (afterLines s (cs.length + 1)), out⟩) := by
    change readline c.buf c.len c.ch (after readline ⟨bytes s, out⟩ cs) = _
    rw [after_readline hcs, readline_spec hlen, ← lineAt_eq, afterLines, afterLines,
      Function.iterate_succ_apply']
  have hle : l.length = min (c.len - 1) (lineAt s cs.length).length := List.length_take
  have hval : ∀ j, r.1 j = Function.update (put c.buf 0 l) l.length 0 j :=
    congrFun (congrArg Prod.fst hr)
  have hbeyond : ∀ j, l.length < j → r.1 j = c.buf j := by
    intro j hj
    rw [hval, Function.update_of_ne hj.ne', put_apply, if_neg (by omega)]
  refine ⟨hle, fun j hj => ?_, ?_, hbeyond, fun j hj => hbeyond j (by omega), congrArg Prod.snd hr⟩
  · rw [hval, Function.update_of_ne hj.ne, put_apply, if_pos (by omega), Nat.sub_zero]
  · rw [hval, Function.update_self]

/-- The first call has no room for the first line, and the second one reads the last line, which has no
    newline. -/
theorem readline_reads_second :
    (readline (fun _ => 1) 8 0 (after readline ⟨bytes [97, 98, 10, 99], []⟩ [⟨fun _ => 1, 2, 0⟩])).2 =
      ⟨[], []⟩ :=
  (readline_reads (.inl rfl) [97, 98, 10, 99] [] [⟨fun _ => 1, 2, 0⟩] (by simp) ⟨fun _ => 1, 8, 0⟩
    (by decide)).2.2.2.2.2

end Cs5600.Console
