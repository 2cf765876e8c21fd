import Cs5600.CommandLine
import Cs5600.Ugrep

/-!
# Programs that read commands

The `main` functions of `part-1.c`, which prints the lines that it reads, and of `part-2.c`, which
executes them. They read lines into a buffer, and end when one of them is `quit`.

What the first one prints are the texts of the lines before (`echo_exits_iff`). The second one
cuts lines into words, and calls the programs that these name, which read the same input
and find the words with `getarg`. A `Session` says what its user sees, without buffers and pointers:
the words of a line, and what a program makes of them and of the lines after it. The shell exits
exactly as its sessions do (`shell_session`); in particular, it does not exit when the
input ends (`shell_endless`).
-/

namespace Cs5600.Shell

open CText Console CommandLine
open Loads (Ptr)
open Ugrep (ascii doPrint)

/-! ## The buffer -/

/-- `BUFFER_SIZE`. -/
def bufferSize : ℕ := 200

/-- The array `buffer`, as a pointer to it. -/
def array (buffer : ℕ → UInt8) : Ptr := (List.range bufferSize).map buffer

/-- The line that ends a program. -/
def quit : List UInt8 := ascii "quit"

/-- Whether `buffer` has that line. -/
def isQuit (buffer : ℕ → UInt8) : Prop :=
  buffer 0 = 'q'.toUInt8 ∧ buffer 1 = 'u'.toUInt8 ∧ buffer 2 = 'i'.toUInt8 ∧
    buffer 3 = 't'.toUInt8 ∧ buffer 4 = 0

instance (buffer : ℕ → UInt8) : Decidable (isQuit buffer) := inferInstanceAs (Decidable (_ ∧ _))

/-- What `buffer` has of the first line: as many bytes as there is room for, up to a NUL. -/
def command (s : List UInt8) : List UInt8 := cString ((line s).take (bufferSize - 1))

theorem nul_notMem_command (s : List UInt8) : 0 ∉ command s := nul_notMem_cString _

/-- An array that bytes and a NUL have been stored in. -/
theorem exists_map_put (buf : ℕ → UInt8) {l : List UInt8} {size : ℕ} (hl : l.length < size) :
    ∃ tail, (List.range size).map (Function.update (put buf 0 l) l.length 0) = l ++ 0 :: tail := by
  obtain ⟨d, rfl⟩ := Nat.exists_eq_add_of_lt hl
  rw [Nat.add_assoc, List.range_add, List.map_append, List.range_succ_eq_map, List.map_cons,
    List.map_cons, Nat.add_zero, Function.update_self]
  refine ⟨_, congrArg (· ++ _) (List.ext_getElem ?_ fun j _ hj => ?_)⟩
  · rw [List.length_map, List.length_range]
  · rw [List.getElem_map, List.getElem_range, Function.update_of_ne hj.ne, put_apply,
      if_pos (by omega), Nat.sub_zero, List.getD_eq_getElem _ _ hj]

/-- `readline` leaves the line in `buffer`, and a NUL after it. -/
theorem exists_readline (buffer : ℕ → UInt8) (ch : UInt8) (s out : List UInt8) :
    ∃ buffer' tail, readline buffer bufferSize ch ⟨bytes s, out⟩ =
        (buffer', ⟨bytes (afterLine s), out⟩) ∧ array buffer' = command s ++ 0 :: tail := by
  have hl : ((line s).take (bufferSize - 1)).length < bufferSize :=
    (List.length_take_le _ _).trans_lt (by decide)
  have hread := readline_spec (c := ⟨buffer, bufferSize, ch⟩) (Nat.le_add_left 2 198) s out
  obtain ⟨tail, harray⟩ := exists_map_put buffer hl
  obtain ⟨rest, hrest⟩ := exists_eq_cString_append
    (length_cString_lt (List.mem_append_right ((line s).take (bufferSize - 1)) List.mem_cons_self))
  rw [cString_append_cons _ tail] at hrest
  exact ⟨_, rest, hread, harray.trans hrest⟩

/-- Whether the line is `quit` is seen from its bytes. -/
theorem isQuit_iff {buffer : ℕ → UInt8} {s tail : List UInt8} (h : array buffer = s ++ 0 :: tail)
    (hs : 0 ∉ s) : isQuit buffer ↔ s = quit := by
  have hfirst : (array buffer).take 5 = [buffer 0, buffer 1, buffer 2, buffer 3, buffer 4] := rfl
  have hiff : isQuit buffer ↔ (array buffer).take 5 = quit ++ [0] := by
    rw [hfirst, isQuit]
    change _ ↔ _ = ['q'.toUInt8, 'u'.toUInt8, 'i'.toUInt8, 't'.toUInt8, 0]
    simp only [List.cons.injEq, and_true]
  rw [hiff, h]
  constructor
  · intro he
    -- Both have the same C string.
    have hsplit := List.take_append_drop 5 (s ++ 0 :: tail)
    rw [he, List.append_assoc] at hsplit
    rw [← cString_append_nul hs, ← hsplit]
    exact cString_append_nul (by decide)
  · rintro rfl
    rfl

/-! ## Printing lines -/

/-- `main` of `part-1.c`, which exits, for fewer than this many lines. The calls of `readline` find
    this in its variable `ch`. -/
def echo (ch : ℕ → UInt8) : ℕ → (ℕ → UInt8) → Tty → Option Tty
  | 0, _, _ => none
  | n + 1, buffer, t =>
    let (buffer, t) := readline buffer bufferSize (ch n) (doPrint (ascii "Enter String: ") t)
    if isQuit buffer then some t
    else
      echo ch n buffer
        (doPrint (ascii "\n") (doPrint (array buffer) (doPrint (ascii "Output: ") t)))

/-- What is printed of a line. -/
def echoed (l : List UInt8) : List UInt8 :=
  ascii "Enter String: " ++ (ascii "Output: " ++ (cString (l.take (bufferSize - 1)) ++ ascii "\n"))

/-- The text of a line is `quit`. -/
def IsQuit (s : List UInt8) (k : ℕ) : Prop := cString ((lineAt s k).take (bufferSize - 1)) = quit

instance (s : List UInt8) (k : ℕ) : Decidable (IsQuit s k) := inferInstanceAs (Decidable (_ = _))

theorem isQuit_zero {s : List UInt8} : IsQuit s 0 ↔ command s = quit := by
  rw [IsQuit, (lineAt_zero_and_succ s).1, command]

theorem isQuit_succ {s : List UInt8} {k : ℕ} : IsQuit s (k + 1) ↔ IsQuit (afterLine s) k := by
  rw [IsQuit, IsQuit, (lineAt_zero_and_succ s).2]

/-- A step of the loop. -/
theorem exists_echo_eq (ch : ℕ → UInt8) (n : ℕ) (buffer : ℕ → UInt8) (s out : List UInt8) :
    ∃ buffer', echo ch (n + 1) buffer ⟨bytes s, out⟩ =
      if IsQuit s 0 then some ⟨bytes (afterLine s), out ++ ascii "Enter String: "⟩
      else echo ch n buffer' ⟨bytes (afterLine s), out ++ echoed (lineAt s 0)⟩ := by
  obtain ⟨buffer', tail, hread, harray⟩ :=
    exists_readline buffer (ch n) s (out ++ ascii "Enter String: ")
  refine ⟨buffer', ?_⟩
  rw [echo, doPrint, cString_eq_self (by decide), hread]
  dsimp only
  rw [if_congr ((isQuit_iff harray (nul_notMem_command s)).trans isQuit_zero.symm) rfl rfl]
  refine if_congr Iff.rfl rfl ?_
  rw [doPrint, doPrint, doPrint, harray, cString_append_nul (nul_notMem_command s),
    cString_eq_self (by decide), cString_eq_self (by decide), echoed, (lineAt_zero_and_succ s).1,
    ← command]
  simp only [List.append_assoc]

/-- The program exits at the first line that is `quit`, if there is one: it has printed the lines
    before, and reads no further. -/
theorem echo_exits_iff (ch : ℕ → UInt8) (n : ℕ) (buffer : ℕ → UInt8) (s out : List UInt8) (t : Tty) :
    echo ch n buffer ⟨bytes s, out⟩ = some t ↔ ∃ k < n, (∀ j < k, ¬ IsQuit s j) ∧ IsQuit s k ∧
      t = ⟨bytes (afterLines s (k + 1)),
        out ++ (List.range k).flatMap (fun j => echoed (lineAt s j)) ++ ascii "Enter String: "⟩ := by
  induction n generalizing buffer s out with
  | zero =>
    refine iff_of_false (fun h => by cases h) ?_
    rintro ⟨k, hk, -⟩
    exact Nat.not_lt_zero k hk
  | succ n ih =>
    obtain ⟨buffer', hstep⟩ := exists_echo_eq ch n buffer s out
    rw [hstep]
    by_cases hquit : IsQuit s 0
    · rw [if_pos hquit]
      constructor
      · rintro h
        obtain rfl := Option.some.inj h
        exact ⟨0, n.succ_pos, fun j hj => absurd hj j.not_lt_zero, hquit, by simp [afterLines]⟩
      · rintro ⟨k, -, hnot, -, rfl⟩
        cases k with
        | zero => simp [afterLines]
        | succ k => exact absurd hquit (hnot 0 k.succ_pos)
    · -- The line is printed, and the other ones have been shifted by one.
      have hlines : ∀ k, (List.range (k + 1)).flatMap (fun j => echoed (lineAt s j)) =
          echoed (lineAt s 0) ++ (List.range k).flatMap fun j => echoed (lineAt (afterLine s) j) := by
        intro k
        rw [List.range_succ_eq_map, List.flatMap_cons, List.flatMap_map]
        simp only [(lineAt_zero_and_succ s).2]
      rw [if_neg hquit, ih]
      constructor
      · rintro ⟨k, hk, hnot, hquit', rfl⟩
        refine ⟨k + 1, Nat.succ_lt_succ hk, fun j hj => ?_, isQuit_succ.2 hquit', ?_⟩
        · cases j with
          | zero => exact hquit
          | succ j => exact mt isQuit_succ.1 (hnot j (Nat.lt_of_succ_lt_succ hj))
        · rw [hlines, ← List.append_assoc out]
          rfl
      · rintro ⟨k, hk, hnot, hquit', rfl⟩
        cases k with
        | zero => exact absurd hquit' hquit
        | succ k =>
          refine ⟨k, Nat.lt_of_succ_lt_succ hk, fun j hj => ?_, isQuit_succ.1 hquit', ?_⟩
          · exact mt isQuit_succ.2 (hnot (j + 1) (Nat.succ_lt_succ hj))
          · rw [hlines, ← List.append_assoc out]
            rfl

/-! ## Arguments -/

/-- The arguments that a line stands for: its words, as many as there is room for. What follows the
    last one of these is a part of it. -/
def arguments (s : List UInt8) : List (List UInt8) :=
  ((words s).take maxArgs).mapIdx fun k w => if k + 1 = maxArgs then w ++ afterWords maxArgs s else w

/-- The pointers that `getarg` returns point to these arguments. -/
def Represents (getarg : ℕ → Option Ptr) (args : List (List UInt8)) : Prop :=
  ∀ k, (∀ a, args[k]? = some a → 0 ∉ a ∧ ∃ tail, getarg k = some (a ++ 0 :: tail)) ∧
    (args[k]? = none → getarg k = none)

/-- `getarg` of a program: `do_getarg`, with the pointers that `split` has left. -/
def getarg (r : Result) (k : ℕ) : Option Ptr := (doGetarg r k).map fun p => r.line.drop p

/-- `split` keeps the NUL at the end of the line, and its pointers are before that. -/
theorem exists_splitLoop_line (n i : ℕ) (argv : ℕ → ℕ) (before : List UInt8) {s : List UInt8}
    (h0 : 0 ∉ s) (tail : List UInt8) :
    (∃ s', (splitLoop n i argv before (s ++ 0 :: tail)).line = s' ++ 0 :: tail ∧
      s'.length = before.length + s.length) ∧
    ∀ j, i ≤ j → j < (splitLoop n i argv before (s ++ 0 :: tail)).argc →
      (splitLoop n i argv before (s ++ 0 :: tail)).argv j < before.length + s.length := by
  induction n generalizing i argv before s with
  | zero =>
    refine ⟨⟨before ++ s, ?_, List.length_append⟩, fun j hij hj => absurd hj (Nat.not_lt.2 hij)⟩
    rw [splitLoop, List.append_assoc]
  | succ n ih =>
    rw [splitLoop, skipBlanks_append h0 tail]
    dsimp only
    have hlength : (s.takeWhile blank).length + (s.dropWhile blank).length = s.length := by
      rw [← List.length_append, List.takeWhile_append_dropWhile]
    cases hrest : s.dropWhile blank with
    | nil =>
      rw [hrest, List.length_nil] at hlength
      refine ⟨⟨before ++ List.replicate (s.takeWhile blank).length 0, rfl, ?_⟩,
        fun j hij hj => absurd hj (Nat.not_lt.2 hij)⟩
      rw [List.length_append, List.length_replicate]
      omega
    | cons c cs =>
      have hsub : ∀ b ∈ c :: cs, b ∈ s := fun b hb => (List.dropWhile_suffix blank).subset (hrest ▸ hb)
      have hc0 : c ≠ 0 := ne_of_mem_of_not_mem (hsub c List.mem_cons_self) h0
      have hc : blank c = false := by
        have hnot := List.head?_dropWhile_not blank s
        rw [hrest] at hnot
        simpa using hnot
      have h0 : 0 ∉ c :: cs := fun h => h0 (hsub 0 h)
      obtain ⟨w, s', hsplit, hw, hs', -, -, -⟩ := exists_word hc cs
      rw [List.cons_append, List.getD_cons_zero, if_neg hc0, ← List.cons_append,
        skipWord_append h0 tail, hw, hs']
      rw [hsplit, List.mem_append, not_or] at h0
      rw [hrest, hsplit, List.length_append] at hlength
      have hne : 0 < (w ++ s').length := by
        rw [← hsplit]
        exact Nat.succ_pos _
      rw [List.length_append] at hne
      have hbefore : (before ++ List.replicate (s.takeWhile blank).length 0).length =
          before.length + (s.takeWhile blank).length := by
        rw [List.length_append, List.length_replicate]
      dsimp only
      generalize before ++ List.replicate (s.takeWhile blank).length 0 = before' at hbefore ⊢
      obtain ⟨⟨s'', hline, hs''⟩, hargv⟩ :=
        ih (i + 1) (Function.update argv i before'.length) (before' ++ w) h0.2
      rw [List.length_append] at hs''
      refine ⟨⟨s'', hline, by omega⟩, fun j hij hj => ?_⟩
      rcases Nat.eq_or_lt_of_le hij with rfl | hij
      · -- This pointer is not changed any more.
        rw [(splitLoop_leaves n (i + 1) _ _ h0.2 tail).argv i i.lt_succ_self, Function.update_self,
          hbefore]
        omega
      · have hlt := hargv j hij hj
        rw [List.length_append] at hlt
        omega

/-- The arguments of a program are those of the line. -/
theorem split_represents (argv : ℕ → ℕ) {s : List UInt8} (h0 : 0 ∉ s) (tail : List UInt8) :
    let r := split argv maxArgs (s ++ 0 :: tail)
    r.argc = (arguments s).length ∧ Represents (getarg r) (arguments s) := by
  intro r
  obtain ⟨hargc, -, -, hstring⟩ := splitLoop_leaves maxArgs 0 argv [] h0 tail
  obtain ⟨⟨s', hline, hs'⟩, hargv⟩ := exists_splitLoop_line maxArgs 0 argv [] h0 tail
  change r.argc = _ at hargc
  change r.line = _ at hline
  change ∀ j, 0 ≤ j → j < r.argc → r.argv j < _ at hargv
  change ∀ k (hk : k < (words s).length), k < maxArgs → r.string (r.argv (0 + k)) = _ at hstring
  simp only [Nat.zero_add] at hargc hstring
  have hlength : (arguments s).length = r.argc := by
    rw [arguments, List.length_mapIdx, List.length_take, hargc]
  refine ⟨hlength.symm, fun k => ⟨fun a ha => ?_, fun hnone => ?_⟩⟩
  · have hk : k < r.argc := hlength ▸ (List.getElem?_eq_some_iff.1 ha).1
    -- The C string at the pointer is the argument, and it has a NUL after it.
    have hvalue : r.string (r.argv k) = a := by
      rw [arguments, List.getElem?_mapIdx, List.getElem?_take_of_lt (by omega),
        List.getElem?_eq_getElem (by omega), Option.map_some] at ha
      rw [hstring k (by omega) (by omega), ← Option.some.inj ha]
      split_ifs
      · rfl
      · exact List.append_nil _
    have hnul : 0 ∈ r.line.drop (r.argv k) := by
      have hlt := hargv k k.zero_le hk
      rw [hline, List.drop_append_of_le_length (by omega)]
      exact List.mem_append_right _ List.mem_cons_self
    obtain ⟨rest, hrest⟩ := exists_eq_cString_append (length_cString_lt hnul)
    rw [← Result.string, hvalue] at hrest
    refine ⟨hvalue ▸ nul_notMem_cString _, rest, ?_⟩
    rw [getarg, doGetarg, if_neg (Nat.not_le.2 hk), Option.map_some, hrest]
  · rw [getarg, doGetarg, if_pos (hlength ▸ List.getElem?_eq_none_iff.1 hnone)]
    rfl

/-! ## The shell -/

/-- A program that is called, if it returns: with `getarg`, standard input and output, and a number
    that limits its steps. -/
abbrev Prog := ℕ → (ℕ → Option Ptr) → Tty → Option Tty

/-- `main` of `part-2.c`, which exits with a number, for fewer than this many lines. `exec_file` opens
    files by name, and exits if there is none. -/
def shell (files : List UInt8 → Option Prog) (ch : ℕ → UInt8) :
    ℕ → (ℕ → UInt8) → (ℕ → ℕ) → Tty → Option (ℤ × Tty)
  | 0, _, _, _ => none
  | n + 1, buffer, argv, t =>
    let (buffer, t) := doReadline buffer bufferSize (ch n) (doPrint (ascii "Input: ") t)
    if buffer 0 = 0 then shell files ch n buffer argv t
    else if isQuit buffer then some (0, t)
    else
      let r := split argv maxArgs (array buffer)
      let buffer := fun i => r.line.getD i (buffer i)
      if r.argc = 0 then shell files ch n buffer r.argv t
      else
        match files (r.string (r.argv 0)) with
        | none => some (1, doPrint (ascii "Error opening file\n") t)
        | some prog => (prog n (getarg r) t).bind (shell files ch n buffer r.argv)

/-- What a program does, if it returns: given its arguments and what there is to read, what is left to
    read, and what is printed. -/
abbrev Behaviour := List (List UInt8) → List UInt8 → Option (List UInt8 × List UInt8)

/-- A program behaves so. -/
structure Does (prog : Prog) (b : Behaviour) : Prop where
  sound : ∀ {getarg args n s out t}, Represents getarg args →
    prog n getarg ⟨bytes s, out⟩ = some t →
      ∃ rest o, b args s = some (rest, o) ∧ t = ⟨bytes rest, out ++ o⟩
  returns : ∀ {args s rest o}, b args s = some (rest, o) → ∃ m, ∀ n, m ≤ n → ∀ getarg out,
    Represents getarg args → prog n getarg ⟨bytes s, out⟩ = some ⟨bytes rest, out ++ o⟩

/-- What the user sees, from what there is to read until the shell exits: the number, what is left
    to read, and what is printed. -/
inductive Session (programs : List UInt8 → Option Behaviour) :
    List UInt8 → ℤ → List UInt8 → List UInt8 → Prop
  /-- A line without words. -/
  | blank {s rest o : List UInt8} {code : ℤ} : words (command s) = [] →
      Session programs (afterLine s) code rest o →
      Session programs s code rest (ascii "Input: " ++ o)
  | quit {s : List UInt8} : command s = quit →
      Session programs s 0 (afterLine s) (ascii "Input: ")
  /-- The first word is not the name of a program. -/
  | missing {s name : List UInt8} {args : List (List UInt8)} : command s ≠ Shell.quit →
      arguments (command s) = name :: args → programs name = none →
      Session programs s 1 (afterLine s) (ascii "Input: " ++ ascii "Error opening file\n")
  /-- A program is called, and returns. -/
  | run {s name rest o rest' o' : List UInt8} {args : List (List UInt8)} {b : Behaviour} {code : ℤ} :
      command s ≠ Shell.quit → arguments (command s) = name :: args → programs name = some b →
      b (name :: args) (afterLine s) = some (rest, o) → Session programs rest code rest' o' →
      Session programs s code rest' (ascii "Input: " ++ (o ++ o'))

section Shell

variable {files : List UInt8 → Option Prog} {programs : List UInt8 → Option Behaviour}
  (hfiles : ∀ name, Option.Rel Does (files name) (programs name)) (ch : ℕ → UInt8)

theorem arguments_eq_nil {s : List UInt8} : arguments s = [] ↔ words s = [] := by
  rw [← List.length_eq_zero_iff, arguments, List.length_mapIdx, List.length_take,
    ← List.length_eq_zero_iff, maxArgs]
  omega

/-- A step of the loop, for every number that limits it. -/
theorem exists_shell_eq (files : List UInt8 → Option Prog) (ch : ℕ → UInt8) (n : ℕ)
    (buffer : ℕ → UInt8) (argv : ℕ → ℕ) (s out : List UInt8) :
    ∃ buffer' argv' getarg, Represents getarg (arguments (command s)) ∧
      shell files ch (n + 1) buffer argv ⟨bytes s, out⟩ =
        if command s = quit then some (0, ⟨bytes (afterLine s), out ++ ascii "Input: "⟩)
        else
          match arguments (command s) with
          | [] => shell files ch n buffer' argv' ⟨bytes (afterLine s), out ++ ascii "Input: "⟩
          | name :: _ =>
            match files name with
            | none => some (1, ⟨bytes (afterLine s),
                out ++ (ascii "Input: " ++ ascii "Error opening file\n")⟩)
            | some prog => (prog n getarg ⟨bytes (afterLine s), out ++ ascii "Input: "⟩).bind
                (shell files ch n buffer' argv') := by
  obtain ⟨buffer', tail, hread, harray⟩ :=
    exists_readline buffer (ch n) s (out ++ ascii "Input: ")
  have hnul := nul_notMem_command s
  obtain ⟨hargc, hrepresents⟩ := split_represents argv hnul tail
  have hquit := isQuit_iff harray hnul
  have hzero : buffer' 0 = (command s).headD 0 := by
    have hfirst : (array buffer').headD 0 = buffer' 0 := rfl
    rw [← hfirst, harray]
    cases command s <;> rfl
  rw [shell, doPrint, cString_eq_self (by decide), doReadline, hread]
  dsimp only
  rw [harray]
  generalize hr : split argv maxArgs (command s ++ 0 :: tail) = r at hargc hrepresents ⊢
  by_cases hempty : command s = []
  · -- The buffer is empty.
    refine ⟨buffer', argv, _, hrepresents, ?_⟩
    rw [if_pos (by rw [hzero, hempty]; rfl), if_neg (by rw [hempty]; decide), hempty]
    rfl
  · have hne : buffer' 0 ≠ 0 := by
      obtain ⟨c, cs, hcons⟩ := List.exists_cons_of_ne_nil hempty
      rw [hzero, hcons, List.headD_cons]
      rintro rfl
      exact hnul (hcons ▸ List.mem_cons_self)
    refine ⟨fun i => r.line.getD i (buffer' i), r.argv, _, hrepresents, ?_⟩
    rw [if_neg hne, if_congr hquit rfl rfl]
    refine if_congr Iff.rfl rfl ?_
    cases hargs : arguments (command s) with
    | nil =>
      rw [hargs, List.length_nil] at hargc
      rw [if_pos hargc]
    | cons name args =>
      rw [hargs] at hrepresents
      rw [hargs, List.length_cons] at hargc
      obtain ⟨hname, rest, hfirst⟩ := (hrepresents 0).1 name rfl
      have hstring : r.string (r.argv 0) = name := by
        rw [getarg, doGetarg, if_neg (by rw [hargc]; exact Nat.not_succ_le_zero _)] at hfirst
        have hdrop : r.line.drop (r.argv 0) = name ++ 0 :: rest := Option.some.inj hfirst
        rw [Result.string, hdrop, cString_append_nul hname]
      rw [if_neg (by rw [hargc]; exact Nat.succ_ne_zero _), hstring]
      dsimp only
      cases files name with
      | none =>
        dsimp only
        rw [doPrint, cString_eq_self (by decide), List.append_assoc]
      | some prog => rfl

include hfiles

theorem session_of_shell {buffer : ℕ → UInt8} {argv : ℕ → ℕ} {s out : List UInt8} {n : ℕ} {code : ℤ}
    {t : Tty} (h : shell files ch n buffer argv ⟨bytes s, out⟩ = some (code, t)) :
    ∃ rest o, t = ⟨bytes rest, out ++ o⟩ ∧ Session programs s code rest o := by
  induction n generalizing buffer argv s out with
  | zero => cases h
  | succ n ih =>
    obtain ⟨buffer', argv', getarg, hrepresents, hstep⟩ := exists_shell_eq files ch n buffer argv s out
    rw [hstep] at h
    split_ifs at h with hquit
    · obtain ⟨rfl, rfl⟩ := Prod.mk.inj (Option.some.inj h)
      exact ⟨_, _, rfl, .quit hquit⟩
    · cases hargs : arguments (command s) with
      | nil =>
        rw [hargs] at h
        obtain ⟨rest, o, rfl, hsession⟩ := ih h
        exact ⟨rest, _, by rw [List.append_assoc], .blank (arguments_eq_nil.1 hargs) hsession⟩
      | cons name args =>
        have hrel := hfiles name
        rw [hargs] at h hrepresents
        dsimp only at h
        cases hname : files name with
        | none =>
          rw [hname] at h hrel
          obtain ⟨rfl, rfl⟩ := Prod.mk.inj (Option.some.inj h)
          refine ⟨_, _, rfl, .missing hquit hargs ?_⟩
          generalize programs name = b at hrel
          cases hrel
          rfl
        | some prog =>
          rw [hname] at h hrel
          generalize hb : programs name = b at hrel
          cases hrel with
          | some hdoes =>
            obtain ⟨t', ht', h⟩ := Option.bind_eq_some_iff.1 h
            obtain ⟨rest, o, hbehaves, rfl⟩ := hdoes.sound hrepresents ht'
            obtain ⟨rest', o', rfl, hsession⟩ := ih h
            refine ⟨rest', _, ?_, .run hquit hargs hb hbehaves hsession⟩
            simp only [List.append_assoc]

theorem shell_of_session {s rest o : List UInt8} {code : ℤ} (h : Session programs s code rest o) :
    ∃ m, ∀ n, m ≤ n → ∀ buffer argv out,
      shell files ch n buffer argv ⟨bytes s, out⟩ = some (code, ⟨bytes rest, out ++ o⟩) := by
  -- One line more than what follows it takes.
  have hsucc : ∀ {m n}, m + 1 ≤ n → ∃ n', n = n' + 1 ∧ m ≤ n' := fun h =>
    ⟨_, (Nat.succ_pred (by omega)).symm, Nat.le_pred_of_lt h⟩
  induction h with
  | @blank s rest o code hwords _ ih =>
    obtain ⟨m, hm⟩ := ih
    refine ⟨m + 1, fun n hn buffer argv out => ?_⟩
    obtain ⟨n, rfl, hmn⟩ := hsucc hn
    obtain ⟨buffer', argv', getarg, -, hstep⟩ := exists_shell_eq files ch n buffer argv s out
    have hquit : command s ≠ quit := fun he => by
      rw [he] at hwords
      exact absurd hwords (by decide)
    rw [hstep, if_neg hquit, arguments_eq_nil.2 hwords]
    dsimp only
    rw [hm n hmn, List.append_assoc]
  | @quit s hquit =>
    refine ⟨1, fun n hn buffer argv out => ?_⟩
    obtain ⟨n, rfl, -⟩ := hsucc hn
    obtain ⟨buffer', argv', getarg, -, hstep⟩ := exists_shell_eq files ch n buffer argv s out
    rw [hstep, if_pos hquit]
  | @missing s name args hquit hargs hnone =>
    refine ⟨1, fun n hn buffer argv out => ?_⟩
    obtain ⟨n, rfl, -⟩ := hsucc hn
    obtain ⟨buffer', argv', getarg, -, hstep⟩ := exists_shell_eq files ch n buffer argv s out
    have hrel := hfiles name
    rw [hnone] at hrel
    rw [hstep, if_neg hquit, hargs]
    dsimp only
    generalize files name = prog at hrel ⊢
    cases hrel
    rfl
  | @run s name rest o rest' o' args b code hquit hargs hsome hb _ ih =>
    obtain ⟨m, hm⟩ := ih
    have hrel := hfiles name
    rw [hsome] at hrel
    cases hname : files name with
    | none =>
      rw [hname] at hrel
      cases hrel
    | some prog =>
      rw [hname] at hrel
      cases hrel with
      | some hdoes =>
        obtain ⟨m', hm'⟩ := hdoes.returns hb
        refine ⟨max m m' + 1, fun n hn buffer argv out => ?_⟩
        obtain ⟨n, rfl, hmn⟩ := hsucc hn
        obtain ⟨buffer', argv', getarg, hrepresents, hstep⟩ :=
          exists_shell_eq files ch n buffer argv s out
        rw [hargs] at hrepresents
        rw [hstep, if_neg hquit, hargs]
        dsimp only
        rw [hname]
        dsimp only
        rw [hm' n ((Nat.le_max_right ..).trans hmn) _ _ hrepresents, Option.bind_some,
          hm n ((Nat.le_max_left ..).trans hmn)]
        simp only [List.append_assoc]

/-- The shell exits as its sessions do. -/
theorem exists_shell_iff (buffer : ℕ → UInt8) (argv : ℕ → ℕ) (s out : List UInt8) (code : ℤ)
    (t : Tty) :
    (∃ n, shell files ch n buffer argv ⟨bytes s, out⟩ = some (code, t)) ↔
      ∃ rest o, t = ⟨bytes rest, out ++ o⟩ ∧ Session programs s code rest o := by
  constructor
  · rintro ⟨n, h⟩
    exact session_of_shell hfiles ch h
  · rintro ⟨rest, o, rfl, h⟩
    obtain ⟨m, hm⟩ := shell_of_session hfiles ch h
    exact ⟨m, hm m (Nat.le_refl m) buffer argv out⟩

omit hfiles in
theorem not_session_nil {rest o : List UInt8} {code : ℤ} : ¬ Session programs [] code rest o := by
  have hnil : ∀ {s}, Session programs s code rest o → s ≠ [] := by
    intro s h
    induction h with
    | blank _ _ ih => exact fun hs => ih (by rw [hs]; rfl)
    | quit hquit =>
      rintro rfl
      exact absurd hquit (by decide)
    | missing _ hargs _ =>
      rintro rfl
      cases hargs
    | run _ hargs _ _ _ _ =>
      rintro rfl
      cases hargs
  exact fun h => hnil h rfl

/-- When the input has ended, the shell goes on without end. -/
theorem shell_endless (n : ℕ) (buffer : ℕ → UInt8) (argv : ℕ → ℕ) (out : List UInt8) :
    shell files ch n buffer argv ⟨bytes [], out⟩ = none := by
  rw [Option.eq_none_iff_forall_ne_some]
  rintro ⟨code, t⟩ h
  obtain ⟨rest, o, -, hsession⟩ := session_of_shell hfiles ch h
  exact not_session_nil hsession

end Shell

/-! ## Programs -/

/-- `hello.c`. -/
def hello : Prog := fun _ _ t => some (doPrint (ascii "Hello world!\n") t)

/-- `wait.c`, which only takes time. -/
def wait : Prog := fun _ _ t => some t

/-- `ugrep.c`, with what is in `buf` and in the variable `ch` of `readline` before. -/
def ugrep (ch buf : ℕ → UInt8) : Prog := fun n getarg t => Ugrep.main getarg ch n buf t

/-- The programs that there are, by the names of their files. -/
def files (ch buf : ℕ → UInt8) (name : List UInt8) : Option Prog :=
  if name = ascii "hello" then some hello
  else if name = ascii "wait" then some wait
  else if name = ascii "ugrep" then some (ugrep ch buf)
  else none

/-- With a pattern as its only argument, `ugrep` shows the texts up to the first blank line in which
    it occurs. -/
def searches : Behaviour
  | [_, pattern], s =>
    some (afterLines s ((Ugrep.texts s).length + 1),
      ascii "ugrep: enter blank line to quit\n" ++ (Ugrep.texts s).flatMap (Ugrep.shown pattern))
  | _, s => some (s, ascii "usage: uprog <pattern>\n")

/-- What the programs do. -/
def programs (name : List UInt8) : Option Behaviour :=
  if name = ascii "hello" then some fun _ s => some (s, ascii "Hello world!\n")
  else if name = ascii "wait" then some fun _ s => some (s, [])
  else if name = ascii "ugrep" then some searches
  else none

theorem hello_does : Does hello fun _ s => some (s, ascii "Hello world!\n") where
  sound {_ _ _ s out t} _ h := by
    obtain rfl := Option.some.inj h
    exact ⟨s, _, rfl, by rw [doPrint, cString_eq_self (by decide)]⟩
  returns {_ s rest o} h := by
    obtain ⟨rfl, rfl⟩ := Prod.mk.inj (Option.some.inj h)
    exact ⟨0, fun n _ _ out _ => by rw [hello, doPrint, cString_eq_self (by decide)]⟩

theorem wait_does : Does wait fun _ s => some (s, []) where
  sound {_ _ _ s out t} _ h := by
    obtain rfl := Option.some.inj h
    exact ⟨s, [], rfl, by rw [List.append_nil]⟩
  returns {_ s rest o} h := by
    obtain ⟨rfl, rfl⟩ := Prod.mk.inj (Option.some.inj h)
    exact ⟨0, fun n _ _ out _ => by rw [wait, List.append_nil]⟩

/-- If the loop of `ugrep` ends, it has read the lines up to the first blank one. -/
theorem eq_of_searchLines {pattern : List UInt8} (hp : 0 ∉ pattern) (tail : List UInt8)
    (ch : ℕ → UInt8) {n : ℕ} {buf : ℕ → UInt8} {s out : List UInt8} {t : Tty}
    (h : Ugrep.searchLines (pattern ++ 0 :: tail) ch n buf ⟨bytes s, out⟩ = some t) :
    t = ⟨bytes (afterLines s ((Ugrep.texts s).length + 1)),
      out ++ (Ugrep.texts s).flatMap (Ugrep.shown pattern)⟩ := by
  induction n generalizing buf s out with
  | zero => cases h
  | succ n ih =>
    obtain ⟨buf', hstep⟩ := Ugrep.exists_searchLines_eq hp tail ch n buf s out
    rw [hstep] at h
    rw [Ugrep.texts_eq]
    split_ifs at h ⊢
    · obtain rfl := Option.some.inj h
      rw [List.flatMap_nil, List.append_nil]
      rfl
    · rw [ih h, List.flatMap_cons, List.append_assoc]
      rfl

/-- With other arguments, `ugrep` says how it is used. -/
theorem ugrep_usage {ch buf : ℕ → UInt8} {n : ℕ} {getarg : ℕ → Option Ptr} {args : List (List UInt8)}
    (h : Represents getarg args) (hargs : ∀ name pattern, args ≠ [name, pattern]) (t : Tty) :
    ugrep ch buf n getarg t = some (doPrint (ascii "usage: uprog <pattern>\n") t) := by
  rw [ugrep, Ugrep.main]
  rcases args with _ | ⟨name, _ | ⟨pattern, _ | ⟨a, rest⟩⟩⟩
  · rw [(h 1).2 rfl]
  · rw [(h 1).2 rfl]
  · exact absurd rfl (hargs name pattern)
  · obtain ⟨-, tail, hthird⟩ := (h 2).1 a rfl
    rw [hthird]
    cases getarg 1 <;> rfl

theorem searches_usage {args : List (List UInt8)} (hargs : ∀ name pattern, args ≠ [name, pattern])
    (s : List UInt8) : searches args s = some (s, ascii "usage: uprog <pattern>\n") := by
  rw [searches]
  exact fun name pattern he => hargs name pattern he

theorem ugrep_does (ch buf : ℕ → UInt8) : Does (ugrep ch buf) searches where
  sound {getarg args n s out t} hrepresents h := by
    by_cases hargs : ∀ name pattern, args ≠ [name, pattern]
    · rw [ugrep_usage hrepresents hargs, doPrint, cString_eq_self (by decide)] at h
      obtain rfl := Option.some.inj h
      exact ⟨s, _, searches_usage hargs s, rfl⟩
    · push Not at hargs
      obtain ⟨name, pattern, rfl⟩ := hargs
      obtain ⟨hp, tail, hsecond⟩ := (hrepresents 1).1 pattern rfl
      rw [ugrep, Ugrep.main, hsecond, (hrepresents 2).2 rfl] at h
      dsimp only at h
      rw [doPrint, cString_eq_self (by decide)] at h
      refine ⟨_, _, rfl, ?_⟩
      rw [eq_of_searchLines hp tail ch h, List.append_assoc]
  returns {args s rest o} h := by
    by_cases hargs : ∀ name pattern, args ≠ [name, pattern]
    · rw [searches_usage hargs] at h
      obtain ⟨rfl, rfl⟩ := Prod.mk.inj (Option.some.inj h)
      refine ⟨0, fun n _ getarg out hrepresents => ?_⟩
      rw [ugrep_usage hrepresents hargs, doPrint, cString_eq_self (by decide)]
    · push Not at hargs
      obtain ⟨name, pattern, rfl⟩ := hargs
      obtain ⟨rfl, rfl⟩ := Prod.mk.inj (Option.some.inj h)
      refine ⟨(Ugrep.texts s).length + 1, fun n hn getarg out hrepresents => ?_⟩
      obtain ⟨hp, tail, hsecond⟩ := (hrepresents 1).1 pattern rfl
      rw [ugrep, Ugrep.main_prints hp tail ch hsecond ((hrepresents 2).2 rfl) hn buf out,
        List.append_assoc]

/-- The programs do what they should. -/
theorem files_does (ch buf : ℕ → UInt8) (name : List UInt8) :
    Option.Rel Does (files ch buf name) (programs name) := by
  rw [files, programs]
  split_ifs
  · exact .some hello_does
  · exact .some wait_does
  · exact .some (ugrep_does ch buf)
  · exact .none

end Cs5600.Shell
