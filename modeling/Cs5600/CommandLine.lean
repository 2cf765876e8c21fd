import Cs5600.CText

/-!
# Splitting a command line

`split` of `part-2.c`, which cuts a line into words where it is in memory, and
`do_getarg`, which gives a program the words. Blanks are overwritten with NULs while
the next word is looked for, so the last word is cut off only if one looks for
another one after it.

The words are those of the line if there are fewer than there is room for, or if
nothing follows the last one (`split_yields_iff`). Otherwise the last argument goes
on to the end of the line.
-/

namespace Cs5600.CommandLine

open CText

/-- The characters between words. -/
def blank (c : UInt8) : Bool := c == 32 || c == 9 || c == 10

/-- The inner loop of `split` that overwrites blanks: what it makes of them, and the rest of memory. -/
def skipBlanks : List UInt8 → List UInt8 × List UInt8
  | [] => ([], [])
  | c :: cs =>
    if c ≠ 0 ∧ blank c then
      let (zeros, rest) := skipBlanks cs
      (0 :: zeros, rest)
    else ([], c :: cs)

/-- The inner loop of `split` that goes over a word: the word, and the rest of memory. -/
def skipWord : List UInt8 → List UInt8 × List UInt8
  | [] => ([], [])
  | c :: cs =>
    if c ≠ 0 ∧ !blank c then
      let (word, rest) := skipWord cs
      (c :: word, rest)
    else ([], c :: cs)

/-- What `split` returns, and what it leaves in `argv` and in the memory from `line` on. A pointer is
    the distance from `line`. -/
structure Result where
  argc : ℕ
  argv : ℕ → ℕ
  line : List UInt8

/-- The outer loop of `split`, for at most this many more words. The pointer `p` is between the parts
    of memory. -/
def splitLoop : ℕ → ℕ → (ℕ → ℕ) → List UInt8 → List UInt8 → Result
  | 0, i, argv, before, after => ⟨i, argv, before ++ after⟩
  | n + 1, i, argv, before, after =>
    let (zeros, after) := skipBlanks after
    let before := before ++ zeros
    if after.getD 0 0 = 0 then ⟨i, argv, before ++ after⟩
    else
      let (word, after) := skipWord after
      splitLoop n (i + 1) (Function.update argv i before.length) (before ++ word) after

/-- `split`, with what is in `argv` and in the memory from `line` on. -/
def split (argv : ℕ → ℕ) (maxArgc : ℕ) (line : List UInt8) : Result :=
  splitLoop maxArgc 0 argv [] line

/-- `MAX_ARGS`. -/
def maxArgs : ℕ := 10

/-- `do_getarg` after `split`: a pointer, or NULL. -/
def doGetarg (r : Result) (i : ℕ) : Option ℕ := if r.argc ≤ i then none else some (r.argv i)

/-- The string at a pointer. -/
def Result.string (r : Result) (p : ℕ) : List UInt8 := cString (r.line.drop p)

/-! ## Words -/

/-- The words of a line: its maximal runs of characters that are no blanks. -/
def words (s : List UInt8) : List (List UInt8) := (s.splitOnP blank).filter (· ≠ [])

/-- What follows the first words, as many as given. -/
def afterWords : ℕ → List UInt8 → List UInt8
  | 0, s => s
  | n + 1, s => afterWords n ((s.dropWhile blank).dropWhile fun c => !blank c)

theorem words_nil : words [] = [] := by
  rw [words, List.splitOnP_nil]
  rfl

theorem words_cons_blank {c : UInt8} (hc : blank c = true) (s : List UInt8) :
    words (c :: s) = words s := by
  have hsplit := List.splitOnP_append_cons (p := blank) [] s hc
  rw [List.nil_append, List.splitOnP_nil] at hsplit
  rw [words, hsplit]
  rfl

/-- The first word is followed by a blank, or by nothing. -/
theorem words_append {w s : List UInt8} (hw : ∀ c ∈ w, blank c = false) (hne : w ≠ [])
    (hs : ∀ c ∈ s.head?, blank c = true) : words (w ++ s) = w :: words s := by
  cases s with
  | nil =>
    rw [List.append_nil, words, List.splitOnP_eq_singleton hw, words_nil,
      List.filter_cons_of_pos (by simpa using hne)]
    rfl
  | cons c s =>
    have hc : blank c = true := hs c rfl
    rw [words, List.splitOnP_append_cons_of_forall_mem hw c hc,
      List.filter_cons_of_pos (by simpa using hne), ← words, words_cons_blank hc]

theorem words_dropWhile (s : List UInt8) : words (s.dropWhile blank) = words s := by
  induction s with
  | nil => rfl
  | cons c s ih =>
    by_cases hc : blank c = true
    · rw [List.dropWhile_cons_of_pos hc, ih, words_cons_blank hc]
    · rw [List.dropWhile_cons_of_neg hc]

/-! ## The loops -/

section Loops

variable {s : List UInt8} (h0 : 0 ∉ s) (tail : List UInt8)
include h0

theorem skipBlanks_append : skipBlanks (s ++ 0 :: tail) =
    (List.replicate (s.takeWhile blank).length 0, s.dropWhile blank ++ 0 :: tail) := by
  induction s with
  | nil => rfl
  | cons c s ih =>
    obtain ⟨hc0, h0⟩ := not_or.1 (List.mem_cons.not.1 h0)
    rw [List.cons_append, skipBlanks]
    by_cases hc : blank c = true
    · rw [if_pos ⟨Ne.symm hc0, hc⟩, ih h0, List.takeWhile_cons_of_pos hc,
        List.dropWhile_cons_of_pos hc]
      rfl
    · rw [if_neg fun h => hc h.2, List.takeWhile_cons_of_neg hc, List.dropWhile_cons_of_neg hc]
      rfl

theorem skipWord_append : skipWord (s ++ 0 :: tail) =
    (s.takeWhile fun c => !blank c, (s.dropWhile fun c => !blank c) ++ 0 :: tail) := by
  induction s with
  | nil => rfl
  | cons c s ih =>
    obtain ⟨hc0, h0⟩ := not_or.1 (List.mem_cons.not.1 h0)
    rw [List.cons_append, skipWord]
    by_cases hc : (!blank c) = true
    · rw [if_pos ⟨Ne.symm hc0, hc⟩, ih h0, List.takeWhile_cons_of_pos (p := fun c => !blank c) hc,
        List.dropWhile_cons_of_pos (p := fun c => !blank c) hc]
    · rw [if_neg fun h => hc h.2, List.takeWhile_cons_of_neg (p := fun c => !blank c) hc,
        List.dropWhile_cons_of_neg (p := fun c => !blank c) hc]
      rfl

end Loops

theorem cString_replicate_append (k : ℕ) {bytes : List UInt8} (h : bytes.head? = some 0) :
    cString (List.replicate k 0 ++ bytes) = [] := by
  cases k with
  | zero =>
    cases bytes with
    | nil => cases h
    | cons c bytes =>
      obtain rfl := Option.some.inj h
      rfl
  | succ k => rfl

/-- The first word of a line that does not begin with a blank. -/
theorem exists_word {c : UInt8} (hc : blank c = false) (cs : List UInt8) :
    ∃ w s', c :: cs = w ++ s' ∧ (c :: cs).takeWhile (fun c => !blank c) = w ∧
      (c :: cs).dropWhile (fun c => !blank c) = s' ∧ (∀ b ∈ w, blank b = false) ∧ w ≠ [] ∧
        ∀ b ∈ s'.head?, blank b = true := by
  refine ⟨_, _, List.takeWhile_append_dropWhile.symm, rfl, rfl, fun b hb => ?_, ?_, fun b hb => ?_⟩
  · simpa using List.mem_takeWhile_imp hb
  · rw [List.takeWhile_cons_of_pos (by simp [hc])]
    exact List.cons_ne_nil _ _
  · have hnot := List.head?_dropWhile_not (fun c => !blank c) (c :: cs)
    rw [Option.mem_def.1 hb] at hnot
    simpa using hnot

/-- What the loop leaves, if `p` is at `s`: the words from there on, of which the last one is not cut
    off if there is no room for more. -/
structure Leaves (r : Result) (n i : ℕ) (argv : ℕ → ℕ) (before s : List UInt8) : Prop where
  argc : r.argc = i + min n (words s).length
  argv : ∀ j < i, r.argv j = argv j
  line : ∃ suf, r.line = before ++ suf ∧
    ((∀ c ∈ s.head?, blank c = true) → cString suf = if n = 0 then s else [])
  string : ∀ k (hk : k < (words s).length), k < n →
    r.string (r.argv (i + k)) = (words s)[k] ++ if k + 1 = n then afterWords n s else []

/-- The loop records a word, and goes on after it. -/
theorem Leaves.cons {r : Result} {n i zeros : ℕ} {argv : ℕ → ℕ} {before s s' w : List UInt8}
    (h : Leaves r n (i + 1)
      (Function.update argv i (before ++ List.replicate zeros 0).length)
      (before ++ List.replicate zeros 0 ++ w) s')
    (hwords : words s = w :: words s') (hw : 0 ∉ w) (hhead : ∀ b ∈ s'.head?, blank b = true)
    (hafter : afterWords (n + 1) s = afterWords n s')
    (hzeros : (∀ c ∈ s.head?, blank c = true) → zeros ≠ 0) : Leaves r (n + 1) i argv before s := by
  obtain ⟨hargc, hargv, ⟨suf, hline, hsuf⟩, hstring⟩ := h
  refine ⟨?_, fun j hj => ?_, ⟨List.replicate zeros 0 ++ (w ++ suf), ?_, fun hs => ?_⟩,
    fun k hk hkn => ?_⟩
  · rw [hargc, hwords, List.length_cons]
    omega
  · rw [hargv j (Nat.lt_succ_of_lt hj), Function.update_of_ne hj.ne]
  · rw [hline, List.append_assoc, List.append_assoc]
  · obtain ⟨k, hk⟩ := Nat.exists_eq_succ_of_ne_zero (hzeros hs)
    rw [hk]
    rfl
  · cases k with
    | zero =>
      -- The word begins where the loop went over the blanks, and what follows is known.
      have hpointer : r.argv (i + 0) = (before ++ List.replicate zeros 0).length := by
        rw [Nat.add_zero, hargv i i.lt_succ_self, Function.update_self]
      have hfirst : (words s)[0] = w := by simp only [hwords, List.getElem_cons_zero]
      rw [Result.string, hpointer, hline, List.append_assoc, List.drop_left,
        cString_append_of_notMem hw, hsuf hhead, hfirst, hafter]
      rw [Nat.zero_add]
      refine congrArg _ ?_
      cases n with
      | zero => rfl
      | succ n => rw [if_neg (Nat.succ_ne_zero n), if_neg (by omega)]
    | succ k =>
      have hk' : k < (words s').length := by
        rw [hwords, List.length_cons] at hk
        omega
      have hnext : (words s)[k + 1] = (words s')[k] := by simp only [hwords, List.getElem_cons_succ]
      have hlater := hstring k hk' (by omega)
      rw [Nat.add_right_comm, Nat.add_assoc] at hlater
      rw [hlater, hnext, hafter]
      exact congrArg _ (if_congr (by omega) rfl rfl)

theorem splitLoop_leaves (n i : ℕ) (argv : ℕ → ℕ) (before : List UInt8) {s : List UInt8} (h0 : 0 ∉ s)
    (tail : List UInt8) :
    Leaves (splitLoop n i argv before (s ++ 0 :: tail)) n i argv before s := by
  induction n generalizing i argv before s with
  | zero =>
    refine ⟨by rw [Nat.zero_min]; rfl, fun _ _ => rfl, ⟨_, rfl, fun _ => ?_⟩, fun k _ hk => ?_⟩
    · exact cString_append_nul h0
    · exact absurd hk (Nat.not_lt_zero k)
  | succ n ih =>
    rw [splitLoop, skipBlanks_append h0 tail]
    dsimp only
    have hwords := words_dropWhile s
    have hafter : afterWords (n + 1) s =
        afterWords n ((s.dropWhile blank).dropWhile fun c => !blank c) := rfl
    cases hrest : s.dropWhile blank with
    | nil =>
      -- There are no more words, and `p` is at the end of the line.
      rw [hrest, words_nil] at hwords
      refine ⟨?_, fun _ _ => rfl, ⟨_, List.append_assoc _ _ _, fun _ => ?_⟩, fun k hk => ?_⟩
      · rw [← hwords]
        rfl
      · exact cString_replicate_append _ rfl
      · rw [← hwords] at hk
        exact absurd hk (Nat.not_lt_zero k)
    | cons c cs =>
      have hsub : ∀ b ∈ c :: cs, b ∈ s := fun b hb => (List.dropWhile_suffix blank).subset (hrest ▸ hb)
      have hc0 : c ≠ 0 := ne_of_mem_of_not_mem (hsub c List.mem_cons_self) h0
      have hc : blank c = false := by
        have hnot := List.head?_dropWhile_not blank s
        rw [hrest] at hnot
        simpa using hnot
      have h0 : 0 ∉ c :: cs := fun h => h0 (hsub 0 h)
      rw [List.cons_append, List.getD_cons_zero, if_neg hc0, ← List.cons_append,
        skipWord_append h0 tail]
      rw [hrest] at hwords hafter
      obtain ⟨w, s', hsplit, hw, hs', hblank, hne, hhead⟩ := exists_word hc cs
      rw [hw, hs']
      rw [hs'] at hafter
      have hcons : words s = w :: words s' := by
        rw [← hwords, hsplit, words_append hblank hne hhead]
      rw [hsplit, List.mem_append, not_or] at h0
      refine (ih (i + 1) _ _ h0.2).cons hcons (fun h => h0.1 h) hhead hafter fun hs => ?_
      -- A line that begins with a blank has a NUL there.
      cases s with
      | nil => cases hrest
      | cons b s => rw [List.takeWhile_cons_of_pos (hs b rfl)]; exact Nat.succ_ne_zero _

/-! ## The arguments of a program -/

/-- `split` returns how many words there are, as far as there is room, and leaves the words at its
    pointers; `do_getarg` gives these, and NULL after the last one. -/
structure Yields (maxArgc : ℕ) (s : List UInt8) (r : Result) : Prop where
  argc : r.argc = min maxArgc (words s).length
  argv : ∀ k (hk : k < (words s).length), k < r.argc → r.string (r.argv k) = (words s)[k]
  getarg : ∀ k, (doGetarg r k).map r.string = ((words s).take maxArgc)[k]?

/-- `split` yields the words of a line if and only if there is room for more, or nothing follows the
    last word that there is room for. -/
theorem split_yields_iff (argv : ℕ → ℕ) {maxArgc : ℕ} (hmax : 1 ≤ maxArgc) {s : List UInt8}
    (h0 : 0 ∉ s) (tail : List UInt8) :
    Yields maxArgc s (split argv maxArgc (s ++ 0 :: tail)) ↔
      (words s).length < maxArgc ∨ afterWords maxArgc s = [] := by
  obtain ⟨hargc, _, _, hstring⟩ := splitLoop_leaves maxArgc 0 argv [] h0 tail
  rw [← split] at hargc hstring
  generalize split argv maxArgc (s ++ 0 :: tail) = r at hargc hstring ⊢
  simp only [Nat.zero_add] at hargc hstring
  constructor
  · rintro ⟨_, hargv, _⟩
    by_contra! h
    -- The last argument has what follows the last word.
    have hk : maxArgc - 1 < (words s).length := by omega
    have hlast := hstring (maxArgc - 1) hk (by omega)
    rw [hargv _ hk (by omega), if_pos (by omega), List.self_eq_append_right] at hlast
    exact h.2 hlast
  · intro h
    have hargv : ∀ k (hk : k < (words s).length), k < r.argc →
        r.string (r.argv k) = (words s)[k] := by
      intro k hk hkr
      have hnil : (if k + 1 = maxArgc then afterWords maxArgc s else []) = [] := by
        split_ifs with hlast
        · exact h.resolve_left (by omega)
        · rfl
      rw [hstring k hk (by omega), hnil, List.append_nil]
    refine ⟨hargc, hargv, fun k => ?_⟩
    rw [doGetarg, List.getElem?_take]
    by_cases hk : r.argc ≤ k
    · rw [if_pos hk, Option.map_none]
      split_ifs
      · rw [List.getElem?_eq_none (by omega)]
      · rfl
    · have hlt : k < (words s).length := by omega
      rw [if_neg hk, if_pos (by omega), Option.map_some, hargv k hlt (by omega),
        List.getElem?_eq_getElem hlt]

/-- The line `a b` with room for ten words. -/
theorem split_yields_iff_two :
    Yields maxArgs [97, 32, 98, 32] (split (fun _ => 0) maxArgs ([97, 32, 98, 32] ++ 0 :: [])) :=
  (split_yields_iff (fun _ => 0) (by decide) (by decide) []).2 (.inl (by decide))

/-- A line of eleven words. -/
def elevenWords : List UInt8 :=
  [97, 32, 98, 32, 99, 32, 100, 32, 101, 32, 102, 32, 103, 32, 104, 32, 105, 32, 106, 32, 107]

/-- The tenth argument is the tenth word with the eleventh one. -/
theorem exists_not_yields :
    ¬ ∀ (argv : ℕ → ℕ) (maxArgc : ℕ) (s tail : List UInt8), 1 ≤ maxArgc → 0 ∉ s →
      Yields maxArgc s (split argv maxArgc (s ++ 0 :: tail)) := by
  intro h
  have hyields := h (fun _ => 0) maxArgs elevenWords [] (by decide) (by decide)
  exact absurd (hyields.argv 9 (by decide) (by decide)) (by decide)

end Cs5600.CommandLine
