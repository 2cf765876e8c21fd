import Cs5600.CText
import Cs5600.Loads
import Cs5600.ReadLine

/-!
# A program that searches lines

`ugrep.c`. Of its two string functions, `strings_equal` compares up to the NUL of its first
argument, so it looks for a prefix (`stringsEqual_returns`), and `string_contains` calls it
everywhere in a text but at its end (`stringContains_returns`).

So a pattern is found where it occurs, unless it and the text are empty, and nothing is
loaded after the NUL of either string (`stringContains_finds`). The program does not look
at empty texts, as it ends at a blank line (`main_prints`).
-/

namespace Cs5600.Ugrep

open CText Console Loads

/-- A load through the first argument of a function, or through the second one. -/
inductive Access
  | first (p : Ptr)
  | second (p : Ptr)

/-- `strings_equal`. -/
def stringsEqual : Ptr → Ptr → Load Access ℤ
  | [], _ => WriterT.mk none
  | c :: s1, s2 => do
    let c1 ← load .first (c :: s1)
    if c1 ≠ 0 then
      let c1 ← load .first (c :: s1)
      let c2 ← load .second s2
      if c1 ≠ c2 then pure 0
      else stringsEqual s1 s2.tail
    else pure 1

/-- `string_contains`. -/
def stringContains (pattern : Ptr) : Ptr → Load Access ℤ
  | [] => WriterT.mk none
  | c :: str => do
    let c1 ← load .second (c :: str)
    if c1 ≠ 0 then
      let equal ← stringsEqual pattern (c :: str)
      if equal ≠ 0 then pure 1
      else stringContains pattern str
    else pure 0

/-- The load is in the string that its argument points to. -/
def Access.Within (s1 tail1 s2 tail2 : List UInt8) : Access → Prop
  | first p => On s1 tail1 p
  | second p => On s2 tail2 p

theorem Access.Within.of_suffix {s1 tail1 s2 tail2 s1' s2' : List UInt8} {a : Access}
    (h : a.Within s1 tail1 s2 tail2) (h1 : s1 <:+ s1') (h2 : s2 <:+ s2') :
    a.Within s1' tail1 s2' tail2 := by
  cases a with
  | first p => exact On.of_suffix h h1
  | second p => exact On.of_suffix h h2

theorem returns_first (s1 tail1 s2 tail2 : List UInt8) :
    Returns (load .first (s1 ++ 0 :: tail1)) (Access.Within s1 tail1 s2 tail2) (s1.headD 0) :=
  returns_load (on_self s1 tail1)

theorem returns_second (s1 tail1 s2 tail2 : List UInt8) :
    Returns (load .second (s2 ++ 0 :: tail2)) (Access.Within s1 tail1 s2 tail2) (s2.headD 0) :=
  returns_load (on_self s2 tail2)

section Strings

variable {pattern str : List UInt8} (hp : 0 ∉ pattern) (hs : 0 ∉ str) (t t' : List UInt8)

/-- A string equals one that it is a prefix of. -/
theorem stringsEqual_returns {s1 s2 : List UInt8} (h1 : 0 ∉ s1) (h2 : 0 ∉ s2) :
    Returns (stringsEqual (s1 ++ 0 :: t) (s2 ++ 0 :: t')) (Access.Within s1 t s2 t')
      (if s1 <+: s2 then 1 else 0) := by
  induction s1 generalizing s2 with
  | nil =>
    rw [if_pos List.nil_prefix]
    exact (returns_first [] t s2 t').bind (returns_pure 1)
  | cons c s1 ih =>
    obtain ⟨hc, h1⟩ := not_or.1 (List.mem_cons.not.1 h1)
    refine (returns_first (c :: s1) t s2 t').bind ?_
    rw [List.headD_cons, if_pos (Ne.symm hc)]
    refine (returns_first (c :: s1) t s2 t').bind ?_
    cases s2 with
    | nil =>
      -- The second string ends first, and its NUL differs.
      rw [if_neg fun h => List.cons_ne_nil c s1 (List.prefix_nil.1 h)]
      refine (returns_second (c :: s1) t [] t').bind ?_
      rw [List.headD_cons, List.headD_nil, if_pos (Ne.symm hc)]
      exact returns_pure 0
    | cons d s2 =>
      obtain ⟨-, h2⟩ := not_or.1 (List.mem_cons.not.1 h2)
      refine (returns_second (c :: s1) t (d :: s2) t').bind ?_
      rw [List.headD_cons, List.headD_cons]
      by_cases hcd : c = d
      · rw [if_neg (not_not.2 hcd), if_congr (List.cons_prefix_cons.trans (and_iff_right hcd)) rfl rfl]
        exact (ih h1 h2).mono fun a ha =>
          ha.of_suffix (List.suffix_cons c s1) (List.suffix_cons d s2)
      · rw [if_pos hcd, if_neg fun h => hcd (List.cons_prefix_cons.1 h).1]
        exact returns_pure 0

include hp hs

/-- A pattern is looked for at each byte of a text. -/
theorem stringContains_returns :
    Returns (stringContains (pattern ++ 0 :: t) (str ++ 0 :: t')) (Access.Within pattern t str t')
      (if str ≠ [] ∧ pattern <:+: str then 1 else 0) := by
  induction str with
  | nil =>
    rw [if_neg fun h => h.1 rfl]
    exact (returns_second pattern t [] t').bind (returns_pure 0)
  | cons c str ih =>
    obtain ⟨hc, hs'⟩ := not_or.1 (List.mem_cons.not.1 hs)
    refine (returns_second pattern t (c :: str) t').bind ?_
    rw [List.headD_cons, if_pos (Ne.symm hc)]
    refine (stringsEqual_returns t t' hp hs).bind ?_
    by_cases hpre : pattern <+: c :: str
    · rw [if_pos hpre, if_pos one_ne_zero, if_pos ⟨List.cons_ne_nil c str, hpre.isInfix⟩]
      exact returns_pure 1
    · -- The pattern is not empty, so it does not occur in an empty rest either.
      have hiff : c :: str ≠ [] ∧ pattern <:+: c :: str ↔ str ≠ [] ∧ pattern <:+: str := by
        rw [List.infix_cons_iff, or_iff_right hpre]
        refine and_congr_left fun h => iff_of_true (List.cons_ne_nil c str) fun hnil => hpre ?_
        subst hnil
        rw [List.infix_nil.1 h]
        exact List.nil_prefix
      rw [if_neg hpre, if_neg (not_not.2 rfl), if_congr hiff rfl rfl]
      exact (ih hs').mono fun a ha => ha.of_suffix List.suffix_rfl (List.suffix_cons c str)

/-- A pattern is found in a text if and only if it occurs there, unless the text is empty, and neither
    function loads what is after the NUL of one of its arguments. -/
theorem stringContains_finds :
    Returns (stringsEqual (pattern ++ 0 :: t) (str ++ 0 :: t')) (Access.Within pattern t str t')
        (if pattern <+: str then 1 else 0) ∧
      (str ≠ [] →
        Returns (stringContains (pattern ++ 0 :: t) (str ++ 0 :: t')) (Access.Within pattern t str t')
          (if pattern <:+: str then 1 else 0)) := by
  refine ⟨stringsEqual_returns t t' hp hs, fun hne => ?_⟩
  rw [← if_congr (and_iff_right hne) rfl rfl]
  exact stringContains_returns hp hs t t'

end Strings

/-- The pattern `b` is found in the text `ab`. -/
theorem stringContains_finds_b :
    Returns (stringContains [98, 0] [97, 98, 0]) (Access.Within [98] [] [97, 98] []) 1 := by
  have hp : (0 : UInt8) ∉ [98] := by decide
  have hs : (0 : UInt8) ∉ [97, 98] := by decide
  exact (stringContains_finds hp hs [] []).2 (List.cons_ne_nil 97 [98])

/-! ## The program -/

/-- The size of `buf`. -/
def bufSize : ℕ := 128

/-- The array `buf`, as a pointer to it. -/
def array (buf : ℕ → UInt8) : Ptr := (List.range bufSize).map buf

/-- The bytes of ASCII characters. -/
def ascii (s : String) : List UInt8 := s.toList.map Char.toUInt8

/-- `do_print`: the string at the pointer. -/
def doPrint (buf : Ptr) (t : Tty) : Tty := { t with output := t.output ++ cString buf }

/-- The loop of `main`, with the pointer to the pattern, for fewer than this many lines. The calls of
    `readline` find this in its variable `ch`. -/
def searchLines (pattern : Ptr) (ch : ℕ → UInt8) : ℕ → (ℕ → UInt8) → Tty → Option Tty
  | 0, _, _ => none
  | n + 1, buf, t => do
    let (buf, t) := doReadline buf bufSize (ch n) t
    if buf 0 = newline ∨ buf 0 = 0 then some t
    else
      let (found, _) ← (stringContains pattern (array buf)).run
      if found ≠ 0 then
        searchLines pattern ch n buf (doPrint (array buf) (doPrint (ascii "-- ") t))
      else searchLines pattern ch n buf t

/-- `main`. -/
def main (getarg : ℕ → Option Ptr) (ch : ℕ → UInt8) (n : ℕ) (buf : ℕ → UInt8) (t : Tty) : Option Tty :=
  match getarg 1, getarg 2 with
  | some pattern, none =>
    searchLines pattern ch n buf (doPrint (ascii "ugrep: enter blank line to quit\n") t)
  | _, _ => some (doPrint (ascii "usage: uprog <pattern>\n") t)

/-- What `buf` has of a line. -/
def text (l : List UInt8) : List UInt8 := cString (l.take (bufSize - 1))

/-- The texts of lines up to the first blank one. -/
def texts (s : List UInt8) : List (List UInt8) := ((s.splitOn newline).map text).takeWhile (· ≠ [])

/-- What is printed of a text. -/
def shown (pattern text : List UInt8) : List UInt8 :=
  if pattern <:+: text then ascii "-- " ++ text else []

theorem texts_eq (s : List UInt8) :
    texts s = if text (line s) = [] then [] else text (line s) :: texts (afterLine s) := by
  obtain ⟨more, hsplit, hmore⟩ := exists_splitOn_eq s
  rw [texts, hsplit, List.map_cons]
  split_ifs with h
  · exact List.takeWhile_cons_of_neg (by simpa using h)
  · rw [List.takeWhile_cons_of_pos (by simpa using h)]
    rcases hmore with rfl | ⟨rfl, hafter⟩
    · rfl
    · rw [hafter]
      rfl

/-- `buf` with a line in it has its text, and a NUL after it. -/
theorem exists_array_eq {buf : ℕ → UInt8} {l : List UInt8} (hl : l.length < bufSize)
    (hbuf : ∀ j (hj : j < l.length), buf j = l[j]) (hend : buf l.length = 0) :
    ∃ rest, array buf = cString l ++ 0 :: rest := by
  have hline : (List.range l.length).map buf = l := by
    refine List.ext_getElem (by rw [List.length_map, List.length_range]) fun j _ hj => ?_
    rw [List.getElem_map, List.getElem_range, hbuf j hj]
  obtain ⟨d, hd⟩ := Nat.exists_eq_add_of_lt hl
  have harray : array buf = l ++ 0 :: (List.range d).map fun j => buf (l.length + (j + 1)) := by
    rw [array, hd, Nat.add_assoc, List.range_add, List.map_append, hline, List.range_succ_eq_map,
      List.map_cons, List.map_cons, Nat.add_zero, hend, List.map_map, List.map_map]
    rfl
  rw [harray, ← cString_append_cons l]
  exact exists_eq_cString_append (length_cString_lt (List.mem_append_right l List.mem_cons_self))

/-- `readline` leaves the text of the line in `buf`. -/
theorem exists_readline (buf : ℕ → UInt8) (ch : UInt8) (s out : List UInt8) :
    ∃ buf' rest, doReadline buf bufSize ch ⟨bytes s, out⟩ = (buf', ⟨bytes (afterLine s), out⟩) ∧
      array buf' = text (line s) ++ 0 :: rest := by
  have hl : ((line s).take (bufSize - 1)).length < bufSize :=
    (List.length_take_le _ _).trans_lt (by decide)
  have hread := readline_spec (c := ⟨buf, bufSize, ch⟩) (Nat.le_add_left 2 126) s out
  rw [doReadline, hread, text]
  generalize (line s).take (bufSize - 1) = l at hl ⊢
  have hbuf : ∀ j (hj : j < l.length), Function.update (put buf 0 l) l.length 0 j = l[j] := by
    intro j hj
    rw [Function.update_of_ne hj.ne, put_apply, if_pos (by omega), Nat.sub_zero,
      List.getD_eq_getElem _ _ hj]
  obtain ⟨rest, harray⟩ := exists_array_eq hl hbuf (Function.update_self _ _ _)
  exact ⟨_, rest, rfl, harray⟩

/-- The first byte of `buf` is that of the text, or its NUL. -/
theorem array_zero {buf : ℕ → UInt8} {s rest : List UInt8} (h : array buf = s ++ 0 :: rest) :
    buf 0 = s.headD 0 := by
  have hfirst : (array buf).headD 0 = buf 0 := rfl
  rw [← hfirst, h]
  cases s <;> rfl

/-- So the loop ends at a blank line, as a line has no newline. -/
theorem ends_iff {buf : ℕ → UInt8} {s rest : List UInt8} (h : array buf = text (line s) ++ 0 :: rest) :
    buf 0 = newline ∨ buf 0 = 0 ↔ text (line s) = [] := by
  rw [array_zero h]
  cases htext : text (line s) with
  | nil => exact iff_of_true (.inr rfl) rfl
  | cons c text' =>
    have hc : c ∈ text (line s) := htext ▸ List.mem_cons_self
    refine iff_of_false (not_or.2 ⟨?_, ?_⟩) (List.cons_ne_nil c text')
    · have hline : c ∈ line s := List.mem_of_mem_take ((List.takeWhile_sublist _).subset hc)
      simpa using List.mem_takeWhile_imp hline
    · exact ne_of_mem_of_not_mem hc (nul_notMem_cString _)

section Program

variable {pattern : List UInt8} (hp : 0 ∉ pattern) (t : List UInt8) (ch : ℕ → UInt8)
include hp

/-- The loop reads a line, and ends if it is blank. Otherwise it goes on, after what is printed of the
    text of the line. -/
theorem exists_searchLines_eq (n : ℕ) (buf : ℕ → UInt8) (s out : List UInt8) :
    ∃ buf', searchLines (pattern ++ 0 :: t) ch (n + 1) buf ⟨bytes s, out⟩ =
      if text (line s) = [] then some ⟨bytes (afterLine s), out⟩
      else searchLines (pattern ++ 0 :: t) ch n buf'
        ⟨bytes (afterLine s), out ++ shown pattern (text (line s))⟩ := by
  obtain ⟨buf', rest, hread, harray⟩ := exists_readline buf (ch n) s out
  refine ⟨buf', ?_⟩
  rw [searchLines, hread]
  dsimp only
  rw [harray]
  by_cases htext : text (line s) = []
  · rw [if_pos ((ends_iff harray).2 htext), if_pos htext]
  · have hnul : 0 ∉ text (line s) := nul_notMem_cString _
    obtain ⟨log, hfound, -⟩ := stringContains_returns hp hnul t rest
    -- The text is not empty, so whether it is found is whether it occurs.
    rw [if_congr (and_iff_right htext) rfl rfl] at hfound
    rw [if_neg (mt (ends_iff harray).1 htext), if_neg htext, hfound, Option.bind_eq_bind,
      Option.bind_some, shown]
    by_cases hoccurs : pattern <:+: text (line s)
    · rw [if_pos hoccurs, if_pos hoccurs, if_pos one_ne_zero, doPrint, doPrint,
        cString_append_nul hnul, cString_eq_self (by decide), ← List.append_assoc]
    · rw [if_neg hoccurs, if_neg hoccurs, if_neg (not_not.2 rfl), List.append_nil]

/-- The loop prints the texts in which the pattern occurs, and ends after a blank line. -/
theorem searchLines_prints {s : List UInt8} {n : ℕ} (hn : (texts s).length < n) (buf : ℕ → UInt8)
    (out : List UInt8) :
    searchLines (pattern ++ 0 :: t) ch n buf ⟨bytes s, out⟩ =
      some ⟨bytes (afterLines s ((texts s).length + 1)),
        out ++ (texts s).flatMap (shown pattern)⟩ := by
  induction n generalizing s buf out with
  | zero => exact absurd hn (Nat.not_lt_zero _)
  | succ n ih =>
    obtain ⟨buf', hstep⟩ := exists_searchLines_eq hp t ch n buf s out
    rw [hstep]
    rw [texts_eq] at hn ⊢
    by_cases htext : text (line s) = []
    · rw [if_pos htext, if_pos htext, List.flatMap_nil, List.append_nil]
      rfl
    · rw [if_neg htext, List.length_cons] at hn
      rw [if_neg htext, if_neg htext, ih (Nat.lt_of_succ_lt_succ hn), List.flatMap_cons,
        List.append_assoc]
      rfl

/-- With a pattern as its only argument, the program prints the texts in which it occurs, each after
    a mark, and leaves the input after the first blank line. -/
theorem main_prints {getarg : ℕ → Option Ptr} (h1 : getarg 1 = some (pattern ++ 0 :: t))
    (h2 : getarg 2 = none) {s : List UInt8} {n : ℕ} (hn : (texts s).length < n) (buf : ℕ → UInt8)
    (out : List UInt8) :
    main getarg ch n buf ⟨bytes s, out⟩ =
      some ⟨bytes (afterLines s ((texts s).length + 1)),
        out ++ ascii "ugrep: enter blank line to quit\n" ++
          (texts s).flatMap (shown pattern)⟩ := by
  rw [main, h1, h2]
  dsimp only
  rw [doPrint, cString_eq_self (by decide)]
  exact searchLines_prints hp t ch hn buf _

end Program

end Cs5600.Ugrep
