import Mathlib.Data.List.DropRight
import Mathlib.Data.List.Induction
import Cs5600.Layout

/-!
# Paths

The string functions the file system takes paths apart with: `strtok` at the
slashes, and `basename` and `dirname` of `libgen.h`, which are as POSIX says.
Strings are the lists of their bytes, without the terminating NUL.

What they do to a path is a matter of its *components*, the maximal runs of
bytes other than a slash (`strtok`): the base name is the last component
(`basename_append`), and the directory name has the others (`strtok_dirname`).
-/

namespace Cs5600

/-- The byte `'/'`. -/
def slash : UInt8 := 47

/-- The tokens that `strtok(path, "/")` returns, one call after the other. -/
def strtok (path : List UInt8) : List (List UInt8) := (path.splitOn slash).filter (· ≠ [])

/-- A path without its trailing slashes. -/
def rstrip (path : List UInt8) : List UInt8 := path.rdropWhile (· == slash)

/-- `basename`: the last component of a path. -/
def basename (path : List UInt8) : List UInt8 :=
  if path = [] then [46]
  else if rstrip path = [] then [slash]
  else (rstrip path).rtakeWhile (· != slash)

/-- `dirname`: a path without its last component. -/
def dirname (path : List UInt8) : List UInt8 :=
  if path = [] then [46]
  else if rstrip path = [] then [slash]
  else
    let dir := (rstrip path).rdropWhile (· != slash)
    if dir = [] then [46] else if rstrip dir = [] then [slash] else rstrip dir

/-! ## Components -/

theorem strtok_append_slash (p q : List UInt8) :
    strtok (p ++ slash :: q) = strtok p ++ strtok q := by
  rw [strtok, List.splitOn_append_cons_self, List.filter_append, strtok, strtok]

theorem strtok_of_slash_notMem {c : List UInt8} (h : slash ∉ c) (hc : c ≠ []) : strtok c = [c] := by
  rw [strtok, List.splitOn_eq_singleton h, List.filter_cons_of_pos (by simpa using hc),
    List.filter_nil]

theorem strtok_nil : strtok [] = [] := by
  rw [strtok, List.splitOn_nil]
  rfl

theorem strtok_append_replicate (p : List UInt8) (k : ℕ) :
    strtok (p ++ List.replicate k slash) = strtok p := by
  induction k with
  | zero => rw [List.replicate_zero, List.append_nil]
  | succ k ih =>
    rw [List.replicate_succ', ← List.append_assoc, strtok_append_slash, strtok_nil, List.append_nil,
      ih]

theorem strtok_concat_slash (p : List UInt8) : strtok (p ++ [slash]) = strtok p :=
  strtok_append_replicate p 1

theorem strtok_slash : strtok [slash] = [] := strtok_append_replicate [] 1 |>.trans strtok_nil

/-- A path is what `rstrip` leaves of it, and its trailing slashes. -/
theorem exists_eq_rstrip_append (p : List UInt8) :
    ∃ k, p = rstrip p ++ List.replicate k slash := by
  refine ⟨(p.rtakeWhile (· == slash)).length, ?_⟩
  have hall : ∀ b ∈ p.rtakeWhile (· == slash), b = slash := fun b hb => by
    have := List.mem_rtakeWhile_imp hb
    simpa using this
  rw [← List.eq_replicate_of_mem hall, rstrip, List.rdropWhile_append_rtakeWhile]

theorem strtok_rstrip (p : List UInt8) : strtok (rstrip p) = strtok p := by
  obtain ⟨k, hk⟩ := exists_eq_rstrip_append p
  conv_rhs => rw [hk]
  rw [strtok_append_replicate]

theorem rstrip_append_replicate (p : List UInt8) (k : ℕ) :
    rstrip (p ++ List.replicate k slash) = rstrip p := by
  induction k with
  | zero => rw [List.replicate_zero, List.append_nil]
  | succ k ih =>
    rw [List.replicate_succ', ← List.append_assoc, rstrip, List.rdropWhile_concat_pos _ _ _ (by simp)]
    exact ih

theorem slash_notMem_of_mem_splitOn {path c : List UInt8} (h : c ∈ path.splitOn slash) :
    slash ∉ c := by
  induction path generalizing c with
  | nil =>
    rw [List.splitOn_nil, List.mem_singleton] at h
    rw [h]
    exact List.not_mem_nil
  | cons b path ih =>
    rw [List.splitOn_cons_eq_if_modifyHead] at h
    split at h
    · rcases List.mem_cons.1 h with rfl | h
      · exact List.not_mem_nil
      · exact ih h
    · rename_i hb
      obtain ⟨hd, tl, htl⟩ := List.exists_cons_of_ne_nil (List.splitOn_ne_nil slash path)
      rw [htl, List.modifyHead_cons] at h
      rcases List.mem_cons.1 h with rfl | h
      · have hd_ok := ih (htl ▸ List.mem_cons_self)
        simpa [hd_ok] using fun h => hb (by simp [h])
      · exact ih (htl ▸ List.mem_cons_of_mem _ h)

/-- A component of a path is not empty and has no slash. -/
theorem of_mem_strtok {path c : List UInt8} (h : c ∈ strtok path) : c ≠ [] ∧ slash ∉ c := by
  obtain ⟨hc, hne⟩ := List.mem_filter.1 h
  exact ⟨by simpa using hne, slash_notMem_of_mem_splitOn hc⟩

/-- The bytes of the components of a path are bytes of the path. -/
theorem mem_of_mem_strtok {path c : List UInt8} {b : UInt8} (hc : c ∈ strtok path) (hb : b ∈ c) :
    b ∈ path := by
  have key : ∀ {path c : List UInt8}, c ∈ path.splitOn slash → b ∈ c → b ∈ path := by
    intro path c hc hb
    induction path generalizing c with
    | nil =>
      rw [List.splitOn_nil, List.mem_singleton] at hc
      exact hc ▸ hb
    | cons a path ih =>
      rw [List.splitOn_cons_eq_if_modifyHead] at hc
      split at hc
      · rcases List.mem_cons.1 hc with rfl | hc
        · exact absurd hb List.not_mem_nil
        · exact List.mem_cons_of_mem _ (ih hc hb)
      · obtain ⟨hd, tl, htl⟩ := List.exists_cons_of_ne_nil (List.splitOn_ne_nil slash path)
        rw [htl, List.modifyHead_cons] at hc
        rcases List.mem_cons.1 hc with rfl | hc
        · rcases List.mem_cons.1 hb with rfl | hb
          · exact List.mem_cons_self
          · exact List.mem_cons_of_mem _ (ih (htl ▸ List.mem_cons_self) hb)
        · exact List.mem_cons_of_mem _ (ih (htl ▸ List.mem_cons_of_mem _ hc) hb)
  exact key (List.mem_filter.1 hc).1 hb

/-! ## Absolute paths -/

section Append

variable {pre last : List UInt8} (k : ℕ) (hlast : last ≠ []) (hs : slash ∉ last)

include hs in
theorem rtakeWhile_append : (pre ++ slash :: last).rtakeWhile (· != slash) = last := by
  have hall : ∀ b ∈ last.reverse, (b != slash) = true := fun b hb => by
    simpa using ne_of_mem_of_not_mem (List.mem_reverse.1 hb) hs
  rw [List.rtakeWhile, List.reverse_append, List.reverse_cons, List.append_assoc,
    List.takeWhile_append_of_pos hall, List.singleton_append, List.takeWhile_cons_of_neg (by simp),
    List.append_nil, List.reverse_reverse]

include hs in
theorem rdropWhile_append : (pre ++ slash :: last).rdropWhile (· != slash) = pre ++ [slash] := by
  have h := List.rdropWhile_append_rtakeWhile (p := (· != slash)) (l := pre ++ slash :: last)
  rw [rtakeWhile_append hs] at h
  exact List.append_cancel_right (h.trans (List.append_cons pre slash last))

include hlast hs

theorem rstrip_append :
    rstrip (pre ++ slash :: last ++ List.replicate k slash) = pre ++ slash :: last := by
  rw [rstrip_append_replicate, rstrip, List.rdropWhile_eq_self_iff]
  intro hne
  rw [List.getLast_append_of_ne_nil _ (List.cons_ne_nil _ _), List.getLast_cons hlast]
  simpa using ne_of_mem_of_not_mem (List.getLast_mem hlast) hs

theorem strtok_append :
    strtok (pre ++ slash :: last ++ List.replicate k slash) = strtok pre ++ [last] := by
  rw [strtok_append_replicate, strtok_append_slash, strtok_of_slash_notMem hs hlast]

/-- The base name of a path is its last component. -/
theorem basename_append : basename (pre ++ slash :: last ++ List.replicate k slash) = last := by
  rw [basename, if_neg (by simp), rstrip_append k hlast hs, if_neg (by simp),
    rtakeWhile_append hs]

/-- The directory name of a path has its other components. -/
theorem strtok_dirname :
    strtok (dirname (pre ++ slash :: last ++ List.replicate k slash)) = strtok pre := by
  have hpre : rstrip (pre ++ [slash]) = rstrip pre := rstrip_append_replicate pre 1
  rw [dirname, if_neg (by simp), rstrip_append k hlast hs, if_neg (by simp),
    rdropWhile_append hs]
  simp only [hpre]
  rw [if_neg (by simp)]
  split
  · rename_i h
    rw [← strtok_rstrip pre, h, strtok_slash, strtok_nil]
  · exact strtok_rstrip pre

end Append

theorem exists_eq_append_of_rstrip {path : List UInt8} (habs : path.head? = some slash)
    (hstrip : rstrip path ≠ []) :
    ∃ pre last k, last ≠ [] ∧ slash ∉ last ∧
      path = pre ++ slash :: last ++ List.replicate k slash := by
  obtain ⟨k, hk⟩ := exists_eq_rstrip_append path
  have hlast : (rstrip path).rtakeWhile (· != slash) ≠ [] := by
    rw [Ne, List.rtakeWhile_eq_nil_iff]
    intro h
    exact List.rdropWhile_last_not (· == slash) path hstrip (by simpa [rstrip] using h hstrip)
  have hs : slash ∉ (rstrip path).rtakeWhile (· != slash) := fun h => by
    simpa using List.mem_rtakeWhile_imp h
  have hsplit := List.rdropWhile_append_rtakeWhile (p := (· != slash)) (l := rstrip path)
  -- The path begins with a slash, so there is something before its last component.
  have hdir : (rstrip path).rdropWhile (· != slash) ≠ [] := by
    intro h
    rw [h, List.nil_append] at hsplit
    rw [← hsplit] at hk
    rw [hk, List.head?_append_of_ne_nil _ hlast] at habs
    exact hs (List.mem_of_mem_head? habs)
  have hdir_last := List.rdropWhile_last_not (· != slash) (rstrip path) hdir
  refine ⟨((rstrip path).rdropWhile (· != slash)).dropLast, _, k, hlast, hs, ?_⟩
  have hback := List.dropLast_append_getLast hdir
  rw [show ((rstrip path).rdropWhile (· != slash)).getLast hdir = slash by simpa using hdir_last]
    at hback
  rw [List.append_cons, hback, hsplit]
  exact hk

/-- An absolute path that has components ends in the last one, up to slashes. -/
theorem exists_eq_append {path : List UInt8} (habs : path.head? = some slash)
    (hne : strtok path ≠ []) :
    ∃ pre last k, last ≠ [] ∧ slash ∉ last ∧
      path = pre ++ slash :: last ++ List.replicate k slash :=
  exists_eq_append_of_rstrip habs fun h => hne (by rw [← strtok_rstrip, h, strtok_nil])

/-- An absolute path without components has slashes only. -/
theorem eq_replicate_of_strtok_eq_nil {path : List UInt8} (habs : path.head? = some slash)
    (h : strtok path = []) : ∃ k, path = List.replicate (k + 1) slash := by
  have hstrip : rstrip path = [] := by
    by_contra hne
    obtain ⟨pre, last, k, hlast, hs, rfl⟩ := exists_eq_append_of_rstrip habs hne
    rw [strtok_append k hlast hs] at h
    exact List.concat_ne_nil _ _ h
  obtain ⟨k, hk⟩ := exists_eq_rstrip_append path
  rw [hstrip, List.nil_append] at hk
  cases k with
  | zero =>
    rw [hk] at habs
    cases habs
  | succ k => exact ⟨k, hk⟩

/-- A path as FUSE passes it: an absolute C string that names the root by a single slash only. -/
structure FsPath where
  bytes : List UInt8
  absolute : bytes.head? = some slash
  nul_free : 0 ∉ bytes
  root : strtok bytes = [] → bytes = [slash]

/-- The components of a path. -/
def FsPath.comps (p : FsPath) : List (List UInt8) := strtok p.bytes

theorem FsPath.of_mem_comps {p : FsPath} {c : List UInt8} (h : c ∈ p.comps) :
    c ≠ [] ∧ slash ∉ c ∧ 0 ∉ c :=
  ⟨(of_mem_strtok h).1, (of_mem_strtok h).2, fun h0 => p.nul_free (mem_of_mem_strtok h h0)⟩

end Cs5600
