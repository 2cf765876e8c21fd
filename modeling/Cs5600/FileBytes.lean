import Cs5600.Namespace

/-!
# Operations on files

What a user sees of a call of `fs_write`, `fs_truncate`, `fs_chmod` or `fs_utime`
is a change of the node of one path of the tree. The contents of a file are a
sequence of bytes: `fs_write` puts its buffer in the place of some of them
(`overwrite`), or after them, and `fs_read` returns some of them.

A block that is allocated holds bytes of whatever it was part of before. They
are not bytes of the file, as a file grows only by bytes that are written.
-/

namespace Cs5600

open LabelledGraph Table FsM WriteLog

/-! ## Sequences of bytes -/

/-- A sequence of bytes with those of `buf` in it from `o` on. -/
def overwrite (c : List UInt8) (o : ℕ) (buf : List UInt8) : List UInt8 :=
  c.take o ++ buf ++ c.drop (o + buf.length)

section Overwrite

variable {c : List UInt8} {o : ℕ} (buf : List UInt8)

theorem overwrite_length (ho : o ≤ c.length) :
    (overwrite c o buf).length = max c.length (o + buf.length) := by
  simp only [overwrite, List.length_append, List.length_take, List.length_drop]
  omega

theorem overwrite_getD (ho : o ≤ c.length) (q : ℕ) : (overwrite c o buf).getD q 0 =
    if o ≤ q ∧ q < o + buf.length then buf.getD (q - o) 0 else c.getD q 0 := by
  have htake : (c.take o).length = o := List.length_take_of_le ho
  rw [overwrite, List.append_assoc]
  by_cases hq : q < o
  · rw [if_neg (by omega), List.getD_append _ _ _ _ (by omega), List.getD_eq_getElem?_getD,
      List.getElem?_take_of_lt hq, ← List.getD_eq_getElem?_getD]
  · rw [List.getD_append_right _ _ _ _ (by omega), htake]
    by_cases hb : q < o + buf.length
    · rw [if_pos (by omega), List.getD_append _ _ _ _ (by omega)]
    · rw [if_neg (by omega), List.getD_append_right _ _ _ _ (by omega),
        List.getD_eq_getElem?_getD, List.getElem?_drop, List.getD_eq_getElem?_getD,
        show o + buf.length + (q - o - buf.length) = q by omega]

end Overwrite

namespace Image

/-! ## Contents after a write -/

section Bytes

variable {img : Image} {x : FsInode}

/-- The bytes of a file after data is copied into its blocks, which are different ones. -/
theorem fileByte_dataWrites {N o q : ℕ} {buf : List UInt8}
    (hlt : ∀ k < N, x.ptrAt k < img.nblocks)
    (hinj : ∀ k < N, ∀ l < N, x.ptrAt k = x.ptrAt l → k = l)
    (hend : o + buf.length ≤ N * 4096) (hq : q < N * 4096) :
    (img.puts (dataWrites x.ptrAt img buf o)).fileByte x q =
      if o ≤ q ∧ q < o + buf.length then buf.getD (q - o) 0 else img.fileByte x q := by
  induction hlen : buf.length using Nat.strong_induction_on generalizing img buf o with
  | _ len ih =>
    subst hlen
    rw [dataWrites]
    by_cases hbuf : buf = []
    · rw [dif_pos hbuf, puts_nil, hbuf, List.length_nil, if_neg (by omega)]
    · have hpos := List.length_pos_of_ne_nil hbuf
      rw [dif_neg hbuf, puts_cons]
      generalize hn : min (4096 - o % 4096) buf.length = n
      have hdrop : (buf.drop n).length = buf.length - n := List.length_drop
      have htake : (buf.take n).length = n := List.length_take_of_le (by omega)
      have hw : x.ptrAt (o / 4096) < img.nblocks := hlt _ (by omega)
      rw [ih _ (by omega) (by rwa [put_nblocks hw]) (by omega) rfl, hdrop]
      -- The bytes of the first block that is written, and the other ones.
      have hfirst : (img.put ⟨x.ptrAt (o / 4096), (img.block (x.ptrAt (o / 4096))).patch (o % 4096)
          (buf.take n)⟩).fileByte x q =
          if o ≤ q ∧ q < o + n then buf.getD (q - o) 0 else img.fileByte x q := by
        by_cases hk : q / 4096 = o / 4096
        · have hself : (img.put ⟨x.ptrAt (o / 4096), (img.block (x.ptrAt (o / 4096))).patch
              (o % 4096) (buf.take n)⟩).block (x.ptrAt (o / 4096)) =
              (img.block (x.ptrAt (o / 4096))).patch (o % 4096) (buf.take n) :=
            put_block_self (w := ⟨x.ptrAt (o / 4096), _⟩) hw
          rw [fileByte, hk, hself, Block.byte_patch (by omega), htake, fileByte, hk]
          by_cases hin : o ≤ q ∧ q < o + n
          · rw [if_pos (by omega), if_pos hin, List.getD_eq_getElem?_getD,
              List.getElem?_take_of_lt (by omega), ← List.getD_eq_getElem?_getD,
              show q % 4096 - o % 4096 = q - o by omega]
          · rw [if_neg (by omega), if_neg hin]
        · have hne : x.ptrAt (q / 4096) ≠ x.ptrAt (o / 4096) := fun he =>
            hk (hinj _ (by omega) _ (by omega) he)
          rw [fileByte, put_block_of_ne (w := ⟨x.ptrAt (o / 4096), _⟩) hw hne, if_neg (by omega),
            fileByte]
      rw [hfirst]
      by_cases hin : o ≤ q ∧ q < o + n
      · rw [if_neg (by omega), if_pos hin, if_pos (by omega)]
      · rw [if_neg hin]
        by_cases hrest : o + n ≤ q ∧ q < o + n + (buf.length - n)
        · rw [if_pos hrest, if_pos (by omega), List.getD_eq_getElem?_getD, List.getElem?_drop,
            ← List.getD_eq_getElem?_getD, show n + (q - (o + n)) = q - o by omega]
        · rw [if_neg hrest, if_neg (by omega)]

/-- Contents by their bytes. -/
theorem content_eq_overwrite {img' : Image} {y : FsInode} {o : ℕ} {buf : List UInt8}
    (ho : o ≤ y.size.toInt.toNat)
    (hsize : x.size.toInt.toNat = max y.size.toInt.toNat (o + buf.length))
    (hbyte : ∀ q < x.size.toInt.toNat, img'.fileByte x q =
      if o ≤ q ∧ q < o + buf.length then buf.getD (q - o) 0 else img.fileByte y q) :
    img'.content x = overwrite (img.content y) o buf := by
  have hlen := content_length img y
  have hlong := overwrite_length buf (ho.trans hlen.ge)
  rw [hlen, ← hsize] at hlong
  refine List.ext_getElem (by rw [content_length, hlong]) fun q hq hq' => ?_
  have hover := overwrite_getD buf (ho.trans hlen.ge) q
  rw [List.getD_eq_getElem _ _ hq'] at hover
  rw [content_length] at hq
  rw [hover]
  simp only [content, List.getElem_map, List.getElem_range]
  rw [hbyte q hq]
  split_ifs with hin
  · rfl
  · rw [List.getD_eq_getElem _ _ (by rw [List.length_map, List.length_range]; omega),
      List.getElem_map, List.getElem_range]

end Bytes

section Write

variable {img : Image} {env : Env} {path : FsPath} (h : img.WF) {i o : ℕ} {buf : List UInt8}
  {bs : List ℕ} (hi : img.table.writable path o = .ok i) (hend : o + buf.length ≤ 1019 * 4096)
  (hlen : bs.length = blocksFor (o + buf.length) - (img.table.inode i).nptrs)
  (hbs : bs <+: img.free)
include h hi hend hlen hbs

/-- The bytes of a file after data is written to it, up to the end of its last block. -/
theorem fileByte_dataLog {q : ℕ} (hq : q < ((img.table.inode i).nptrs + bs.length) * 4096) :
    (img.puts (img.dataLog env i buf o bs)).fileByte
        ((img.table.inode i).written env (o + buf.length) bs) q =
      if o ≤ q ∧ q < o + buf.length then buf.getD (q - o) 0
      else img.fileByte ((img.table.inode i).written env (o + buf.length) bs) q := by
  obtain ⟨hlive, _⟩ := h.table.of_regular (writable_eq_ok.1 hi).1
  have hptr : ∀ k < (img.table.inode i).nptrs + bs.length,
      2 ≤ ((img.table.inode i).written env (o + buf.length) bs).ptrAt k ∧
        ((img.table.inode i).written env (o + buf.length) bs).ptrAt k < img.nblocks := by
    intro k hk
    obtain ⟨_, ho | hb⟩ := owns_or_mem_written h hi hend hlen hbs env hk
    · exact ⟨(h.table.owned hlive ho).1, (h.table.owned hlive ho).2.1⟩
    · exact lt_of_mem_free (hbs.subset hb)
  have hN : o + buf.length ≤ ((img.table.inode i).nptrs + bs.length) * 4096 :=
    (le_blocksFor_mul _).trans (Nat.mul_le_mul_right _
      (by rw [hlen]; exact Nat.sub_le_iff_le_add'.1 le_rfl))
  rw [dataLog, puts_append, fileByte_dataWrites
    (fun k hk => (nblocks_puts_bitWrites h.one_lt).symm ▸ (hptr k hk).2)
    (fun k hk l hl => ptrAt_written_injective h hi hend hlen hbs env hk hl) hN hq]
  split_ifs
  · rfl
  · have h2 := (hptr (q / 4096) (by omega)).1
    rw [fileByte, fileByte, block_puts_bitWrites h.one_lt (lt_of_lt_of_le Nat.one_lt_two h2).ne']

/-- The last write does not change the bytes of the file. -/
theorem fileByte_writtenInode {q : ℕ} (hq : q < ((img.table.inode i).nptrs + bs.length) * 4096) :
    (img.puts (img.dataLog env i buf o bs ++
        [⟨i, ((img.table.inode i).written env (o + buf.length) bs).encode⟩])).fileByte
          ((img.table.inode i).written env (o + buf.length) bs) q =
      (img.puts (img.dataLog env i buf o bs)).fileByte
        ((img.table.inode i).written env (o + buf.length) bs) q := by
  obtain ⟨hlive, _⟩ := h.table.of_regular (writable_eq_ok.1 hi).1
  have hne : ((img.table.inode i).written env (o + buf.length) bs).ptrAt (q / 4096) ≠ i := by
    intro he
    obtain ⟨_, ho | hb⟩ :=
      owns_or_mem_written h hi hend hlen hbs env (k := q / 4096) (by omega)
    · exact Role.noConfusion (h.table.disjoint hlive hlive ho (owns_inode.2 he)).2
    · rw [he] at hb
      exact (h.unreferenced_of_mem_free (hbs.subset hb)).2.2 hlive.referenced
  have hi' : i < (img.puts (img.dataLog env i buf o bs)).nblocks := by
    have ha := (along_dataLog h hi hend hlen hbs env).2.nblocks
    exact lt_of_lt_of_eq (h.table.lt_of_live hlive).2 ha.symm
  rw [fileByte, puts_append, puts_cons, puts_nil, put_block_of_ne (w := ⟨i, _⟩) hi' hne, fileByte]

/-- The bytes of a file that is written, up to its end. -/
theorem fileByte_written (env : Env) {q : ℕ}
    (hq : q < max (img.table.inode i).size.toInt.toNat (o + buf.length)) :
    (img.puts (img.dataLog env i buf o bs ++
        [⟨i, ((img.table.inode i).written env (o + buf.length) bs).encode⟩])).fileByte
          ((img.table.inode i).written env (o + buf.length) bs) q =
      if o ≤ q ∧ q < o + buf.length then buf.getD (q - o) 0
      else img.fileByte (img.table.inode i) q := by
  obtain ⟨hreg, hle⟩ := writable_eq_ok.1 hi
  obtain ⟨hlive, hd, h0, hcap⟩ := h.table.of_regular hreg
  have hn := FsInode.nptrs_of_file hd
  have hN : max (img.table.inode i).size.toInt.toNat (o + buf.length) ≤
      ((img.table.inode i).nptrs + bs.length) * 4096 := by
    rw [blocksFor] at hlen hn
    omega
  rw [fileByte_writtenInode h hi hend hlen hbs (by omega),
    fileByte_dataLog h hi hend hlen hbs (by omega)]
  split_ifs with hin
  · rfl
  · -- Old bytes are in old blocks.
    obtain ⟨_, ⟨_, hp⟩ | ⟨hnew, _⟩⟩ :=
      ptrAt_written h hi hend hlen hbs env (k := q / 4096) (by omega)
    · rw [fileByte, fileByte, hp]
    · rw [blocksFor] at hn
      omega

/-- The contents of a file that is written. -/
theorem content_written (env : Env) : (img.puts (img.dataLog env i buf o bs ++
      [⟨i, ((img.table.inode i).written env (o + buf.length) bs).encode⟩])).content
        ((img.table.inode i).written env (o + buf.length) bs) =
      overwrite (img.content (img.table.inode i)) o buf := by
  obtain ⟨_, hle⟩ := writable_eq_ok.1 hi
  have hsize := size_written env bs (img.table.inode i) hend
  refine content_eq_overwrite (by omega) (by rw [hsize]; omega) fun q hq => ?_
  exact fileByte_written h hi hend hlen hbs env (by omega)

end Write

/-! ## Paths to objects -/

/-- A path of at most ten names that leads to a node. -/
structure HasNode (img : Image) (path : FsPath) (n : Node) : Prop where
  length_le : path.names.length ≤ maxPathComponents
  node : img.tree path.names = some n

variable {img : Image} {path : FsPath} {env : Env}

theorem HasNode.of_insert {t : Names} {n : Node} (hl : path.names.length ≤ maxPathComponents)
    (h : img.tree = t.insert path.names n) : img.HasNode path n := ⟨hl, h ▸ if_pos rfl⟩

theorem HasNode.translate {n : Node} (hn : img.HasNode path n) : ∃ i,
    img.table.translate path = .ok i ∧ walk img.table.children 2 path.names = some i ∧
      img.node i = n := by
  obtain ⟨i, hi, hnode⟩ := Option.map_eq_some_iff.1 hn.node
  refine ⟨i, resolve_eq_ok.2 ?_, hi, hnode⟩
  rwa [List.take_of_length_le hn.length_le]

theorem HasNode.regular {a : Attrs} {c : List UInt8} (h : img.WF)
    (hn : img.HasNode path (.file a c)) : ∃ i, img.table.regular path = .ok i ∧
      walk img.table.children 2 path.names = some i ∧ (img.table.inode i).isDir = false ∧
      (img.table.inode i).attrs = a ∧ img.content (img.table.inode i) = c := by
  obtain ⟨i, hi, hw, hnode⟩ := hn.translate
  have hlive := h.table.live_of_translate hi
  have hd : (img.table.inode i).isDir = false := by
    by_contra hd
    rw [node_eq_dir (by simpa using hd)] at hnode
    cases hnode
  rw [node_eq_file hd] at hnode
  obtain ⟨ha, hc⟩ := Node.file.inj hnode
  exact ⟨i, regular_eq_ok.2 ⟨hi, h.table.isReg hlive hd⟩, hw, hd, ha, hc⟩

/-! ## Trees after a call -/

section Others

variable (h : img.WF) {i o : ℕ} {buf : List UInt8} {bs : List ℕ}
  (hi : img.table.writable path o = .ok i) (hend : o + buf.length ≤ 1019 * 4096)
  (hlen : bs.length = blocksFor (o + buf.length) - (img.table.inode i).nptrs)
  (hbs : bs <+: img.free) {j : ℕ} (hj : img.table.Live j) (hne : j ≠ i)
include h hi hend hlen hbs hj hne

/-- The blocks of other objects stay the same when data is written to a file. -/
theorem block_dataLog_of_ne {r : Role} {b : ℕ} (ho : img.table.Owns j r b) :
    (img.puts (img.dataLog env i buf o bs)).block b = img.block b := by
  have hlive := (h.table.of_regular (writable_eq_ok.1 hi).1).1
  refine puts_block_of_notMem (fun w hw => (lba_dataLog h hi hend hlen hbs hw).1) fun w hw he => ?_
  rcases (lba_dataLog h hi hend hlen hbs hw).2 with h1 | ⟨k, ho'⟩ | hb
  · have := (h.table.owned hj ho).1
    omega
  · rw [he] at ho'
    exact hne (h.table.disjoint hj hlive ho ho').1
  · rw [he] at hb
    exact (h.unreferenced_of_mem_free (hbs.subset hb)).2.2 ⟨j, r, hj, ho⟩

/-- So do the other nodes. -/
theorem node_dataLog_of_ne : (img.puts (img.dataLog env i buf o bs)).node j = img.node j :=
  node_of_owned h hj fun _ _ ho => block_dataLog_of_ne h hi hend hlen hbs hj hne ho

end Others

end Image

/-- The attributes of a file after bytes are written up to `e`. -/
def Attrs.written (env : Env) (e : ℕ) (a : Attrs) : Attrs :=
  { a with
    size := if a.size.toInt < e then Int32.ofInt e else a.size
    mtime := timeOf env.now }

/-- The attributes of a file that is truncated. -/
def Attrs.truncated (env : Env) (a : Attrs) : Attrs := { a with size := 0, mtime := timeOf env.now }

/-- Attributes with other permissions. -/
def Attrs.chmod (mode : UInt32) (a : Attrs) : Attrs :=
  { a with mode := (a.mode &&& sIfmt) ||| (mode &&& ~~~sIfmt) }

/-- Attributes with other times. -/
def Attrs.utime (modtime : Int64) (a : Attrs) : Attrs :=
  { a with mtime := timeOf modtime, ctime := timeOf modtime }

/-- A node with other attributes. -/
def Node.withAttrs (g : Attrs → Attrs) : Node → Node
  | .file a c => .file (g a) c
  | .dir a => .dir (g a)

theorem FsInode.attrs_written (env : Env) (e : ℕ) (bs : List ℕ) (x : FsInode) :
    (x.written env e bs).attrs = x.attrs.written env e := by
  obtain ⟨hmode, _, huid, hgid, hctime⟩ := FsInode.alloc_mode x x.nptrs bs
  rw [attrs, attrs, Attrs.written]
  simp only [written, hmode, huid, hgid, hctime]

namespace Image

variable {img : Image} {path : FsPath} {env : Env}

/-- The tree after a file is written. -/
theorem WriteEnds.tree_ok (h : img.WF) {a : Attrs} {c : List UInt8}
    (hn : img.HasNode path (.file a c)) {o : ℕ} {buf : List UInt8}
    (hend : o + buf.length ≤ 1019 * 4096) {n : ℕ} {ws : List Write}
    (he : img.WriteEnds env path buf o (.ok n) ws) : (img.puts ws).tree =
      Names.insert img.tree path.names
        (.file (a.written env (o + buf.length)) (overwrite c o buf)) := by
  cases he with
  | @done i bs hi hlen hbs =>
    obtain ⟨i', hreg, hw, hd, ha, hc⟩ := hn.regular h
    obtain rfl := Except.ok.inj ((writable_eq_ok.1 hi).1.symm.trans hreg)
    obtain ⟨halong, hagree⟩ := along_dataLog h hi hend hlen hbs env
    have hwf : (img.puts (img.dataLog env i buf o bs)).WF := halong.last
    have hset := canSetInode_written h hi hend hlen hbs env
    have hd' : ((img.table.inode i).written env (o + buf.length) bs).isDir = false := by
      rw [FsInode.isDir, mode_written]
      exact hd
    have hcontent := content_written h hi hend hlen hbs env
    rw [puts_append, puts_cons, puts_nil] at hcontent ⊢
    funext ns
    rw [tree_putInode hwf hset (fun hdt => by rw [hd'] at hdt; cases hdt)
      (by rw [hagree.walk h.table, hw]) ns, Names.insert]
    split_ifs with hns
    · -- At the path is the new file; what the inode of the file said is overwritten.
      have hinode : ((img.puts (img.dataLog env i buf o bs)).put
          ⟨i, ((img.table.inode i).written env (o + buf.length) bs).encode⟩).table.inode i =
          (img.table.inode i).written env (o + buf.length) bs := by
        rw [table_inode, put_block_self (w := ⟨i, _⟩) (hwf.table.lt_of_live hset.live).2,
          FsInode.decode_encode]
      rw [node_eq_file (by rw [hinode, hd']), hinode, hcontent, FsInode.attrs_written, ha, hc]
    · -- Other paths lead to other objects, which no block of the write belongs to.
      rw [tree_of_walk h hw (hagree.walk h.table)
        (fun j hj hne => node_dataLog_of_ne h hi hend hlen hbs hj hne) ns, if_neg hns]

/-- The tree stays the same if a file is not written. -/
theorem WriteEnds.tree_ne_ok (h : img.WF) {o : ℕ} {buf : List UInt8} {r : Res ℕ} {ws : List Write}
    (he : img.WriteEnds env path buf o r ws) (hr : ∀ n, r ≠ .ok n) :
    (img.puts ws).tree = img.tree := by
  cases he with
  | refused => rfl
  | noSpace => exact tree_bitWrites h
  | done => exact absurd rfl (hr _)

/-- The tree after a file is truncated. -/
theorem TruncateEnds.tree_ok (h : img.WF) {a : Attrs} {c : List UInt8}
    (hn : img.HasNode path (.file a c)) {r : Res Unit} {ws : List Write}
    (he : img.TruncateEnds env path 0 r ws) : r = .ok () ∧ (img.puts ws).tree =
      Names.insert img.tree path.names (.file (a.truncated env) []) := by
  obtain ⟨i', hreg, hw, hd, ha, _⟩ := hn.regular h
  cases he with
  | refused hl => rw [truncatable_eq_ok.2 ⟨rfl, hreg⟩] at hl; cases hl
  | @done i hl =>
    obtain rfl := Except.ok.inj ((truncatable_eq_ok.1 hl).2.symm.trans hreg)
    have hset := canTruncate h env hreg
    have hptr := ptrs_truncated h env hreg
    have hd' : ((img.table.inode i).truncated env).isDir = false := hd
    have hinode : (img.put ⟨i, ((img.table.inode i).truncated env).encode⟩).table.inode i =
        (img.table.inode i).truncated env := by
      rw [table_inode, put_block_self (w := ⟨i, _⟩) (h.table.lt_of_live hset.live).2,
        FsInode.decode_encode]
    refine ⟨rfl, funext fun ns => ?_⟩
    rw [puts_truncate h env hreg, tree_bitWrites (h.putInode hset hptr),
      tree_putInode h hset hptr hw, Names.insert, node_eq_file (by rw [hinode, hd']), hinode, ← ha]
    rfl

/-- The tree after the attributes of an object are changed. -/
theorem SetEnds.tree_ok (h : img.WF) {f : FsInode → FsInode} {g : Attrs → Attrs}
    (hf : ∀ x, (f x).mode &&& sIfmt = x.mode &&& sIfmt ∧ (f x).size = x.size ∧ (f x).ptrs = x.ptrs)
    (hg : ∀ x, (f x).attrs = g x.attrs) {n : Node} (hn : img.HasNode path n) {r : Res Unit}
    {ws : List Write} (he : img.SetEnds path f r ws) : r = .ok () ∧ (img.puts ws).tree =
      Names.insert img.tree path.names (n.withAttrs g) := by
  obtain ⟨i', htr, hw, hnode⟩ := hn.translate
  cases he with
  | refused hl => rw [htr] at hl; cases hl
  | @done i hl =>
    obtain rfl := Except.ok.inj (hl.symm.trans htr)
    have hlive := h.table.live_of_translate hl
    obtain ⟨htype, hsize, hptrs⟩ := hf (img.table.inode i)
    have hset := canSetInode h hlive htype hsize hptrs
    have hlt := (h.table.lt_of_live hlive).2
    have hinode : (img.put ⟨i, (f (img.table.inode i)).encode⟩).table.inode i =
        f (img.table.inode i) := by
      rw [table_inode, put_block_self (w := ⟨i, _⟩) hlt, FsInode.decode_encode]
    refine ⟨rfl, funext fun ns => ?_⟩
    rw [puts_cons, puts_nil, tree_putInode h hset (fun _ => by rw [hptrs]) hw, Names.insert, ← hnode]
    congr 2
    cases hd : (img.table.inode i).isDir with
    | true =>
      rw [node_eq_dir (by rw [hinode, hset.kind, hd]), node_eq_dir hd, hinode, hg]
      rfl
    | false =>
      have hcontent : (img.put ⟨i, (f (img.table.inode i)).encode⟩).content (f (img.table.inode i)) =
          img.content (img.table.inode i) := by
        rw [content, content, hsize]
        refine List.map_congr_left fun q hq => ?_
        -- The bytes of a file are not in the block of its inode.
        have hown := owns_of_lt hd (h.table.size_le hlive (h.table.isReg hlive hd)).2
          (List.mem_range.1 hq)
        have hne : (img.table.inode i).ptrAt (q / 4096) ≠ i := fun he =>
          Role.noConfusion (h.table.disjoint hlive hlive hown (owns_inode.2 he)).2
        rw [fileByte, fileByte, FsInode.ptrAt, hptrs, ← FsInode.ptrAt,
          put_block_of_ne (w := ⟨i, _⟩) hlt hne]
      rw [node_eq_file (by rw [hinode, hset.kind, hd]), node_eq_file hd, hinode, hg, hcontent]
      rfl

end Image

/-! ## The calls -/

section Calls

variable {s : FsState} (h : s.WF) (env : Env) {path : FsPath} {a : Attrs} {c : List UInt8}
include h

/-- What `fs_write` returns, and what it does to the tree. -/
theorem fsWrite_refines (hn : s.img.HasNode path (.file a c)) (buf : List UInt8) {o : ℕ}
    (hend : o + buf.length ≤ 1019 * 4096) : ∃ r s', (fsWrite env path.bytes buf o).run s = (r, s') ∧
      r = (if c.length < o then .err .EINVAL
        else if s.img.free.length < blocksFor (o + buf.length) - blocksFor c.length then .err .ENOSPC
        else .ok buf.length) ∧
      (r = .ok buf.length → s'.img.tree = Names.insert s.img.tree path.names
        (.file (a.written env (o + buf.length)) (overwrite c o buf))) ∧
      (r ≠ .ok buf.length → s'.img.tree = s.img.tree) := by
  obtain ⟨i, hreg, hw, hd, _, hc⟩ := hn.regular h.img
  obtain ⟨hlive, _, h0, hcap⟩ := h.img.table.of_regular hreg
  have hlen := Image.content_length s.img (s.img.table.inode i)
  have hptrs := FsInode.nptrs_of_file hd
  rw [hc] at hlen
  rw [← hlen] at hptrs
  obtain ⟨r, ws, he⟩ := s.img.exists_writeEnds env path buf o
  refine ⟨r, _, fsWrite_run h hend he, ?_, ?_, fun hr => ?_⟩
  · cases he with
    | refused hl =>
      -- The path leads to a file, so that only the offset can be refused.
      have hlt : c.length < o := by
        by_contra hle
        rw [writable_eq_ok.2 ⟨hreg, by omega⟩] at hl
        cases hl
      have hl' : s.img.table.writable path o = .error .EINVAL := by
        rw [writable, hreg]
        exact if_pos (by omega)
      rw [if_pos hlt, Except.error.inj (hl.symm.trans hl')]
    | noSpace hl hf =>
      obtain ⟨hreg', hle⟩ := writable_eq_ok.1 hl
      obtain rfl := Except.ok.inj (hreg'.symm.trans hreg)
      -- A file has as many blocks as its contents need.
      rw [hptrs] at hf
      rw [if_neg (by omega), if_pos hf]
    | done hl hbs hfree =>
      obtain ⟨hreg', hle⟩ := writable_eq_ok.1 hl
      obtain rfl := Except.ok.inj (hreg'.symm.trans hreg)
      have hle' := hfree.length_le
      rw [hptrs] at hbs
      rw [if_neg (by omega), if_neg (by omega)]
  · rintro rfl
    exact he.tree_ok h.img hn hend
  · -- A write that returns a count returns the length of `buf`.
    refine he.tree_ne_ok h.img fun n hn => hr ?_
    subst hn
    cases he
    rfl

theorem fsTruncate_refines (hn : s.img.HasNode path (.file a c)) :
    ∃ s', (fsTruncate env path.bytes 0).run s = (.ok (), s') ∧
      s'.img.tree = Names.insert s.img.tree path.names (.file (a.truncated env) []) := by
  obtain ⟨r, ws, he⟩ := s.img.exists_truncateEnds env path 0
  obtain ⟨rfl, htree⟩ := he.tree_ok h.img hn
  exact ⟨_, fsTruncate_run h he, htree⟩

theorem fsChmod_refines {n : Node} (hn : s.img.HasNode path n) (mode : UInt32) :
    ∃ s', (fsChmod path.bytes mode).run s = (.ok (), s') ∧
      s'.img.tree = Names.insert s.img.tree path.names (n.withAttrs (.chmod mode)) := by
  obtain ⟨r, ws, he⟩ := s.img.exists_setEnds path (.chmod mode)
  obtain ⟨rfl, htree⟩ := he.tree_ok (g := .chmod mode) h.img (Image.chmod_keeps mode) (fun _ => rfl) hn
  exact ⟨_, fsChmod_run h he, htree⟩

theorem fsUtime_refines {n : Node} (hn : s.img.HasNode path n) (modtime : Int64) :
    ∃ s', (fsUtime path.bytes modtime).run s = (.ok (), s') ∧
      s'.img.tree = Names.insert s.img.tree path.names (n.withAttrs (.utime modtime)) := by
  obtain ⟨r, ws, he⟩ := s.img.exists_setEnds path (.utime modtime)
  obtain ⟨rfl, htree⟩ := he.tree_ok (g := .utime modtime) h.img (Image.utime_keeps modtime)
    (fun _ => rfl)
    hn
  exact ⟨_, fsUtime_run h he, htree⟩

end Calls

/-- The type bits of a mode are not permissions. -/
theorem Attrs.chmod_type (mode : UInt32) (a : Attrs) :
    (a.chmod mode).mode &&& sIfmt = a.mode &&& sIfmt :=
  (Image.chmod_keeps mode ⟨a.uid, a.gid, a.mode, a.ctime, a.mtime, a.size, fun _ => 0⟩).1

/-- The operations on a file do what they should to its bytes and attributes, and to nothing else. -/
theorem files_refine {s : FsState} (h : s.WF) (env : Env) {path : FsPath} {a : Attrs}
    {c : List UInt8} (hn : s.img.HasNode path (.file a c)) :
    (∀ (buf : List UInt8) (o : ℕ), o + buf.length ≤ 1019 * 4096 →
      ∃ r s', (fsWrite env path.bytes buf o).run s = (r, s') ∧
        r = (if c.length < o then .err .EINVAL
          else if s.img.free.length < blocksFor (o + buf.length) - blocksFor c.length
          then .err .ENOSPC else .ok buf.length) ∧
        (r = .ok buf.length → s'.img.tree = Names.insert s.img.tree path.names
          (.file (a.written env (o + buf.length)) (overwrite c o buf))) ∧
        (r ≠ .ok buf.length → s'.img.tree = s.img.tree)) ∧
    (∀ len o : ℕ, o + len < 2 ^ 63 →
      (fsRead path.bytes len o).run s = (.ok ((c.drop o).take len), s) ∧
        ((c.drop o).take len).length = min len (c.length - o)) ∧
    (∃ s', (fsTruncate env path.bytes 0).run s = (.ok (), s') ∧
      s'.img.tree = Names.insert s.img.tree path.names (.file (a.truncated env) [])) ∧
    (∀ mode : UInt32, (a.chmod mode).mode &&& sIfmt = a.mode &&& sIfmt ∧
      ∃ s', (fsChmod path.bytes mode).run s = (.ok (), s') ∧
        s'.img.tree = Names.insert s.img.tree path.names (.file (a.chmod mode) c)) ∧
    ∀ modtime : Int64, ∃ s', (fsUtime path.bytes modtime).run s = (.ok (), s') ∧
      s'.img.tree = Names.insert s.img.tree path.names (.file (a.utime modtime) c) := by
  refine ⟨fun buf o hend => fsWrite_refines h env hn buf hend, fun len o hlen => ⟨?_, ?_⟩,
    fsTruncate_refines h env hn, fun mode => ⟨a.chmod_type mode, fsChmod_refines h hn mode⟩,
    fun modtime => fsUtime_refines h hn modtime⟩
  · obtain ⟨i, hreg, _, _, _, hc⟩ := hn.regular h.img
    rw [fsRead_run h hlen, hreg, ← hc]
  · rw [List.length_take, List.length_drop]

/-- `fs_write` keeps the state well-formed. -/
theorem FsState.WF.fsWrite {s s' : FsState} (h : s.WF) {env : Env} {path : FsPath} {buf : List UInt8}
    {o : ℕ} (hend : o + buf.length ≤ 1019 * 4096) {r : Res ℕ}
    (hrun : (Cs5600.fsWrite env path.bytes buf o).run s = (r, s')) : s'.WF := by
  have hop : Op.Ok s.img (.write path buf o) := ⟨Int.natCast_nonneg o, by omega⟩
  have hwf := exec_wf h env hop
  rw [Op.exec, map_run _ hrun] at hwf
  exact hwf

/-- Two bytes are written to an empty file, three bytes are written over the second one of them, and
    then the file is read. -/
theorem files_refine_fileA : ∃ s s',
    (fsWrite ⟨500, 500, 1⟩ pathA.bytes [104, 101] (0 : ℕ)).run fileA = (.ok 2, s) ∧
      (fsWrite ⟨500, 500, 2⟩ pathA.bytes [120, 121, 122] (1 : ℕ)).run s = (.ok 3, s') ∧
      (fsRead pathA.bytes 4096 (0 : ℕ)).run s' = (.ok [104, 120, 121, 122], s') := by
  have hempty : fileA.img.HasNode pathA (.file _ []) := ⟨by decide, rfl⟩
  obtain ⟨r, s, hrun, hr, htree, -⟩ :=
    (files_refine wf_fileA ⟨500, 500, 1⟩ hempty).1 [104, 101] 0 (by decide)
  have hfree : ¬ fileA.img.free.length < blocksFor 2 - blocksFor 0 := by decide +kernel
  obtain rfl : r = .ok 2 := hr.trans ((if_neg (Nat.lt_irrefl 0)).trans (if_neg hfree))
  have hnode : s.img.HasNode pathA (.file _ [104, 101]) := .of_insert (by decide) (htree rfl)
  have hwf := wf_fileA.fsWrite (by decide) hrun
  -- The block of the first two bytes has room for the other ones.
  obtain ⟨r', s', hrun', hr', htree', -⟩ :=
    (files_refine hwf ⟨500, 500, 2⟩ hnode).1 [120, 121, 122] 1 (by decide)
  obtain rfl : r' = .ok 3 :=
    hr'.trans ((if_neg (Nat.not_succ_lt_self)).trans (if_neg (Nat.not_lt_zero _)))
  have hnode' : s'.img.HasNode pathA (.file _ [104, 120, 121, 122]) :=
    .of_insert (by decide) (htree' rfl)
  have hwf' := hwf.fsWrite (by decide) hrun'
  exact ⟨s, s', hrun, hrun', ((files_refine hwf' ⟨500, 500, 3⟩ hnode').2.1 4096 0 (by decide)).1⟩

end Cs5600
