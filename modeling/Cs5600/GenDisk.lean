import Cs5600.DiskFmt

/-!
# The script that makes images

`gen-disk.py` makes an image of a description: lines of fields, which define symbols, give the
size of the image, or describe a file or a directory, with its attributes, its blocks and, of a
directory, its entries. The content of the blocks of files is random, with a seed made of
the inode number and the offset; here it is any function of them. What is printed is left out here.

The script marks the inode and the blocks of every object, and notes for each of these blocks
what is to be written there (`Marks`); then it writes the blocks of the image in order.
-/

namespace Cs5600

open Py DiskFmt

namespace GenDisk

/-! ## Descriptions -/

/-- A field of a line: as it stands there, or the number of a symbol. -/
inductive Field
  | str (s : List Char)
  | num (v : ℤ)

namespace Field

/-- `int(x)`. -/
def int : Field → Except PyError ℤ
  | str s => Py.int s
  | num v => .ok v

/-- The number that a field of a structure is assigned. -/
def cint : Field → Except PyError ℤ
  | str _ => .error .type
  | num v => .ok v

/-- `list(map(int, x.split(',')))`. -/
def ints : Field → Except PyError (List ℤ)
  | str s => (s.splitOn ',').mapM Py.int
  | num _ => .error .attribute

end Field

/-- An entry of a directory: whether it is valid, its name and its inode number. -/
structure Entry where
  valid : Bool
  name : List Char
  inum : ℤ

/-- The entry that a field describes. -/
def Field.entry : Field → Except PyError Entry
  | num _ => .error .type
  | str ('-' :: name) => .ok ⟨false, name, 0⟩
  | str s =>
    match s.splitOn ',' with
    | [name, inum] => do
      let inum ← Py.int inum
      pure ⟨true, name, inum⟩
    | _ => .error .value

/-- The class of an object, and what is only in that one. -/
inductive Kind
  | file
  | dir (entries : List Entry)

/-- A `file` or a `dir`. -/
structure Item where
  inum : ℤ
  name : Field
  uid : Field
  gid : Field
  mode : Field
  ctime : Field
  mtime : Field
  size : ℤ
  blocks : List ℤ
  kind : Kind

/-- `file(fields)`. -/
def file : List Field → Except PyError Item
  | [inum, name, uid, gid, mode, ctime, mtime, size, blocks] => do
    let inum ← inum.int
    let size ← size.int
    let blocks ← blocks.ints
    pure { inum, name, uid, gid, mode, ctime, mtime, size, blocks, kind := .file }
  | _ => .error .value

/-- `dir(fields)`, of which the first nine are as those of a file. -/
def dir (fields : List Field) : Except PyError Item := do
  let f ← file (fields.take 9)
  let entries ← (fields.drop 9).mapM Field.entry
  pure { f with kind := .dir entries }

/-- What the lines up to now say. -/
structure Script where
  syms : List Char → Option ℤ
  files : List Item
  dirs : List Item
  nblocks : ℤ

/-- Before the first line. -/
def Script.start : Script := ⟨fun _ => none, [], [], 0⟩

/-- A field, or the number of the symbol that it is. -/
def Script.field (x : Script) : List Char → Except PyError Field
  | '$' :: s => (x.syms ('$' :: s)).elim (.error .key) fun v => .ok (.num v)
  | s => .ok (.str s)

/-- A line, without its end. -/
def Script.line (x : Script) (l : List Char) : Except PyError Script :=
  let fields := split l
  if l.head? = some '#' ∨ fields = [] then .ok x
  else if l.head? = some '$' then
    match fields with
    | sym :: val :: _ => do
      let v ← int0 val
      pure { x with syms := Function.update x.syms sym (some v) }
    | _ => .error .index
  else if fields.head? = some ['s', 'i', 'z', 'e'] then
    match fields with
    | _ :: val :: _ => do
      let n ← Py.int val
      pure { x with nblocks := n }
    | _ => .error .index
  else do
    match ← fields.mapM x.field with
    | .str ['f', 'i', 'l', 'e'] :: fields => do
      let f ← file fields
      pure { x with files := x.files ++ [f] }
    | .str ['d', 'i', 'r'] :: fields => do
      let d ← dir fields
      pure { x with dirs := x.dirs ++ [d] }
    | _ => pure x

/-- The lines of a description. -/
def parse (lines : List (List Char)) : Except PyError Script := lines.foldlM Script.line .start

/-! ## The blocks in use -/

/-- What is written to a block: an inode, or a block of an object. -/
inductive Slot
  | inode (f : Item)
  | block (f : Item) (offset : ℕ)

/-- The bitmap, and the list `blocks` of 400 places. -/
structure Marks where
  map : Bitmap
  blocks : ℕ → Option Slot

namespace Marks

/-- `blocks[i] = x`. -/
def place (m : Marks) (i : ℤ) (x : Slot) : Except PyError Marks := do
  let i ← index 400 i
  pure { m with blocks := Function.update m.blocks i (some x) }

/-- `blockmap.set(i, True)`. -/
def mark (m : Marks) (i : ℤ) : Except PyError Marks := do
  let map ← m.map.set i true
  pure { m with map }

/-- The block `b.1` of an object, at the offset `b.2`. -/
def block (f : Item) (m : Marks) (b : ℤ × ℕ) : Except PyError Marks := do
  -- Where a block is marked already, only a message is printed.
  let _ ← m.map.get b.1
  let m ← m.mark b.1
  m.place b.1 (.block f b.2)

/-- The inode and the blocks of an object. -/
def item (m : Marks) (f : Item) : Except PyError Marks := do
  let m ← m.place f.inum (.inode f)
  let m ← m.mark f.inum
  f.blocks.zipIdx.foldlM (block f) m

/-- The superblock and the bitmap are in use. -/
def start : Except PyError Marks := do
  let m ← Marks.mark ⟨fun _ => 0, fun _ => none⟩ 0
  m.mark 1

end Marks

/-! ## The contents of blocks -/

/-- `inode`, which is the same for both classes. -/
def Item.inode (f : Item) : Except PyError Block := do
  let uid ← f.uid.cint
  let gid ← f.gid.cint
  let mode ← f.mode.cint
  let ctime ← f.ctime.cint
  let mtime ← f.mtime.cint
  if 1019 < f.blocks.length then .error .index
  else
    let ptrs : Fin 1019 → ℤ := fun k => f.blocks.getD k 0
    pure (ofBytes (bytes
      (Inode.fields { uid, gid, mode, ctime, mtime, size := f.size, ptrs })))

/-- The loop of `dir.block`, which fills in one `dirent` again and again: the data, the `dirent`, and
    the place in the data. -/
def putEntry (st : Block × Dirent × ℕ) (e : Entry) : Except PyError (Block × Dirent × ℕ) := do
  let name ← encodeAscii e.name
  let name ← setName st.2.1.name name
  let de : Dirent := ⟨e.valid, e.inum, name⟩
  pure (st.1.patch st.2.2 de.bytes, de, st.2.2 + 32)

/-- `dir.block`. -/
def dirBlock (entries : List Entry) (offset : ℕ) : Except PyError Block := do
  let st ← ((entries.drop (offset * 128)).take 128).foldlM putEntry (Block.zero, .new, 0)
  pure st.1

variable (content : ℤ → ℕ → Block)

/-- What is written to a block. -/
def Slot.write : Slot → Except PyError Block
  | inode f => f.inode
  | block f offset =>
    match f.kind with
    | .file => .ok (content f.inum offset)
    | .dir entries => dirBlock entries offset

/-- The block `i` of the image, from 2 on. -/
def Marks.write (m : Marks) (i : ℕ) : Except PyError Block :=
  if 400 ≤ i then .error .index else (m.blocks i).elim (.ok Block.zero) (·.write content)

/-- The blocks of the image of a description. -/
def genDisk (lines : List (List Char)) : Except PyError (List Block) := do
  let x ← parse lines
  let m ← Marks.start
  let m ← (x.files ++ x.dirs).foldlM Marks.item m
  let sb := ofBytes (bytes (Super.fields ⟨0x30303635, x.nblocks⟩))
  let map := ofBytes (bytes m.map.fields)
  let rest ← (List.range' 2 (x.nblocks.toNat - 2)).mapM (m.write content)
  pure (sb :: map :: rest)

/-! ## What is noted for the blocks -/

/-- The blocks of an object, each with what is written there. -/
def Item.placements (f : Item) : List (ℤ × Slot) :=
  (f.inum, .inode f) :: f.blocks.zipIdx.map fun b => (b.1, .block f b.2)

/-- The blocks of an object. -/
def Item.numbers (f : Item) : List ℤ := f.inum :: f.blocks

theorem Item.numbers_eq (f : Item) : f.placements.map (·.1) = f.numbers := by
  rw [placements, numbers, List.map_cons, List.map_map]
  exact congrArg _ (List.zipIdx_map_fst 0 f.blocks)

namespace Marks

/-- A block is marked, and what is written there is noted. -/
def put (m : Marks) (p : ℤ × Slot) : Marks :=
  ⟨m.map.mark p.1.toNat, Function.update m.blocks p.1.toNat (some p.2)⟩

/-- A block within the list. -/
def InRange (b : ℤ) : Prop := 0 ≤ b ∧ b < 400

variable {m : Marks} {f : Item}

/-- At the start, only the blocks 0 and 1 are marked. -/
theorem exists_start : ∃ m, start = .ok m ∧ (∀ j, m.map.bit j = (decide (1 = j) || decide (0 = j))) ∧
    ∀ j, m.blocks j = none := by
  refine ⟨⟨Bitmap.mark (Bitmap.mark (fun _ => 0) 0) 1, fun _ => none⟩, rfl, fun j => ?_, fun _ => rfl⟩
  rw [Bitmap.bit_mark, Bitmap.bit_mark, Bitmap.bit, Nat.zero_testBit, Bool.or_false]

theorem place_eq {b : ℤ} (hb : InRange b) (x : Slot) :
    m.place b x = .ok { m with blocks := Function.update m.blocks b.toNat (some x) } := by
  obtain ⟨i, rfl⟩ := Int.eq_ofNat_of_zero_le hb.1
  have hi : i < 400 := Int.ofNat_lt.1 hb.2
  rw [place, index_of_lt hi]
  rfl

theorem mark_eq {b : ℤ} (hb : InRange b) : m.mark b = .ok { m with map := m.map.mark b.toNat } := by
  obtain ⟨i, rfl⟩ := Int.eq_ofNat_of_zero_le hb.1
  have hi : i < 32768 := lt_trans (Int.ofNat_lt.1 hb.2) (by decide)
  rw [mark, Bitmap.set_true hi]
  rfl

theorem block_eq {b : ℤ × ℕ} (hb : InRange b.1) :
    block f m b = .ok (m.put (b.1, .block f b.2)) := by
  obtain ⟨i, hi⟩ := Int.eq_ofNat_of_zero_le hb.1
  have hlt : i < 32768 := by
    have := hb.2
    omega
  obtain ⟨r, hr⟩ := Bitmap.exists_get (m := m.map) hlt
  rw [block, hi, hr, ← hi]
  change (do let m ← m.mark b.1; m.place b.1 (.block f b.2)) = _
  rw [mark_eq hb]
  exact place_eq hb _

/-- The blocks of an object are put one after the other. -/
theorem item_eq (hf : ∀ b ∈ f.numbers, InRange b) :
    m.item f = .ok (f.placements.foldl put m) := by
  have hinum := hf f.inum List.mem_cons_self
  rw [item, place_eq hinum]
  change (do
    let m ← mark { m with blocks := Function.update m.blocks f.inum.toNat (some (.inode f)) } f.inum
    f.blocks.zipIdx.foldlM (block f) m) = _
  rw [mark_eq hinum]
  have hloop := foldlM_eq_ok (l := f.blocks.zipIdx) (f := block f)
    (g := fun m b => m.put (b.1, .block f b.2))
    fun m b hb => block_eq (hf b.1 (List.mem_cons_of_mem _ (List.fst_mem_of_mem_zipIdx hb)))
  refine (hloop _).trans ?_
  rw [Item.placements, List.foldl_cons, List.foldl_map]
  rfl

/-- So are the blocks of all objects. -/
theorem items_eq {items : List Item} (h : ∀ f ∈ items, ∀ b ∈ f.numbers, InRange b) :
    items.foldlM item m = .ok ((items.flatMap Item.placements).foldl put m) := by
  rw [foldlM_eq_ok (g := fun m f => f.placements.foldl put m) fun m f hf => item_eq (h f hf),
    List.foldl_flatMap]

/-! ### The result of putting blocks one after the other -/

variable {ps : List (ℤ × Slot)} {p : ℤ × Slot} {j : ℕ}

theorem map_put : (m.put p).map = m.map.mark p.1.toNat := rfl

theorem blocks_put_self : (m.put p).blocks p.1.toNat = some p.2 := Function.update_self ..

theorem blocks_put_of_ne (hj : j ≠ p.1.toNat) : (m.put p).blocks j = m.blocks j :=
  Function.update_of_ne hj ..

theorem bit_foldl_put : (ps.foldl put m).map.bit j =
    (decide (j ∈ ps.map (·.1.toNat)) || m.map.bit j) := by
  induction ps generalizing m with
  | nil => rfl
  | cons p ps ih =>
    rw [List.foldl_cons, ih, map_put, Bitmap.bit_mark, List.map_cons]
    simp only [List.mem_cons, Bool.decide_or, eq_comm (a := j)]
    rw [← Bool.or_assoc, Bool.or_comm (decide (j ∈ _))]

theorem blocks_foldl_put_of_notMem (hj : j ∉ ps.map (·.1.toNat)) :
    (ps.foldl put m).blocks j = m.blocks j := by
  induction ps generalizing m with
  | nil => rfl
  | cons p ps ih =>
    rw [List.map_cons, List.mem_cons, not_or] at hj
    rw [List.foldl_cons, ih hj.2, blocks_put_of_ne hj.1]

/-- What is noted for a block that is put once. -/
theorem blocks_foldl_put_of_mem (hnd : (ps.map (·.1.toNat)).Nodup) (hp : p ∈ ps) :
    (ps.foldl put m).blocks p.1.toNat = some p.2 := by
  induction ps generalizing m with
  | nil => exact absurd hp List.not_mem_nil
  | cons q ps ih =>
    rw [List.map_cons, List.nodup_cons] at hnd
    rw [List.foldl_cons]
    rcases List.mem_cons.1 hp with rfl | hp
    · rw [blocks_foldl_put_of_notMem hnd.1, blocks_put_self]
    · exact ih hnd.2 hp

/-- Something is noted only for blocks that are put. -/
theorem mem_of_blocks_foldl_put {x : Slot} (hx : (ps.foldl put m).blocks j = some x)
    (hm : m.blocks j ≠ some x) : ∃ p ∈ ps, p.2 = x := by
  induction ps generalizing m with
  | nil => exact absurd hx hm
  | cons p ps ih =>
    by_cases hput : (m.put p).blocks j = some x
    · refine ⟨p, List.mem_cons_self, ?_⟩
      by_cases hj : j = p.1.toNat
      · rw [hj, blocks_put_self] at hput
        exact Option.some.inj hput
      · rw [blocks_put_of_ne hj] at hput
        exact absurd hput hm
    · obtain ⟨q, hq, hqx⟩ := ih hx hput
      exact ⟨q, List.mem_cons_of_mem _ hq, hqx⟩

/-- All blocks can be written if what is put can be, and the list has a place for each. -/
theorem exists_writes (content : ℤ → ℕ → Block) (hm : ∀ j, m.blocks j = none)
    (hps : ∀ p ∈ ps, ∃ b, p.2.write content = .ok b) {n : ℕ} (hn : 2 + n ≤ 400) :
    ∃ rest, (List.range' 2 n).mapM ((ps.foldl put m).write content) = .ok rest := by
  refine exists_mapM_eq_ok fun i hi => ?_
  have hlt : ¬400 ≤ i := by
    have := List.mem_range'_1.1 hi
    omega
  rw [Marks.write, if_neg hlt]
  cases hslot : (ps.foldl put m).blocks i with
  | none => exact ⟨_, rfl⟩
  | some slot =>
    obtain ⟨p, hp, rfl⟩ := mem_of_blocks_foldl_put hslot (by simp [hm])
    exact hps p hp

end Marks

end GenDisk

end Cs5600
