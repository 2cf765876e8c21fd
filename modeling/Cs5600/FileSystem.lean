import Mathlib.Data.List.FinRange
import Cs5600.Disk
import Cs5600.Path

/-!
# The file system

The operations of `homework.c`, under the names of the source. Where the C code
returns a negative error number, an operation returns that error; where it
returns `0`, the operation returns what it gives back through its arguments, if
anything.

The memory the code allocates (`strdup`) is not modelled, nor is its running
out (`ENOMEM`). The inode numbers of the code are never negative: they are the
root's, those of directory entries (31 bits) and those allocated.
-/

namespace Cs5600

open FsM

/-- What the operations ask their surroundings for. -/
structure Env where
  /-- `fuse_get_context()->uid`. -/
  uid : UInt32
  /-- `fuse_get_context()->gid`. -/
  gid : UInt32
  /-- `time(NULL)`. -/
  now : Int64

/-- The conversion of a `time_t` to a `uint32_t`. -/
def timeOf (t : Int64) : UInt32 := t.toUInt64.toUInt32

/-- The conversion to an `int`. -/
def toInt32 (x : ℤ) : ℤ := x.bmod (2 ^ 32)

/-! ## Inodes -/

/-- `read_inode`. -/
def readInode (inum : ℕ) : FsM FsInode := do
  let b ← blockRead inum
  pure (.decode b)

/-- `write_inode`. -/
def writeInode (inum : ℕ) (x : FsInode) : FsM Unit := blockWrite inum x.encode

/-- The block of directory entries that a pointer leads to. -/
def readDir (ptr : UInt32) : FsM DirBlock := do
  let b ← blockRead (cint ptr)
  pure (.decode b)

/-- To write back a block of directory entries. -/
def writeDir (ptr : UInt32) (dir : DirBlock) : FsM Unit := blockWrite (cint ptr) dir.encode

/-- `inode.ptrs[i]`. -/
def FsInode.ptr (x : FsInode) (i : ℤ) : FsM UInt32 :=
  if h : 0 ≤ i ∧ i.toNat < 1019 then pure (x.ptrs ⟨i.toNat, h.2⟩) else fault (.ptrs i)

/-- The inode after `inode.ptrs[i] = v`. -/
def FsInode.setPtr (x : FsInode) (i : ℤ) (v : UInt32) : FsM FsInode :=
  if h : 0 ≤ i ∧ i.toNat < 1019 then
    pure { x with ptrs := Function.update x.ptrs ⟨i.toNat, h.2⟩ v }
  else fault (.ptrs i)

/-- `(size + FS_BLOCK_SIZE - 1) / FS_BLOCK_SIZE`, for the size of an inode. -/
def nblocksOf (size : Int32) : FsM ℤ :=
  if 2 ^ 31 ≤ size.toInt + 4096 then fault .overflow
  else pure ((size.toInt + 4096 - 1).tdiv 4096)

/-! ## The bitmap -/

/-- `allocate_block`: the first free block from 2 on. -/
def allocateBlock : FsM ℕ := do
  let s ← get
  let n := (FsSuper.decode s.superblock).diskSize.toNat
  match (List.range' 2 (n - 2)).find? fun i => !bitTest s.bitmap i with
  | none => err .ENOSPC
  | some i =>
    if 32768 ≤ i then fault (.bitmap i)
    else do
      storeBitmap (bitSet s.bitmap i)
      pure i

/-- `free_block`. -/
def freeBlock (b : ℤ) : FsM Unit := do
  let s ← get
  if b < 0 ∨ 32768 ≤ b then fault (.bitmap b) else storeBitmap (bitClear s.bitmap b.toNat)

/-! ## Path translation -/

/-- `MAX_PATH_COMPONENTS`. -/
def maxPathComponents : ℕ := 10

/-- The components of a path that `translate` collects. -/
def components (path : List UInt8) : List (List UInt8) :=
  ((strtok path).take maxPathComponents).map (·.take maxNameLen)

/-- `d->valid && strcmp(d->name, name) == 0`. -/
def FsDirent.named (d : FsDirent) (name : List UInt8) : Bool := d.valid && cstr d.name == name

/-- The first of the 128 entries of a directory block that satisfies a condition. -/
def DirBlock.find (dir : DirBlock) (p : FsDirent → Bool) : Option (Fin 128) :=
  (List.finRange 128).find? fun k => p (dir k)

/-- The walk of `translate` along the components of a path, from the inode `cur` on. -/
def walkFrom (cur : ℕ) : List (List UInt8) → FsM ℕ
  | [] => pure cur
  | c :: cs => do
    let x ← readInode cur
    failIf (!x.isDir) .ENOTDIR
    let dir ← readDir (x.ptrs 0)
    match dir.find (·.named c) with
    | none => err .ENOENT
    | some k => walkFrom (dir k).inode cs

/-- `translate`: the inode number of a path. -/
def translate (path : List UInt8) : FsM ℕ :=
  if path = [slash] then pure 2 else walkFrom 2 (components path)

/-- `lookup_parent`: the inode number of the parent of a path, and the leaf name. -/
def lookupParent (path : List UInt8) : FsM (ℕ × List UInt8) := do
  failIf (path == [slash]) .EINVAL
  if path = [] then fault .buffer
  else do
    -- One trailing slash is removed; `basename` and `dirname` skip the others.
    let dup := if path.getLast? = some slash then path.dropLast else path
    let leaf := (basename dup).take maxNameLen
    let parent ← translate (dirname dup)
    pure (parent, leaf)

/-! ## Attributes and directory listings -/

/-- `struct stat`. -/
structure Stat where
  mode : UInt32
  uid : UInt16
  gid : UInt16
  size : ℤ
  nlink : ℕ
  mtime : UInt32
  atime : UInt32
  ctime : UInt32
  blocks : ℤ

/-- `inode_to_stat`. -/
def inodeToStat (x : FsInode) : FsM Stat := do
  let blocks ← nblocksOf x.size
  pure
    { mode := x.mode, uid := x.uid, gid := x.gid, size := x.size.toInt, nlink := 1
      mtime := x.mtime, atime := x.mtime, ctime := x.mtime, blocks }

/-- `fs_getattr`. -/
def fsGetattr (path : List UInt8) : FsM Stat := do
  let inum ← translate path
  let x ← readInode inum
  inodeToStat x

/-- The calls of a `filler` function: each with a name and the attributes of that object. -/
abbrev Calls := List (List UInt8 × Stat)

/-- The loop of `fs_readdir` over the entries `ks`, after the calls made so far. The filler says,
    given its calls up to now, whether to stop. -/
def readdirLoop (dir : DirBlock) (filler : Calls → Bool) (calls : Calls) :
    List (Fin 128) → FsM Calls
  | [] => pure calls
  | k :: ks =>
    if (dir k).valid then do
      match ← attempt (readInode (dir k).inode) with
      | none => readdirLoop dir filler calls ks
      | some x => do
        let st ← inodeToStat x
        let calls := calls ++ [(cstr (dir k).name, st)]
        if filler calls then pure calls else readdirLoop dir filler calls ks
    else readdirLoop dir filler calls ks

/-- `fs_readdir`: the calls of the filler. -/
def fsReaddir (path : List UInt8) (filler : Calls → Bool) : FsM Calls := do
  let inum ← translate path
  let x ← readInode inum
  failIf (!x.isDir) .ENOTDIR
  let dir ← readDir (x.ptrs 0)
  readdirLoop dir filler [] (List.finRange 128)

/-! ## Creating and removing objects -/

/-- The directory with the entry `k` naming the inode `inum`. -/
def DirBlock.add (dir : DirBlock) (k : Fin 128) (inum : Fin (2 ^ 31)) (name : List UInt8) :
    DirBlock :=
  Function.update dir k { valid := true, inode := inum, name := strncpy name }

/-- The directory with the entry `k` no longer valid. -/
def DirBlock.invalidate (dir : DirBlock) (k : Fin 128) : DirBlock :=
  Function.update dir k { dir k with valid := false }

/-- The directory with the entry `k` renamed. -/
def DirBlock.rename (dir : DirBlock) (k : Fin 128) (name : List UInt8) : DirBlock :=
  Function.update dir k { dir k with name := strncpy name }

/-- The inode of a new object. -/
def newInode (env : Env) (mode : UInt32) (size : Int32) (ptrs : Fin 1019 → UInt32) : FsInode where
  uid := env.uid.toUInt16
  gid := env.gid.toUInt16
  mode := mode
  ctime := timeOf env.now
  mtime := timeOf env.now
  size := size
  ptrs := ptrs

/-- The end of `fs_create` and `fs_mkdir`: the new object gets the first free entry. -/
def addEntry (ptr : UInt32) (dir : DirBlock) (inum : ℕ) (leaf : List UInt8) : FsM Unit :=
  match dir.find (!·.valid) with
  | none => err .ENOSPC
  | some k => writeDir ptr (dir.add k (Fin.ofNat _ inum) leaf)

/-- `fs_create`. -/
def fsCreate (env : Env) (path : List UInt8) (mode : UInt32) : FsM Unit := do
  let (parent, leaf) ← lookupParent path
  let parentInode ← readInode parent
  failIf (!parentInode.isDir) .ENOTDIR
  let dir ← readDir (parentInode.ptrs 0)
  failIf (dir.find (·.named leaf)).isSome .EEXIST
  let inum ← allocateBlock
  writeInode inum (newInode env mode 0 fun _ => 0)
  addEntry (parentInode.ptrs 0) dir inum leaf

/-- `fs_mkdir`. -/
def fsMkdir (env : Env) (path : List UInt8) (mode : UInt32) : FsM Unit := do
  let (parent, leaf) ← lookupParent path
  let parentInode ← readInode parent
  failIf (!parentInode.isDir) .ENOTDIR
  let dir ← readDir (parentInode.ptrs 0)
  failIf (dir.find (·.named leaf)).isSome .EEXIST
  let inum ← allocateBlock
  let dblk ← allocateBlock
  blockWrite dblk Block.zero
  writeInode inum
    (newInode env (sIfdir ||| mode) 4096 (Function.update (fun _ => 0) 0 (UInt32.ofNat dblk)))
  addEntry (parentInode.ptrs 0) dir inum leaf

/-- The loop of `fs_unlink` freeing the blocks `is` of an inode. -/
def freePtrs (x : FsInode) : List ℕ → FsM Unit
  | [] => pure ()
  | i :: is => do
    let b ← x.ptr i
    freeBlock (cint b)
    freePtrs x is

/-- `fs_unlink`. Unlike `fs_create`, it does not check that the parent is a directory. -/
def fsUnlink (path : List UInt8) : FsM Unit := do
  let (parent, leaf) ← lookupParent path
  let parentInode ← readInode parent
  let dir ← readDir (parentInode.ptrs 0)
  match dir.find (·.named leaf) with
  | none => err .ENOENT
  | some k => do
    let x ← readInode (dir k).inode
    failIf x.isDir .EISDIR
    writeDir (parentInode.ptrs 0) (dir.invalidate k)
    freeBlock (dir k).inode
    let n ← nblocksOf x.size
    freePtrs x (List.range n.toNat)

/-- `fs_rmdir`. It does not check that the parent is a directory either. -/
def fsRmdir (path : List UInt8) : FsM Unit := do
  let (parent, leaf) ← lookupParent path
  let parentInode ← readInode parent
  let dir ← readDir (parentInode.ptrs 0)
  match dir.find (·.named leaf) with
  | none => err .ENOENT
  | some k => do
    let x ← readInode (dir k).inode
    failIf (!x.isDir) .ENOTDIR
    let entries ← readDir (x.ptrs 0)
    failIf (entries.find (·.valid)).isSome .ENOTEMPTY
    writeDir (parentInode.ptrs 0) (dir.invalidate k)
    freeBlock (dir k).inode
    freeBlock (cint (x.ptrs 0))

/-- `fs_rename`. Nor does it check that the parent is a directory. -/
def fsRename (srcPath dstPath : List UInt8) : FsM Unit := do
  let (srcParent, srcLeaf) ← lookupParent srcPath
  let (dstParent, dstLeaf) ← lookupParent dstPath
  failIf (srcParent != dstParent) .EINVAL
  let parentInode ← readInode srcParent
  let dir ← readDir (parentInode.ptrs 0)
  failIf (dir.find (·.named dstLeaf)).isSome .EEXIST
  match dir.find (·.named srcLeaf) with
  | none => err .ENOENT
  | some k => writeDir (parentInode.ptrs 0) (dir.rename k dstLeaf)

/-! ## Changing attributes -/

/-- `fs_chmod`. -/
def fsChmod (path : List UInt8) (mode : UInt32) : FsM Unit := do
  let inum ← translate path
  let x ← readInode inum
  writeInode inum { x with mode := (x.mode &&& sIfmt) ||| (mode &&& ~~~sIfmt) }

/-- `fs_utime`. -/
def fsUtime (path : List UInt8) (modtime : Int64) : FsM Unit := do
  let inum ← translate path
  let x ← readInode inum
  writeInode inum { x with mtime := timeOf modtime, ctime := timeOf modtime }

/-! ## File contents -/

/-- The loop of `fs_truncate` freeing the blocks `is` of an inode, and clearing its pointers. -/
def clearPtrs (x : FsInode) : List ℕ → FsM FsInode
  | [] => pure x
  | i :: is => do
    let b ← x.ptr i
    freeBlock (cint b)
    let x ← x.setPtr i 0
    clearPtrs x is

/-- `fs_truncate`. -/
def fsTruncate (env : Env) (path : List UInt8) (len : ℤ) : FsM Unit := do
  failIf (len != 0) .EINVAL
  let inum ← translate path
  let x ← readInode inum
  failIf (!x.isReg) .EISDIR
  let n ← nblocksOf x.size
  let x ← clearPtrs x (List.range n.toNat)
  writeInode inum { x with size := 0, mtime := timeOf env.now }

/-- The `n` bytes of a block from `off` on. -/
def Block.slice (b : Block) (off n : ℕ) : List UInt8 := (List.range n).map fun i => b.byte (off + i)

/-- A block with bytes copied into it, from `off` on. -/
def Block.patch (b : Block) (off : ℕ) (bytes : List UInt8) : Block := fun i =>
  if off ≤ i.1 ∧ i.1 < off + bytes.length then bytes.getD (i - off) 0 else b i

/-- The loop of `fs_read`: the `len` bytes from `boff` of the block number `start` on. -/
def readLoop (x : FsInode) (len : ℕ) (start : ℤ) (boff : Fin 4096) : FsM (List UInt8) :=
  if _h : len = 0 then pure []
  else do
    let blk ← x.ptr start
    let b ← blockRead (cint blk)
    let n := min (4096 - boff.1) len
    let rest ← readLoop x (len - n) (start + 1) 0
    pure (b.slice boff n ++ rest)
termination_by len
decreasing_by omega

/-- The part of `fs_read` after its checks. -/
def readFile (x : FsInode) (len : ℕ) (offset : ℤ) : FsM (List UInt8) :=
  let size := x.size.toInt
  if size ≤ offset then pure []
  else
    -- `offset + len` and its comparison are in `size_t`.
    let n := if size % 2 ^ 64 < (offset + len) % 2 ^ 64 then ((size - offset) % 2 ^ 64).toNat else len
    let boff := offset.tmod 4096
    if n ≠ 0 ∧ boff < 0 then fault .buffer
    else readLoop x n (toInt32 (offset.tdiv 4096)) (Fin.ofNat _ boff.toNat)

/-- `fs_read`: the bytes read, whose number the C code returns. -/
def fsRead (path : List UInt8) (len : ℕ) (offset : ℤ) : FsM (List UInt8) := do
  let inum ← translate path
  let x ← readInode inum
  failIf (!x.isReg) .EISDIR
  readFile x len offset

/-- The loop of `fs_write` allocating the `n` blocks from the number `i` on. -/
def allocPtrs (x : FsInode) (i : ℤ) : ℕ → FsM FsInode
  | 0 => pure x
  | n + 1 => do
    let b ← allocateBlock
    let x ← x.setPtr i (UInt32.ofNat b)
    allocPtrs x (i + 1) n

/-- The loop of `fs_write` copying the buffer, from `boff` of the block number `start` on. -/
def writeLoop (x : FsInode) (buf : List UInt8) (start : ℤ) (boff : Fin 4096) : FsM ℕ :=
  if _h : buf = [] then pure 0
  else do
    let blk ← x.ptr start
    let b ← blockRead (cint blk)
    let n := min (4096 - boff.1) buf.length
    blockWrite (cint blk) (b.patch boff (buf.take n))
    let rest ← writeLoop x (buf.drop n) (start + 1) 0
    pure (n + rest)
termination_by buf.length
decreasing_by
  have := List.length_pos_of_ne_nil _h
  rw [List.length_drop]
  omega

/-- The part of `fs_write` after its checks. -/
def writeFile (env : Env) (inum : ℕ) (x : FsInode) (buf : List UInt8) (offset : ℤ) : FsM ℕ := do
  let endOffset := (offset + buf.length) % 2 ^ 64
  let curBlocks ← nblocksOf x.size
  let requiredBlocks := toInt32 ((endOffset + 4096 - 1) % 2 ^ 64 / 4096)
  let x ← allocPtrs x curBlocks (requiredBlocks - curBlocks).toNat
  let boff := offset.tmod 4096
  if buf ≠ [] ∧ boff < 0 then fault .buffer
  else do
    let written ← writeLoop x buf (toInt32 (offset.tdiv 4096)) (Fin.ofNat _ boff.toNat)
    let size := if x.size.toInt % 2 ^ 64 < endOffset then Int32.ofInt endOffset else x.size
    writeInode inum { x with size, mtime := timeOf env.now }
    pure written

/-- `fs_write`: the number of bytes written. -/
def fsWrite (env : Env) (path : List UInt8) (buf : List UInt8) (offset : ℤ) : FsM ℕ := do
  let inum ← translate path
  let x ← readInode inum
  failIf (!x.isReg) .EISDIR
  failIf (x.size.toInt < offset) .EINVAL
  writeFile env inum x buf offset

/-! ## File system statistics -/

/-- `struct statvfs`. -/
structure Statvfs where
  bsize : ℕ
  blocks : ℤ
  bfree : ℤ
  bavail : ℤ
  namemax : ℕ
  frsize : ℕ
  files : ℕ
  ffree : ℕ
  favail : ℕ

/-- `fs_statfs`. -/
def fsStatfs : FsM Statvfs := do
  let s ← get
  let n := (FsSuper.decode s.superblock).diskSize.toNat
  if 32768 < n then fault (.bitmap 32768)
  else
    let used := (List.range n).countP (bitTest s.bitmap)
    pure
      { bsize := 4096, blocks := n - 2, bfree := n - used, bavail := n - used
        namemax := maxNameLen, frsize := 0, files := 0, ffree := 0, favail := 0 }

/-! ## Calls -/

/-- A call of an operation, with its arguments. -/
inductive Op
  | getattr (path : FsPath)
  | readdir (path : FsPath) (filler : Calls → Bool)
  | create (path : FsPath) (mode : UInt32)
  | mkdir (path : FsPath) (mode : UInt32)
  | unlink (path : FsPath)
  | rmdir (path : FsPath)
  | rename (src dst : FsPath)
  | chmod (path : FsPath) (mode : UInt32)
  | utime (path : FsPath) (modtime : Int64)
  | truncate (path : FsPath) (len : ℤ)
  | read (path : FsPath) (len : ℕ) (offset : ℤ)
  | write (path : FsPath) (buf : List UInt8) (offset : ℤ)
  | statfs

/-- What a successful call gives back. -/
inductive Out
  | done
  | stat (st : Stat)
  | calls (cs : Calls)
  | bytes (bs : List UInt8)
  | count (n : ℕ)
  | statvfs (st : Statvfs)

/-- The operation that a call is about. -/
def Op.exec (env : Env) : Op → FsM Out
  | getattr path => Out.stat <$> fsGetattr path.bytes
  | readdir path filler => Out.calls <$> fsReaddir path.bytes filler
  | create path mode => (fun _ => .done) <$> fsCreate env path.bytes mode
  | mkdir path mode => (fun _ => .done) <$> fsMkdir env path.bytes mode
  | unlink path => (fun _ => .done) <$> fsUnlink path.bytes
  | rmdir path => (fun _ => .done) <$> fsRmdir path.bytes
  | rename src dst => (fun _ => .done) <$> fsRename src.bytes dst.bytes
  | chmod path mode => (fun _ => .done) <$> fsChmod path.bytes mode
  | utime path modtime => (fun _ => .done) <$> fsUtime path.bytes modtime
  | truncate path len => (fun _ => .done) <$> fsTruncate env path.bytes len
  | read path len offset => Out.bytes <$> fsRead path.bytes len offset
  | write path buf offset => Out.count <$> fsWrite env path.bytes buf offset
  | statfs => Out.statvfs <$> fsStatfs

end Cs5600
