import Mathlib.Data.Set.Card
import Cs5600.Listing

/-!
# Volumes

A file system as its users see it, apart from how it is laid out on a disk: the
tree of what names lead to, and the numbers of free blocks and of all blocks
(`Volume`). For every call, `Volume.Call` says with which result it ends, and
what it does to the tree and to the number of free blocks; there are no inodes,
pointers or bitmaps in it. The names of a directory are listed in some order,
which is not specified.

This says what the operations are for, but it includes the shortcomings that a
user notices: at most ten names of a path are followed, a call that runs out of
blocks has used up those there were, and one that finds a directory full has
used up those it needed.
-/

namespace Cs5600

/-! ## Nodes -/

/-- The attributes that are shown. -/
def Attrs.stat (a : Attrs) : Stat where
  mode := a.mode
  uid := a.uid
  gid := a.gid
  size := a.size.toInt
  nlink := 1
  mtime := a.mtime
  atime := a.mtime
  ctime := a.mtime
  blocks := (a.size.toInt + 4096 - 1).tdiv 4096

namespace Node

def attrs : Node → Attrs
  | file a _ => a
  | dir a => a

/-- The blocks a node takes: that of its inode, and those of its contents. -/
def blocks : Node → ℕ
  | file _ c => 1 + blocksFor c.length
  | dir _ => 2

end Node

namespace Names

variable (t : Names)

/-- The node that names lead to, one after the other from `dir` on. -/
def follow (dir : List (List UInt8)) : List (List UInt8) → Except Errno Node
  | [] =>
    match t dir with
    | none => .error .ENOENT
    | some n => .ok n
  | c :: cs =>
    match t dir with
    | none => .error .ENOENT
    | some (.file _ _) => .error .ENOTDIR
    | some (.dir _) => follow (dir ++ [c]) cs

/-- The number of names in a directory. -/
noncomputable def count (dir : List (List UInt8)) : ℕ := {name | t (dir ++ [name]) ≠ none}.ncard

/-- A list of the names in a directory, with their attributes. -/
structure Lists (dir : List (List UInt8)) (cs : Calls) : Prop where
  nodup : (cs.map Prod.fst).Nodup
  mem_iff : ∀ {name st}, (name, st) ∈ cs ↔ ∃ n, t (dir ++ [name]) = some n ∧ n.attrs.stat = st

end Names

/-- What a filler is called for, of such a list: up to the call by which it stops the listing. -/
def offered (filler : Calls → Bool) (calls : Calls) : Calls → Calls
  | [] => calls
  | c :: cs =>
    if filler (calls ++ [c]) then calls ++ [c] else offered filler (calls ++ [c]) cs

/-- The names of a path that are followed. -/
def FsPath.place (path : FsPath) : List (List UInt8) := path.names.take maxPathComponents

/-- The names of the parent of a path that are followed. -/
def FsPath.parent (path : FsPath) : List (List UInt8) := path.names.dropLast.take maxPathComponents

/-! ## The calls -/

/-- A file system as its users see it. -/
@[ext]
structure Volume where
  tree : Names
  free : ℕ
  blocks : ℕ

namespace Volume

variable (v : Volume) (env : Env) (path : FsPath)

/-- The node of a path. -/
def find : Except Errno Node := v.tree.follow [] path.place

/-- The node of the parent of a path, and the name of the object there. -/
def leaf : Except Errno (Node × List UInt8) :=
  match path.names.getLast? with
  | none => .error .EINVAL
  | some leaf => (v.tree.follow [] path.parent).map fun n => (n, leaf)

/-- A new object is made, unless there is one or there is no room for it. -/
noncomputable def make (n : Node) : Except Errno Unit × Volume :=
  match v.leaf path with
  | .error e => (.error e, v)
  | .ok (.file _ _, _) => (.error .ENOTDIR, v)
  | .ok (.dir _, leaf) =>
    if v.tree (path.parent ++ [leaf]) ≠ none then (.error .EEXIST, v)
    else if v.free < n.blocks then (.error .ENOSPC, { v with free := 0 })
    else if v.tree.count path.parent < 128 then
      (.ok (), { v with
        tree := v.tree.insert (path.parent ++ [leaf]) n
        free := v.free - n.blocks })
    else (.error .ENOSPC, { v with free := v.free - n.blocks })

/-- Why an object is not unlinked. -/
def unlinkCheck (_ : List (List UInt8)) : Node → Option Errno
  | .file _ _ => none
  | .dir _ => some .EISDIR

open Classical in
/-- Why a directory is not removed. -/
noncomputable def rmdirCheck (ns : List (List UInt8)) : Node → Option Errno
  | .file _ _ => some .ENOTDIR
  | .dir _ => if ∃ name, v.tree (ns ++ [name]) ≠ none then some .ENOTEMPTY else none

/-- An object is removed, unless there is none or a check gives an error. -/
def remove (check : List (List UInt8) → Node → Option Errno) : Except Errno Unit × Volume :=
  match v.leaf path with
  | .error e => (.error e, v)
  | .ok (_, leaf) =>
    match v.tree (path.parent ++ [leaf]) with
    | none => (.error .ENOENT, v)
    | some n =>
      match check (path.parent ++ [leaf]) n with
      | some e => (.error e, v)
      | none =>
        (.ok (), { v with
          tree := v.tree.remove (path.parent ++ [leaf])
          free := v.free + n.blocks })

/-- An object gets another name, in the same directory. -/
def rename (src dst : FsPath) : Except Errno Unit × Volume :=
  match v.leaf src with
  | .error e => (.error e, v)
  | .ok (_, srcLeaf) =>
    match v.leaf dst with
    | .error e => (.error e, v)
    | .ok (_, dstLeaf) =>
      if src.parent ≠ dst.parent then (.error .EINVAL, v)
      else if v.tree (src.parent ++ [dstLeaf]) ≠ none then (.error .EEXIST, v)
      else if v.tree (src.parent ++ [srcLeaf]) = none then (.error .ENOENT, v)
      else
        (.ok (), { v with tree := v.tree.move (src.parent ++ [srcLeaf]) (src.parent ++ [dstLeaf]) })

/-- An object gets other attributes. -/
def setAttrs (g : Attrs → Attrs) : Except Errno Unit × Volume :=
  match v.find path with
  | .error e => (.error e, v)
  | .ok n => (.ok (), { v with tree := v.tree.insert path.place (n.withAttrs g) })

/-- A file becomes empty. -/
def truncate (len : ℤ) : Except Errno Unit × Volume :=
  if len ≠ 0 then (.error .EINVAL, v)
  else
    match v.find path with
    | .error e => (.error e, v)
    | .ok (.dir _) => (.error .EISDIR, v)
    | .ok (.file a c) =>
      (.ok (), { v with
        tree := v.tree.insert path.place (.file (a.truncated env) [])
        free := v.free + blocksFor c.length })

/-- Bytes are written to a file. -/
def write (buf : List UInt8) (o : ℕ) : Except Errno ℕ × Volume :=
  match v.find path with
  | .error e => (.error e, v)
  | .ok (.dir _) => (.error .EISDIR, v)
  | .ok (.file a c) =>
    let need := blocksFor (o + buf.length) - blocksFor c.length
    if c.length < o then (.error .EINVAL, v)
    else if v.free < need then (.error .ENOSPC, { v with free := 0 })
    else
      (.ok buf.length, { v with
        tree := v.tree.insert path.place
          (.file (a.written env (o + buf.length)) (overwrite c o buf))
        free := v.free - need })

/-- The bytes that are read from a file. -/
def read (len o : ℕ) : Except Errno (List UInt8) :=
  match v.find path with
  | .error e => .error e
  | .ok (.dir _) => .error .EISDIR
  | .ok (.file _ c) => .ok ((c.drop o).take len)

/-- The statistics of a volume. Two blocks are not counted, those of the superblock and of the
    bitmap. -/
def statvfs : Statvfs where
  bsize := 4096
  blocks := v.blocks - 2
  bfree := v.free
  bavail := v.free
  namemax := maxNameLen
  frsize := 0
  files := 0
  ffree := 0
  favail := 0

/-- A call ends as an operation does, whose value is given back. -/
def Ends {α : Type} (x : Except Errno α × Volume) (f : α → Out) (r : Res Out) (v' : Volume) : Prop :=
  r = (Res.ofExcept x.1).map f ∧ v' = x.2

/-- How a call ends, and what it does. -/
def Call (v : Volume) (env : Env) : Op → Res Out → Volume → Prop
  | .getattr path => Ends (v.find path, v) fun n => .stat n.attrs.stat
  | .readdir path filler => fun r v' => v' = v ∧
    match v.find path with
    | .error e => r = .err e
    | .ok (.file _ _) => r = .err .ENOTDIR
    | .ok (.dir _) => ∃ cs, v.tree.Lists path.place cs ∧ r = .ok (.calls (offered filler [] cs))
  | .create path mode => Ends (v.make path (Image.newFileNode env mode)) fun _ => .done
  | .mkdir path mode => Ends (v.make path (Image.newDirNode env mode)) fun _ => .done
  | .unlink path => Ends (v.remove path unlinkCheck) fun _ => .done
  | .rmdir path => Ends (v.remove path v.rmdirCheck) fun _ => .done
  | .rename src dst => Ends (v.rename src dst) fun _ => .done
  | .chmod path mode => Ends (v.setAttrs path (.chmod mode)) fun _ => .done
  | .utime path modtime => Ends (v.setAttrs path (.utime modtime)) fun _ => .done
  | .truncate path len => Ends (v.truncate env path len) fun _ => .done
  | .read path len o => Ends (v.read path len o.toNat, v) .bytes
  | .write path buf o => Ends (v.write env path buf o.toNat) .count
  | .statfs => Ends (.ok v.statvfs, v) .statvfs

/-- The arguments of a call are as FUSE passes them: typed modes, paths that do not go through a
    file where the operation does not check it, and ranges that fit. -/
def Allows (v : Volume) : Op → Prop
  | .create _ mode => RegMode mode
  | .mkdir _ mode => PlainMode mode
  | .unlink path | .rmdir path | .rename path _ =>
    ∀ a c leaf, v.leaf path ≠ .ok (.file a c, leaf)
  | .read _ len o => 0 ≤ o ∧ o + len < 2 ^ 63
  | .write _ buf o => 0 ≤ o ∧ o + buf.length ≤ 1019 * 4096
  | _ => True

end Volume

end Cs5600
