/-
Opening a file by the path of a process (kernel/syscall.c: `sys_user_open`;
kernel/file.c: `do_open`; kernel/vfs.c: `vfs_open`, `vfs_lookup`,
`alloc_inode`; kernel/rfs.c: `rfs_get_root`, `rfs_create_inode`).

The parts are the functions of `Vfs.lean`, `RfsInode.lean` and
`FileTable.lean`, which work on memory, run here one after another on the
kernel's state. What is added is the translation of the path's address and
the page of an inode: `RfsInode.lean` makes an inode as a value, and
`fillInode` writes it into the page `alloc_page` gave for it. An inode of an
invalid type stops the kernel in both; here no page is taken for it first.

A `World` is what the rest of the system contributes: the devices and the
file systems on them, the descriptor `host_open` returns, link-time
addresses, and what the local variable `node`, of `do_open` or of
`vfs_open`, holds when nothing was stored there. A lookup that finds no file
leaves it so, and neither caller asks: the garbage gets into the file table,
and `vop_fstat` is called through it. What such a call does is not told by
the source, and the model ends there (`wildPointer`). Messages are left out.
-/
import Pke.Model.RfsInode
import Pke.Model.FileTable

namespace Pke.Open

open ByteMem
open Traced (get modify halt)

/-- What the rest of the system contributes to an open. -/
structure World where
  vdev : Vfs.VdevList
  rfs : Vfs.VfsDev → Rfs.RfsFs
  kfd : Int
  opsAddr : Rfs.InodeOps → Nat
  garbage : Nat

/-- A function that works on memory, as a function of the kernel. -/
def onMemory {ε η α : Type} (stop : η → Halt) (p : Traced.Prog Mem ε η α) : K α :=
  fun s => match (p s.mem).2 with
    | .ok a m => ([], .ok a { s with mem := m })
    | .halt e m => ([], .halt (stop e) { s with mem := m })

/-- How a file operation stops the kernel; a wild pointer is not NULL,
but no better. -/
def fileHalt : FileHalt → Halt
  | .panic msg => .panic msg
  | .assertFailed cond => .assertFailed cond
  | .wildPointer => .nullDeref

-- ==== inodes

/-- Offsets into `struct inode`, behind the disk inode. -/
abbrev inTypeOff : Nat := 96
abbrev inumOff : Nat := 100
abbrev inRefOff : Nat := 104
abbrev inFsOff : Nat := 112
abbrev inOpsOff : Nat := 120

def allocInode (inType : Nat) : K Nat := do
  let node ← allocPage
  sw (node + inTypeOff) inType
  return node

/-- `rfs_create_inode`: the inode, in a page of its own. -/
def fillInode (w : World) (fs : Nat) (inode : Rfs.Inode) : K Nat := do
  let node ← allocInode rfsType
  sw node (FileTable.intWord inode.info.size)
  sw (node + 4) (FileTable.intWord inode.info.type)
  sw (node + 8) (FileTable.intWord inode.info.nlinks)
  sw (node + 12) (FileTable.intWord inode.info.blocks)
  (List.finRange rfsNdirect).forM fun i =>
    sd (node + 16 + 8 * i) (inode.info.addrs i)
  sw (node + inumOff) (FileTable.intWord inode.inum)
  sw (node + inRefOff) 0
  sd (node + inFsOff) fs
  sd (node + inOpsOff) (w.opsAddr inode.ops)
  return node

/-- The root directory of the file system on a device. -/
def rfsGetRoot (w : World) (d : Vfs.VfsDev) : K (Rfs.Inode × Nat) := do
  let inode ← onMemory id (Rfs.rfsLoadDinode (w.rfs d) rfsBlknInode)
  let node ← fillInode w d.fs inode
  return (inode, node)

-- ==== lookup

/-- `vfs_get_root`, from the entry on. -/
def rootDir (w : World) (d : Vfs.VfsDev) : K Rfs.Inode := do
  let (inode, node) ← rfsGetRoot w d
  if node = 0 then
    panic "vfs_get_root: failed to get root dir inode!\n"
  else
    return inode

/-- `vop_lookup`: the table for files has no such operation. -/
def vopLookup (w : World) (fuel : Nat) (d : Vfs.VfsDev) (dir : Rfs.Inode)
    (path : Nat) : K (Int × Option Nat) :=
  match dir.ops with
  | .fileops => halt .nullDeref
  | .dirops => do
      let (ret, found) ← onMemory id (Rfs.rfsLookup (w.rfs d) fuel dir path)
      match found with
      | none => return (ret, none)
      | some inode => do
          let node ← fillInode w d.fs inode
          return (ret, some node)

/-- The result, and the inode if one was stored; -1 is the host. -/
def vfsLookup (w : World) (fuel path : Nat) : K (Int × Option Nat) := do
  match ← onMemory id (Vfs.getDevice w.vdev fuel path) with
  | (none, _) => return (-1, some 0)
  | (some d, path) => do
      let dir ← rootDir w d
      let s ← get
      if s.mem path ≠ 47 then
        panic "vfs_lookup: invalid file path!\n"
      else
        vopLookup w fuel d dir path

-- ==== open

/-- The result, and the inode if one was stored. -/
def vfsOpen (w : World) (fuel path flags : Nat) : K (Int × Option Nat) := do
  if flags &&& maskFilemode > oRdwr then
    panic "fs_open: invalid open flags!\n"
  else do
    let (ret, node) ← vfsLookup w fuel path
    if ret = -1 then
      return (w.kfd, none)
    else
      return (0, node)

/-- `rfs_fstat`, the `vop_fstat` of both tables: its result and the size. -/
def rfsFstat (m : Mem) (node : Nat) : Int × Int := (0, Rfs.intAt m node)

def doOpen (w : World) (fuel pfiles path flags : Nat) : K Int := do
  if flags &&& maskFilemode > oRdwr then
    panic "do_ram_open: invalid open flags!\n"
  else do
    let (ret, node) ← vfsOpen w fuel path flags
    onMemory fileHalt (FileTable.doOpen pfiles flags ret (node.getD w.garbage)
      fun m a => node.map fun _ => rfsFstat m a)

end Pke.Open
