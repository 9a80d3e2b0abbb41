/-
Inodes and lookup in the RAM disk's file system (kernel/rfs.c,
kernel/dev.c).

The disk, the I/O buffer of the file system, the path and, by the pointers
of `rfs_lookup`, the directory entries are in memory. An inode in memory is
a value: `rfs_create_inode` takes a fresh page for it and nothing else
points there. `inum` and the sizes are `int`s. The loop over the blocks of
a directory ends with `addrs[]`; what lies behind that array is not read
here. `fuel` bounds the comparison of names. Messages are left out.
-/
import Pke.Model.Rfs
import Pke.Model.UserIo
import Pke.Model.Vfs

namespace Pke.Rfs

open ByteMem
open Traced (get modify halt)

abbrev tFile : Nat := 3

/-- `RFS_MAX_FNAME_LEN`. -/
abbrev rfsMaxFnameLen : Nat := 28

/-- `struct rfs_dinode`. -/
structure Dinode where
  size : Int
  type : Int
  nlinks : Int
  blocks : Int
  addrs : Fin rfsNdirect → Nat

/-- The `int` at an address. -/
def intAt (m : Mem) (a : Nat) : Int := (load m 4 a : Int).bmod (2 ^ 32)

/-- The `struct rfs_dinode` at an address. -/
def dinodeAt (m : Mem) (a : Nat) : Dinode :=
  { size := intAt m a
    type := intAt m (a + 4)
    nlinks := intAt m (a + 8)
    blocks := intAt m (a + 12)
    addrs := fun i => load m 8 (a + 16 + 8 * i) }

/-- The operation tables. -/
inductive InodeOps where
  | dirops | fileops
deriving DecidableEq, Repr

/-- `struct inode`, of this file system. -/
structure Inode where
  info : Dinode
  inum : Int
  ops : InodeOps

/-- The mounted file system: where the disk and the I/O buffer are. -/
structure RfsFs where
  base : Nat
  buffer : Nat

/-- The address of a block of the disk. -/
def RfsFs.block (fs : RfsFs) (blkno : Nat) : Nat :=
  fs.base + blkno * ramdisk0Bsize

/-- Programs of the file system. -/
abbrev R := Traced.Prog Mem Empty Halt

/-- `rfs_r1block`, with the device's `ramdisk0_output`. -/
def rfsR1block (fs : RfsFs) (blkno : Int) : R Unit :=
  if blkno < 0 ∨ blkno ≥ ramdisk0Block then
    halt (.panic "RAM Disk0: input block No out of range!\n")
  else
    modify fun m => copy m fs.buffer (fs.block blkno.toNat) rfsBlksize

def rfsGetOps (type : Int) : R InodeOps :=
  if type = tDir then return .dirops
  else if type = tFile then return .fileops
  else halt (.panic "RFS: invalid file type: %d\n")

/-- `rfs_create_inode` from the disk inode at `din`. -/
def rfsCreateInode (din : Nat) (ino : Int) : R Inode := do
  let m ← get
  let info := dinodeAt m din
  let ops ← rfsGetOps info.type
  return { info := info, inum := ino, ops := ops }

/-- The block read is that of the root inode, whatever `ino` is. -/
def rfsLoadDinode (fs : RfsFs) (ino : Int) : R Inode := do
  rfsR1block fs rfsBlknInode
  rfsCreateInode fs.buffer ino

/-- Load the inode of the directory entry at `de`. -/
def loadEntry (fs : RfsFs) (de : Nat) : R Inode := do
  let m ← get
  rfsR1block fs (intAt m de)
  let m ← get
  rfsCreateInode fs.buffer (intAt m de)

/-- How many directory entries are left in block `i`: the division is of
unsigned numbers, the result is an `int`. -/
def entriesLeft (size : Int) (i : Nat) : Int :=
  let nde := int32 (size - i * rfsBlksize)
  if nde > rfsBlksize then rfsBlksize / direntrySize
  else int32 (u64OfInt nde / direntrySize : Nat)

/-- The inner loop: the entries at `de`, from index `j` on, `n` of them. -/
def searchEntries (fs : RfsFs) (fuel path de : Nat) :
    Nat → Nat → R (Option Inode)
  | 0, _ => return none
  | n + 1, j => do
      let m ← get
      match strcmp fuel (bytesAt m (de + j * direntrySize + 4)) (bytesAt m path) with
      | none => halt .diverge
      | some r =>
          if r = 0 then do
            let node ← loadEntry fs (de + j * direntrySize)
            return some node
          else
            searchEntries fs fuel path de n (j + 1)

/-- The outer loop: `de` is the entry of `addrs[]` itself. -/
def searchBlocks (fs : RfsFs) (fuel path : Nat) (dnode : Dinode) :
    List (Fin rfsNdirect) → R (Option Inode)
  | [] => return none
  | i :: rest =>
      if i < dnode.blocks then do
        match ← searchEntries fs fuel path (dnode.addrs i)
            (entriesLeft dnode.size i).toNat 0 with
        | some node => return some node
        | none => searchBlocks fs fuel path dnode rest
      else
        return none

/-- `rfs_lookup` of the path at `path`: 0 and the inode, or 1. -/
def rfsLookup (fs : RfsFs) (fuel : Nat) (node : Inode) (path : Nat) :
    R (Int × Option Inode) := do
  let m ← get
  if m path = 47 ∧ m (path + 1) = 0 then
    halt (.panic "rfs_lookup: no file name specified!\n")
  else if m path ≠ 47 then
    halt (.panic "rfs_lookup: not an absolute path!\n")
  else do
    match ← searchBlocks fs fuel (path + 1) node.info (List.finRange rfsNdirect) with
    | some found => return (0, some found)
    | none => return (1, none)

end Pke.Rfs
