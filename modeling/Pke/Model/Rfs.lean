/-
The RAM disk and the file system mounted on it at boot (kernel/dev.c,
kernel/rfs.c): which pages the mount takes and what it writes into
them. `struct fs`, the I/O buffer and the free map are laid out in
their pages as the compiler lays them out.
-/
import Pke.Model.Pmm

namespace Pke

open ByteMem
open Traced (get modify emit halt)

abbrev ramdisk0Block : Nat := 128
abbrev ramdisk0Bsize : Nat := pgSize
abbrev rfsBlksize : Nat := pgSize
abbrev rfsType : Nat := 0
abbrev rfsMagic : Nat := 12345
abbrev rfsMaxInodeNum : Nat := 10
abbrev rfsNdirect : Nat := 10
abbrev rfsBlknSuper : Nat := 0
abbrev rfsBlknInode : Nat := 1
abbrev rfsBlknBitmap : Nat := 11
abbrev rfsBlknFree : Nat := 12

/-- Inode types. -/
abbrev tFree : Nat := 0
abbrev tDir : Nat := 2

/-- `sizeof(struct rfs_direntry)`. -/
abbrev direntrySize : Nat := 32

/-- Write one block of the RAM disk from `buffer`. -/
def ramdisk0Input (buffer blkno : Nat) : K Unit := do
  if blkno ≥ ramdisk0Block then
    panic "RAM Disk0: input block No out of range!\n"
  else
    let s ← get
    memcpy (s.ramdisk0BaseAddr + blkno * ramdisk0Bsize) buffer ramdisk0Bsize

/-- Read one block of the RAM disk into `buffer`. -/
def ramdisk0Output (buffer blkno : Nat) : K Unit := do
  if blkno ≥ ramdisk0Block then
    panic "RAM Disk0: input block No out of range!\n"
  else
    let s ← get
    memcpy buffer (s.ramdisk0BaseAddr + blkno * ramdisk0Bsize) ramdisk0Bsize

/-- Take the pages of the RAM disk one at a time; the base address is
the last one taken. -/
def initRamdisk0 : K Unit :=
  (List.range ((ramdisk0Block * ramdisk0Bsize - 1) / pgSize + 1)).forM fun _ => do
    let p ← allocPage
    modify fun s => { s with ramdisk0BaseAddr := p }

/-- Build the device entry and the device structure, one page each, and
return the entry, which becomes `vdev_list[RAMDISK0]`. The name and the
function pointers are link-time constants and are left out. -/
def devInitRamdisk0 : K Nat := do
  let pdev ← allocPage
  sw (pdev + 8) 0
  let pd ← allocPage
  sw pd ramdisk0Block
  sw (pd + 4) ramdisk0Bsize
  sd (pdev + 16) pd
  return pdev

def devInit : K Nat := do
  initRamdisk0
  devInitRamdisk0

/-- Take a page for a `struct fs`. -/
def allocFs (fsType : Nat) : K Nat := do
  let fs ← allocPage
  sw (fs + 48) fsType
  return fs

/-- Mount on device `dev`: superblock, bitmap, inodes, root directory.
Returns the file system. -/
def rfsDoMount (dev : Nat) : K Nat := do
  let fs ← allocFs rfsType
  sd (fs + 16) dev
  sw (fs + 32) 0
  let buffer ← allocPage
  sd (fs + 40) buffer
  -- superblock
  sw fs rfsMagic
  sw (fs + 4) (1 + rfsMaxInodeNum + 1 + rfsMaxInodeNum * rfsNdirect)
  sw (fs + 8) (rfsMaxInodeNum * rfsNdirect)
  sw (fs + 12) rfsMaxInodeNum
  memcpy buffer fs rfsBlksize
  ramdisk0Input buffer rfsBlknSuper
  -- bitmap: the first data block holds the root directory
  let freemap ← allocPage
  sd (fs + 24) freemap
  memset freemap 0 rfsBlksize
  sw freemap 1
  memcpy buffer freemap rfsBlksize
  ramdisk0Input buffer rfsBlknBitmap
  -- free inodes
  sw buffer 0
  sw (buffer + 4) tFree
  sw (buffer + 8) 0
  sw (buffer + 12) 0
  (List.range (rfsMaxInodeNum - 1)).forM fun i =>
    ramdisk0Input buffer (rfsBlknInode + (i + 1))
  -- root inode
  sw buffer direntrySize
  sw (buffer + 4) tDir
  sw (buffer + 8) 1
  sw (buffer + 12) 1
  sd (buffer + 16) rfsBlknFree
  ramdisk0Input buffer rfsBlknInode
  -- root directory block: entry 0 is "/"
  sw buffer rfsBlknInode
  onMem fun m => store m 2 (buffer + 4) '/'.toNat
  ramdisk0Input buffer rfsBlknFree
  return fs

/-- Mount the file system on the device of entry `pdev`: the entry the
search by name stops at is the first. -/
def vfsMount (pdev : Nat) : K Unit := do
  let dev ← ld (pdev + 16)
  let fs ← rfsDoMount dev
  sd (pdev + 24) fs

/-- `fs_init`. -/
def fsInit : K Unit := do
  let pdev ← devInit
  vfsMount pdev

end Pke
