/-
Finding the device of a path (kernel/vfs.c: `get_device`, `vfs_get_root`,
`vfs_mount`; util/string.c: `strcmp`).

A path is parsed where it lies: `get_device` looks for the first colon,
overwrites it by NUL so that the device name in front of it is a string
of its own, and searches the list of devices for that name. The search
has no flag for success. It leaves its cursor at the last entry it looked
at, and NULL is what the callers take for failure.

The names of devices are string constants of the kernel; a pointer to one
is its content. An entry of `vdev_list` is NULL or a device, and the name
of a NULL entry is a dereference of NULL.
-/
import Pke.Model.Kernel

namespace Pke

open ByteMem
open Traced (get modify halt)

/-- `strcmp` of the strings two pointers lead to, from byte `k` on and for
at most `fuel` bytes. -/
def strcmpFrom (s1 s2 : Nat → UInt8) : Nat → Nat → Option Int
  | 0, _ => none
  | fuel + 1, k =>
      if s1 k ≠ 0 ∧ s1 k = s2 k then strcmpFrom s1 s2 fuel (k + 1)
      else some ((s1 k).toNat - (s2 k).toNat)

def strcmp (fuel : Nat) (s1 s2 : Nat → UInt8) : Option Int :=
  strcmpFrom s1 s2 fuel 0

/-- The bytes from an address on. -/
def bytesAt (m : Mem) (a : Nat) : Nat → UInt8 := fun k => m (a + k)

namespace Vfs

/-- `MAX_DEV`. -/
abbrev maxDev : Nat := 10

/-- `struct vfs_dev_t`: the name, a string, and the addresses of the
device and of the file system mounted on it. -/
structure VfsDev where
  devname : List UInt8
  devname_nonzero : ∀ b ∈ devname, b ≠ 0
  dev : Nat
  fs : Nat

/-- `vdev_list`. -/
abbrev VdevList := Fin maxDev → Option VfsDev

/-- Programs that work on memory and may stop the kernel. -/
abbrev V := Traced.Prog Mem Empty Halt

/-- The loop that compares the names of the entries with the string at
`name`; `cursor` is `pdev_t`. -/
def searchDevice (vdev : VdevList) (fuel name : Nat) :
    List (Fin maxDev) → Option VfsDev → V (Option VfsDev)
  | [], cursor => return cursor
  | i :: rest, _ =>
      match vdev i with
      | none => halt .nullDeref
      | some d => do
          let m ← get
          match strcmp fuel (d.devname.getD · 0) (bytesAt m name) with
          | none => halt .diverge
          | some r =>
              if r = 0 then return some d
              else searchDevice vdev fuel name rest (some d)

/-- The entry with this name; `msg` is the caller's panic. -/
def namedDevice (msg : String) (vdev : VdevList) (fuel devname : Nat) :
    V VfsDev := do
  match ← searchDevice vdev fuel devname (List.finRange maxDev) none with
  | none => halt (.panic msg)
  | some d => return d

/-- `vfs_get_root`, up to the file system's own answer: the entry whose
root directory is asked for. -/
def vfsGetRoot : VdevList → Nat → Nat → V VfsDev :=
  namedDevice "vfs_get_root: Cannot find the device entry!\n"

/-- `vfs_mount`, up to the file system's own part: the entry that is
mounted on. -/
def vfsMount : VdevList → Nat → Nat → V VfsDev :=
  namedDevice "vfs_mount: Cannot find the device entry!\n"

/-- The character between device name and sub-path. -/
abbrev colonByte : UInt8 := 0x3a

/-- The address of the first colon of the string at `a`. -/
def findColon : Nat → Nat → V (Option Nat)
  | 0, _ => halt .diverge
  | fuel + 1, a => do
      let m ← get
      if m a = 0 then return none
      else if m a = colonByte then return some a
      else findColon fuel (a + 1)

/-- `get_device`: the device entry, `none` for the host, and the
sub-path. -/
def getDevice (vdev : VdevList) (fuel path : Nat) : V (Option VfsDev × Nat) := do
  match ← findColon fuel path with
  | none => return (none, path)
  | some colon => do
      modify fun m => store m 1 colon 0
      let d ← vfsGetRoot vdev fuel path
      return (some d, colon + 1)

end Vfs

end Pke
