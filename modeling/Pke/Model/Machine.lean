/-
The machine as the kernel's headers describe it: page geometry, the
Sv39 page-table entry, the fixed addresses of the memory layout, and
the rounding macros (kernel/riscv.h, kernel/memlayout.h,
kernel/config.h, kernel/vmm.h, util/functions.h).

Machine words are naturals; `u64` marks the places where the 64-bit
arithmetic of the source can wrap. Everything else stays in range by
construction and is written without it.
-/
import Mathlib.Data.Nat.Basic
import Mathlib.Algebra.Order.Ring.Nat

namespace Pke

/-- Truncation to 64 bits. -/
def u64 (x : Nat) : Nat := x % 2 ^ 64

-- ==== layout

/-- Bytes per page. -/
abbrev pgSize : Nat := 4096

/-- Bits of offset within a page. -/
abbrev pgShift : Nat := 12

/-- Physical memory starts here. -/
abbrev dramBase : Nat := 0x80000000

/-- The kernel image starts here. -/
abbrev kernBase : Nat := 0x80000000

/-- The most memory the kernel manages. -/
abbrev pkeMaxAllowableRam : Nat := 128 * 1024 * 1024

/-- One beyond the highest physical address the kernel maps. -/
abbrev physTop : Nat := dramBase + pkeMaxAllowableRam

/-- One beyond the user stack. -/
abbrev userStackTop : Nat := 0x7ffff000

/-- Bottom of the simple heap. -/
abbrev userFreeAddressStart : Nat := 0x00000000 + pgSize * 1024

/-- One beyond the highest virtual address the walk accepts: one bit
less than Sv39 allows. -/
abbrev maxVa : Nat := 2 ^ (9 + 9 + 9 + 12 - 1)

def roundDown (a b : Nat) : Nat := a / b * b

/-- `ROUNDUP`: the subtraction wraps at zero. -/
def roundUp (a b : Nat) : Nat := u64 ((u64 (a + (2 ^ 64 - 1)) / b + 1) * b)

-- ==== page-table entries

abbrev pteV : Nat := 1
abbrev pteR : Nat := 2
abbrev pteW : Nat := 4
abbrev pteX : Nat := 8
abbrev pteU : Nat := 16
abbrev pteA : Nat := 64
abbrev pteD : Nat := 128

/-- Shift a physical address to its place in an entry. A 64-bit address
leaves ten high bits free, so nothing is lost. -/
def pa2pte (pa : Nat) : Nat := (pa >>> 12) <<< 10

def pte2pa (pte : Nat) : Nat := u64 ((pte >>> 10) <<< 12)

def pteFlags (pte : Nat) : Nat := pte &&& 0x3FF

/-- The nine-bit index of `va` at a level of the tree. -/
def px (level va : Nat) : Fin 512 :=
  ⟨(va >>> (pgShift + 9 * level)) &&& 0x1FF,
    Nat.lt_of_le_of_lt Nat.and_le_right (by decide)⟩

-- ==== permissions

abbrev protRead : Nat := 1
abbrev protWrite : Nat := 2
abbrev protExec : Nat := 4

/-- Convert a permission code to the permission bits of an entry. -/
def protToType (prot : Nat) (user : Bool) : Nat :=
  let perm := 0
  let perm := if prot &&& protRead ≠ 0 then perm ||| pteR ||| pteA else perm
  let perm := if prot &&& protWrite ≠ 0 then perm ||| pteW ||| pteD else perm
  let perm := if prot &&& protExec ≠ 0 then perm ||| pteX ||| pteA else perm
  let perm := if perm = 0 then pteR else perm
  if user then perm ||| pteU else perm

-- ==== exception causes

abbrev causeStorePageFault : Nat := 0xf

-- ==== processes

/-- The size of `spike_files[]` and of the table of a process. -/
abbrev maxFiles : Nat := 128

/-- The size of the process pool. -/
abbrev nproc : Nat := 32

instance : NeZero nproc := ⟨by decide⟩

/-- Length of a time slice, in ticks. -/
abbrev timeSliceLen : Int := 2

end Pke
