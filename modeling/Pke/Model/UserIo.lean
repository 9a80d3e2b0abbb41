/-
Reading and writing files through a user buffer (kernel/syscall.c,
kernel/file.c).

`sys_user_read` and `sys_user_write` hand the buffer page by page to
`do_read` and `do_write`. In this kernel both are stubs that fail; the
loop around them is written for any implementation, so the model takes
one as a parameter: a `Transfer` is what the successive calls return and
do to memory.

The loop mixes an `int` index with `uint64` arithmetic. The index is an
integer here, converted where the source converts it: `u64OfInt` where it
meets a `uint64`, `int32` where a 64-bit sum is stored back.
-/
import Pke.Model.Vmm

namespace Pke

open ByteMem
open Traced (get modify emit halt)

/-- What the `k`-th call of `do_read` or `do_write` does with a buffer
and its length: the value returned, and memory afterwards. -/
abbrev Transfer := Nat → Nat → Nat → Mem → Int × Mem

/-- `do_read`, a stub. -/
def doRead (_fd : Int) : Transfer := fun _ _ _ m => (-1, m)

/-- `do_write`, a stub. -/
def doWrite (_fd : Int) : Transfer := fun _ _ _ m => (-1, m)

/-- A call made: the physical range passed, the memory it found and the
value it returned. -/
structure IoCall where
  buf : Nat
  len : Nat
  found : Mem
  ret : Int

/-- Programs that log the calls they make. -/
abbrev Io := Traced.Prog Kernel IoCall Halt

/-- A part of the kernel that makes no such call. -/
def quietly {α : Type} (p : K α) : Io α := fun s => ([], (p s).2)

/-- Call the transfer function for the `k`-th time. -/
def transfer (t : Transfer) (k buf len : Nat) : Io Int := do
  let s ← get
  let (r, m) := t k buf len s.mem
  modify fun s => { s with mem := m }
  emit ⟨buf, len, s.mem, r⟩
  return r

/-- An `int` where a `uint64` is expected. -/
def u64OfInt (x : Int) : Nat := (x % 2 ^ 64).toNat

/-- A 64-bit sum stored in an `int`. -/
def int32 (x : Int) : Int := x.bmod (2 ^ 32)

/-- The loop of `sys_user_read` and `sys_user_write`, before call `k` and
with index `i`. `none` is a loop that has not ended within `fuel`
rounds. -/
def ioLoop (t : Transfer) (bufva count : Nat) :
    Nat → Nat → Int → Io (Option Int)
  | 0, _, _ => return none
  | fuel + 1, k, i =>
      if u64OfInt i < count then do
        let addr := u64 (bufva + u64OfInt i)
        let cur ← quietly theCurrent
        let p ← quietly (proc cur)
        let pa ← quietly (lookupPa p.pagetable addr)
        let off := addr - roundDown addr pgSize
        let len :=
          if count - u64OfInt i < pgSize - off then count - u64OfInt i
          else pgSize - off
        let r ← transfer t k (u64 (pa + off)) len
        let i := int32 (i + r)
        if u64OfInt r < len then
          return some i
        else
          ioLoop t bufva count fuel (k + 1) i
      else
        -- the count comes back as an `ssize_t`
        return some ((count : Int).bmod (2 ^ 64))

/-- `sys_user_read`, within `fuel` rounds of its loop. -/
def sysUserRead (fd : Int) (bufva count fuel : Nat) : Io (Option Int) :=
  ioLoop (doRead fd) bufva count fuel 0 0

/-- `sys_user_write`, within `fuel` rounds of its loop. -/
def sysUserWrite (fd : Int) (bufva count fuel : Nat) : Io (Option Int) :=
  ioLoop (doWrite fd) bufva count fuel 0 0

end Pke
