/-
System calls and traps at the level of the kernel functions they end in
(kernel/syscall.c, kernel/strap.c).
-/
import Pke.Model.Elf

namespace Pke

open ByteMem
open Traced (get modify emit halt)

/-- `sys_user_exit`. -/
def sysUserExit (cfg : Config) : K Unit := do
  let cur ← theCurrent
  freeProcess cur
  schedule cfg

/-- `sys_user_allocate_page`: returns the new page's virtual address. -/
def sysUserAllocatePage : K Nat := do
  let pa ← allocPage
  let s ← get
  let va := s.gUfreePage
  modify fun s => { s with gUfreePage := u64 (s.gUfreePage + pgSize) }
  let cur ← theCurrent
  let p ← proc cur
  userVmMap p.pagetable va pgSize pa (protToType (protWrite ||| protRead) true)
  return va

/-- What `do_user_call` (user/user_lib.c) makes of the value a system call
leaves in `a0`: it is stored with `sw` into an `int`, which is returned
as a `uint64`. -/
def doUserCallResult (a0 : Nat) : Nat := sext32 a0

/-- `sys_user_free_page`. -/
def sysUserFreePage (va : Nat) : K Nat := do
  let cur ← theCurrent
  let p ← proc cur
  userVmUnmap p.pagetable va pgSize true
  return 0

/-- `sys_user_fork`. -/
def sysUserFork (cfg : Config) : K Nat := do
  let cur ← theCurrent
  doFork cfg cur

/-- `sys_user_yield`. -/
def sysUserYield (cfg : Config) : K Unit := do
  let cur ← theCurrent
  insertToReadyQueue cur
  schedule cfg

/-- `handle_user_page_fault`: only store faults map a page. -/
def handleUserPageFault (mcause stval : Nat) : K Unit := do
  if mcause = causeStorePageFault then
    let newpage ← allocPage
    let cur ← theCurrent
    let p ← proc cur
    userVmMap p.pagetable (roundDown stval pgSize) pgSize newpage
      (protToType (protWrite ||| protRead) true)
  else
    pure ()

/-- `rrsched`, run on every timer tick. -/
def rrsched (cfg : Config) : K Unit := do
  let cur ← theCurrent
  setAcct cur fun a => { a with tickCount := a.tickCount + 1 }
  setAcct cur fun a => { a with totalTickCount := a.totalTickCount + 1 }
  let s ← get
  if (s.acct cur).tickCount ≥ timeSliceLen then
    setAcct cur fun a => { a with tickCount := 0 }
    insertToReadyQueue cur
    schedule cfg
  else
    pure ()

/-- A timer interrupt as the trap handler serves it. -/
def timerTick (cfg : Config) : K Unit := do
  modify fun s => { s with gTicks := s.gTicks + 1 }
  rrsched cfg

/-- The process part of exec: rebuild the current process and load a
new image into it. -/
def execImage (cfg : Config) (f : HostFile) : K Unit := do
  let cur ← theCurrent
  reallocProcess cfg cur
  loadBincode f cur

/-- A store by user code: one byte, if the page is mapped user-writable;
anything else traps without touching memory. -/
def userStore (va : Nat) (b : UInt8) : K Unit := do
  let cur ← theCurrent
  let p ← proc cur
  if va ≥ maxVa then
    pure ()
  else
    let pte ← pageWalk p.pagetable va false
    if pte = 0 then
      pure ()
    else
      let e ← ld pte
      if e &&& pteV ≠ 0 ∧ e &&& pteU ≠ 0 ∧ e &&& pteW ≠ 0 then
        onMem fun m => store m 1 (pte2pa e + va % pgSize) b.toNat
      else
        pure ()

end Pke
