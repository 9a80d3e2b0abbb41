/-
Boot (kernel/kernel.c) and runs: the operations user code can trigger,
executed one after another from power-on.

`Op` names the kernel entries the properties range over. A run is a
list of them; between two entries the current process executes user
code, whose only effect on the kernel's state is the stores it makes
(`Op.store`). The run ends early when an operation halts the machine.
-/
import Pke.Model.Syscall
import Pke.Model.Rfs

namespace Pke

open ByteMem
open Traced (get modify emit halt)

/-- `MAKE_SATP`. -/
def makeSatp (pagetable : Nat) : Nat := (8 <<< 60) ||| (pagetable >>> 12)

/-- Build the first process and load the application into it. -/
def loadUserProgram (cfg : Config) : K Slot := do
  let i ← allocProcess cfg
  loadBincode cfg.app i
  return i

/-- `s_start`. -/
def sStart (cfg : Config) : K Unit := do
  modify fun s => { s with csr := { s.csr with satp := 0 } }
  pmmInit cfg.kernelEnd
  kernVmInit cfg.etext
  modify fun s => { s with csr := { s.csr with satp := makeSatp s.gKernelPagetable } }
  initProcPool
  fsInit
  let i ← loadUserProgram cfg
  insertToReadyQueue i
  schedule cfg

/-- What can happen while user code runs. -/
inductive Op where
  | tick
  | yield
  | fork
  | exit
  | wait (pid : Int)
  | exec (image : HostFile)
  | allocate
  | free (va : Nat)
  | fault (mcause stval : Nat)
  | store (va : Nat) (b : UInt8)

/-- One operation of the current process. -/
def step (cfg : Config) : Op → K Unit
  | .tick => timerTick cfg
  | .yield => sysUserYield cfg
  | .fork => do let _ ← sysUserFork cfg
  | .exit => sysUserExit cfg
  | .wait pid => do let _ ← doWait pid
  | .exec image => execImage cfg image
  | .allocate => do let _ ← sysUserAllocatePage
  | .free va => do let _ ← sysUserFreePage va
  | .fault mcause stval => handleUserPageFault mcause stval
  | .store va b => userStore va b

/-- A run from power-on: boot, then the operations in order. -/
def run (cfg : Config) (ops : List Op) : K Unit := do
  sStart cfg
  ops.forM (step cfg)

end Pke
