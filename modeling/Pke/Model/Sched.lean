/-
The ready queue and the scheduler (kernel/sched.c), and the switch to
user mode it ends in (kernel/process.c, `switch_to`).
-/
import Pke.Model.Config

namespace Pke

open ByteMem
open Traced (get modify emit halt)

/-- `x & ~SSTATUS_SPP | SSTATUS_SPIE`. -/
def userSstatus (x : Nat) : Nat := (x &&& (2 ^ 64 - 1 - 0x100)) ||| 0x20

/-- Make `proc` current and leave for user mode. -/
def switchTo (cfg : Config) (i : Slot) : K Unit := do
  modify fun s => { s with current := some i }
  modify fun s => { s with csr := { s.csr with stvec := cfg.smodeTrapVector } }
  let p ← proc i
  let s ← get
  sd (p.trapframe + tfKernelSp) p.kstack
  sd (p.trapframe + tfKernelSatp) s.csr.satp
  sd (p.trapframe + tfKernelTrap) cfg.smodeTrapHandler
  modify fun s =>
    { s with csr := { s.csr with sstatus := userSstatus s.csr.sstatus } }
  let epc ← ld (p.trapframe + tfEpc)
  modify fun s => { s with csr := { s.csr with sepc := epc } }

/-- The queue walk of `insert_to_ready_queue` from `p`: `none` if it
meets `x`, else the last element. -/
def findTail (x : Slot) : Nat → Slot → K (Option Slot)
  | 0, _ => halt .diverge
  | fuel + 1, p => do
      let q ← proc p
      match q.queueNext with
      | none => return if p = x then none else some p
      | some p' => if p = x then return none else findTail x fuel p'

/-- Append a process to the end of the ready queue, unless it is
already there. -/
def insertToReadyQueue (x : Slot) : K Unit := do
  let s ← get
  match s.readyQueueHead with
  | none =>
      setProc x fun q => { q with status := .ready }
      setProc x fun q => { q with queueNext := none }
      modify fun s => { s with readyQueueHead := some x }
  | some h =>
      match ← findTail x nproc h with
      | none => pure ()
      | some last =>
          setProc last fun q => { q with queueNext := some x }
          setProc x fun q => { q with status := .ready }
          setProc x fun q => { q with queueNext := none }

/-- Every process is unused or terminated. -/
def allDone (s : Kernel) : Bool :=
  (List.finRange nproc).all fun i =>
    (s.procs i).status = .free ∨ (s.procs i).status = .zombie

/-- Choose the head of the ready queue and run it. The statement
`current->status == RUNNING;` of the source is a comparison, so the
chosen process stays READY. -/
def schedule (cfg : Config) : K Unit := do
  let s ← get
  match s.readyQueueHead with
  | none =>
      if allDone s then
        halt (.shutdown 0)
      else
        panic "Not handled: we should let system wait for unfinished processes.\n"
  | some h =>
      modify fun s => { s with current := some h }
      let p ← proc h
      if p.status ≠ .ready then
        halt (.assertFailed "current->status == READY")
      else
        modify fun s => { s with readyQueueHead := p.queueNext }
        switchTo cfg h

end Pke
