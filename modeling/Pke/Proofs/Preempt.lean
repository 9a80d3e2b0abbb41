/-
What a trap costs a process, over whole runs of the machine.

A process that has trapped waits with its registers and pc in its trapframe
(`Waits`). The argument has three parts:

- the vectors save them there, all but `t6`, in whose place the frame's own
  address is saved (Trap.lean);
- the handler leaves the frames of all waiting processes alone, whatever
  the running one does (Contexts.lean);
- `return_to_user` loads the frame of the process it returns to.

So whoever comes back has the registers of the last trap, with `t6`
overwritten, whatever ran in between.
-/
import Pke.Proofs.Contexts
import Pke.Proofs.Plain
import Pke.Proofs.Printf

namespace Pke

open ByteMem Traced

variable {bad : Event → Prop} {F : Halt → Machine → Prop} {P : Prop}
variable {cfg : Config} {fw : Firmware} {k k' : Kernel} {m m' : Machine}
variable {own : Nat → Owner} {fl : List Nat} {c i : Slot} {q : List Slot}
variable {heap : Slot → Nat → Nat → Prop} {r : RegFile} {pc : BitVec 64}
variable {u : UserTrap} {h h' : List (Entry Machine UserTrap)}

-- ==== user mode

/-- The machine is in user mode, in process `c`. -/
structure UserMode (cfg : Config) (fw : Firmware)
    (heap : Slot → Nat → Nat → Prop) (own : Nat → Owner) (fl : List Nat)
    (q : List Slot) (c : Slot) (m : Machine) : Prop where
  sys : Sys cfg heap m.kernel own fl q c
  mscratch : m.csr .mscratch = BitVec.ofNat 64 fw.itrframe
  sscratch : m.csr .sscratch = BitVec.ofNat 64 (m.kernel.procs c).trapframe
  handler : load m.kernel.mem 8 ((m.kernel.procs c).trapframe + tfKernelTrap)
    = cfg.smodeTrapHandler % 256 ^ 8

/-- When process `i` is in user mode next, it has these registers and this
pc. -/
structure Waits (m : Machine) (i : Slot) (r : RegFile) (pc : BitVec 64) :
    Prop where
  live : Live m.kernel i
  saved : SavedAs m.kernel i r pc
  here : m.kernel.current = some i → m.regs = r ∧ m.pc = pc

/-- A trap of `c` is over: the machine is in user mode again, `c` waits with
a context like `Back` if it goes on, and whoever else waited still does. -/
def Passed (cfg : Config) (fw : Firmware) (c : Slot) (sched goes : Prop)
    (Back : RegFile → BitVec 64 → Prop) (m m' : Machine) : Prop :=
  ∃ heap own fl q c', UserMode cfg fw heap own fl q c' m' ∧
    (sched ∨ c' = c) ∧ (goes → ∃ r pc, Back r pc ∧ Waits m' c r pc) ∧
    ∀ i, i ≠ c → ∀ r pc, Waits m i r pc → Waits m' i r pc

/-- User code has run on; the kernel has not seen it. -/
theorem UserMode.runs (hU : UserMode cfg fw heap own fl q c m) (static : Mem)
    (r : RegFile) (pc : BitVec 64) : UserMode cfg fw heap own fl q c
      { m with static := static, regs := r, pc := pc } :=
  ⟨hU.sys, hU.mscratch, hU.sscratch, hU.handler⟩

/-- Those that wait are not the one that runs. -/
theorem Waits.runs (hw : Waits m i r pc) (hcur : m.kernel.current = some c)
    (hne : i ≠ c) (static : Mem) (r' : RegFile) (pc' : BitVec 64) :
    Waits { m with static := static, regs := r', pc := pc' } i r pc := by
  refine ⟨hw.live, hw.saved, fun hi => ?_⟩
  exact absurd (Option.some.inj (hi.symm.trans hcur)) hne

/-- So a trap that user code has run up to is one of the machine before. -/
theorem Passed.runs {sched goes : Prop} {Back : RegFile → BitVec 64 → Prop}
    {static : Mem} (hcur : m.kernel.current = some c)
    (hp : Passed cfg fw c sched goes Back
      { m with static := static, regs := r, pc := pc } m') :
    Passed cfg fw c sched goes Back m m' := by
  obtain ⟨heap, own, fl, q, c', hU, hstay, hback, hothers⟩ := hp
  refine ⟨heap, own, fl, q, c', hU, hstay, hback, fun i hne r' pc' hw => ?_⟩
  exact hothers i hne r' pc' (hw.runs hcur hne static r pc)

/-- The user registers when the trap comes. -/
def UserTrap.regs : UserTrap → RegFile
  | .event u => u.regs
  | .call _ r _ => r

def UserTrap.epc : UserTrap → BitVec 64
  | .event u => u.pc
  | .call _ _ pc => pc

/-- It may make another process run. -/
def UserTrap.CallsSchedule (c : Slot) (k : Kernel) : UserTrap → Prop
  | .event u => u.op.CallsSchedule c k
  | .call _ _ _ => False

/-- The context a process is left with, if `tf` is its trapframe. -/
def UserTrap.Back (tf : Nat) : UserTrap → RegFile → BitVec 64 → Prop
  | .event u => u.op.Back (withT6 u.regs tf) u.pc
  | .call _ r pc => fun r' pc' =>
      (∃ v, r' = Function.update (withT6 r tf) .a0 v) ∧ pc' = pc + 4

/-- Pages are known to be enough. -/
def UserTrap.Enough (m : Machine) : UserTrap → Prop
  | .event u => u.op.Enough m.kernel
  | .call _ _ _ => False

end Pke
