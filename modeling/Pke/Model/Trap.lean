/-
Traps: from user mode into the kernel and back, register by register
(kernel/machine/mtrap_vector.S, kernel/strap_vector.S, util/load_store.S,
kernel/strap.c).

The assembly is listed instruction by instruction and executed by the
interpreter of `Asm`; the C code runs as the kernel programs of the other
files. `jr`, `call`, `sret` and `mret` are where one part ends and the
next begins. What C code leaves in the registers is arbitrary
(`Firmware.clobber`): every path back to user mode reloads them all.

Memory is that of the page pool for the S-mode listings and the kernel's
static storage for the M-mode one, which saves to `g_itrframe`. M mode
is not translated; in S mode a trapframe is reached at its own address
in the page table of its process and in the kernel's.

A timer tick goes to M mode first. `handle_timer` sets the next tick and
raises the software interrupt that is taken in S mode as soon as `mret`
has gone back to user mode, before the next user instruction.
-/
import Pke.Lib.Asm
import Pke.Model.Boot

namespace Pke

open ByteMem
open Asm (Instr)
open Traced (get modify halt)

/-- The general registers, `x1` to `x31`. -/
inductive Reg where
  | ra | sp | gp | tp | t0 | t1 | t2 | s0 | s1
  | a0 | a1 | a2 | a3 | a4 | a5 | a6 | a7
  | s2 | s3 | s4 | s5 | s6 | s7 | s8 | s9 | s10 | s11
  | t3 | t4 | t5 | t6
deriving DecidableEq, Repr

/-- The control registers the listings use. -/
inductive CsrName where
  | sscratch | mscratch | satp | mhartid
deriving DecidableEq, Repr

abbrev RegFile := Reg → BitVec 64

-- ==== listings

abbrev Listing := List (Instr Reg CsrName)

/-- The macro `store_all_registers`. -/
def storeAllRegisters : Listing :=
  [ .sd .ra 0 .t6, .sd .sp 8 .t6, .sd .gp 16 .t6, .sd .tp 24 .t6,
    .sd .t0 32 .t6, .sd .t1 40 .t6, .sd .t2 48 .t6, .sd .s0 56 .t6,
    .sd .s1 64 .t6, .sd .a0 72 .t6, .sd .a1 80 .t6, .sd .a2 88 .t6,
    .sd .a3 96 .t6, .sd .a4 104 .t6, .sd .a5 112 .t6, .sd .a6 120 .t6,
    .sd .a7 128 .t6, .sd .s2 136 .t6, .sd .s3 144 .t6, .sd .s4 152 .t6,
    .sd .s5 160 .t6, .sd .s6 168 .t6, .sd .s7 176 .t6, .sd .s8 184 .t6,
    .sd .s9 192 .t6, .sd .s10 200 .t6, .sd .s11 208 .t6, .sd .t3 216 .t6,
    .sd .t4 224 .t6, .sd .t5 232 .t6, .sd .t6 240 .t6 ]

/-- The macro `restore_all_registers`. -/
def restoreAllRegisters : Listing :=
  [ .ld .ra 0 .t6, .ld .sp 8 .t6, .ld .gp 16 .t6, .ld .tp 24 .t6,
    .ld .t0 32 .t6, .ld .t1 40 .t6, .ld .t2 48 .t6, .ld .s0 56 .t6,
    .ld .s1 64 .t6, .ld .a0 72 .t6, .ld .a1 80 .t6, .ld .a2 88 .t6,
    .ld .a3 96 .t6, .ld .a4 104 .t6, .ld .a5 112 .t6, .ld .a6 120 .t6,
    .ld .a7 128 .t6, .ld .s2 136 .t6, .ld .s3 144 .t6, .ld .s4 152 .t6,
    .ld .s5 160 .t6, .ld .s6 168 .t6, .ld .s7 176 .t6, .ld .s8 184 .t6,
    .ld .s9 192 .t6, .ld .s10 200 .t6, .ld .s11 208 .t6, .ld .t3 216 .t6,
    .ld .t4 224 .t6, .ld .t5 232 .t6, .ld .t6 240 .t6 ]

/-- What M mode is linked with, and what C code does to registers. -/
structure Firmware where
  itrframe : Nat
  stack0 : BitVec 64
  clobber : RegFile → RegFile
  itr_fits : itrframe + 248 ≤ 2 ^ 64

/-- `mtrapvec` up to the call of `handle_mtrap`. -/
def mtrapvecEntry (fw : Firmware) : Listing :=
  [.csrrw .a0 .mscratch .a0, .addi .t6 .a0 0] ++ storeAllRegisters ++
  [ .csrr .t0 .mscratch, .sd .t0 72 .a0, .li .sp fw.stack0, .li .a3 4096,
    .csrr .a4 .mhartid, .addi .a4 .a4 1, .mul .a3 .a3 .a4,
    .add .sp .sp .a3, .csrw .mscratch .a0 ]

/-- `mtrapvec` from the return of `handle_mtrap` to `mret`. -/
def mtrapvecExit : Listing := [.csrr .t6 .mscratch] ++ restoreAllRegisters

/-- `smode_trap_vector` up to `jr t0`. -/
def smodeTrapVectorCode : Listing :=
  [.csrrw .a0 .sscratch .a0, .addi .t6 .a0 0] ++ storeAllRegisters ++
  [ .csrr .t0 .sscratch, .sd .t0 72 .a0, .ld .sp 248 .a0, .ld .t0 256 .a0,
    .ld .t1 272 .a0, .csrw .satp .t1, .fence ]

/-- `return_to_user` up to `sret`. -/
def returnToUserCode : Listing :=
  [.csrw .satp .a1, .fence, .csrw .sscratch .a0, .addi .t6 .a0 0] ++
  restoreAllRegisters

-- ==== the C handlers

/-- The system call behind an operation, with the value it returns. -/
def syscall (cfg : Config) : Op → K Nat
  | .fork => sysUserFork cfg
  | .wait pid => do
      let r ← doWait pid
      return (BitVec.ofInt 64 r).toNat
  | .exec image => do
      execImage cfg image
      return 0
  | .allocate => sysUserAllocatePage
  | .free va => sysUserFreePage va
  | op => do
      step cfg op
      return 0

/-- `smode_trap_handler`, to the point where `switch_to` has left for
user mode: in `schedule`, or at its end. `handle_syscall` keeps the
trapframe it was called with. -/
def smodeTrapHandler (cfg : Config) (op : Op) (sepc : Nat) : K Unit := do
  let cur ← theCurrent
  let p ← proc cur
  let tf := p.trapframe
  sd (tf + tfEpc) sepc
  match op with
  | .tick => do
      let s ← get
      let expired := (s.acct cur).tickCount + 1 ≥ timeSliceLen
      timerTick cfg
      if expired then pure () else switchTo cfg cur
  | .fault mcause stval => do
      handleUserPageFault mcause stval
      switchTo cfg cur
  | .store _ _ => pure ()
  | .yield => do
      let epc ← ld (tf + tfEpc)
      sd (tf + tfEpc) (epc + 4)
      sysUserYield cfg
  | .exit => do
      let epc ← ld (tf + tfEpc)
      sd (tf + tfEpc) (epc + 4)
      sysUserExit cfg
  | op => do
      let epc ← ld (tf + tfEpc)
      sd (tf + tfEpc) (epc + 4)
      let r ← syscall cfg op
      sd (tf + tfA0) r
      switchTo cfg cur

-- ==== the hart

/-- The kernel and its static storage, with the hart it runs on. -/
structure Machine where
  kernel : Kernel
  static : Mem
  regs : RegFile
  pc : BitVec 64
  csr : CsrName → BitVec 64

/-- Programs of the machine. -/
abbrev T := Traced.Prog Machine Event Halt

/-- Run a kernel program. -/
def onKernel {α : Type} (p : K α) : T α := fun m =>
  match p m.kernel with
  | (es, .ok a k) => (es, .ok a { m with kernel := k })
  | (es, .halt e k) => (es, .halt e { m with kernel := k })

/-- Execute a listing on the kernel's static storage. -/
def onStatic (code : Listing) : T Unit :=
  modify fun m =>
    let h := Asm.run code ⟨m.regs, m.csr, m.static⟩
    { m with regs := h.regs, csr := h.csr, static := h.mem }

/-- Execute a listing on the memory of the page pool. -/
def onPool (code : Listing) : T Unit :=
  modify fun m =>
    let h := Asm.run code ⟨m.regs, m.csr, m.kernel.mem⟩
    { m with
      regs := h.regs, csr := h.csr, kernel := { m.kernel with mem := h.mem } }

/-- A timer tick in M mode; `mret` goes back to where it came from. -/
def machineTrap (fw : Firmware) : T Unit := do
  onStatic (mtrapvecEntry fw)
  modify fun m => { m with regs := fw.clobber m.regs }
  onStatic mtrapvecExit

/-- `return_to_user(proc->trapframe, user_satp)`, and `sret`. -/
def returnToUser (fw : Firmware) : T Unit := do
  let cur ← onKernel theCurrent
  let p ← onKernel (proc cur)
  modify fun m => { m with
    regs := Function.update (Function.update (fw.clobber m.regs)
      .a0 (BitVec.ofNat 64 p.trapframe))
      .a1 (BitVec.ofNat 64 (makeSatp p.pagetable)) }
  onPool returnToUserCode
  modify fun m => { m with pc := BitVec.ofNat 64 m.kernel.csr.sepc }

/-- A trap in S mode: the vector, the handler it jumps to, and the way
back to user mode. -/
def supervisorTrap (cfg : Config) (fw : Firmware) (op : Op) : T Unit := do
  onPool smodeTrapVectorCode
  let m ← get
  if m.regs .t0 ≠ BitVec.ofNat 64 cfg.smodeTrapHandler then
    halt .nullDeref
  else do
    onKernel (smodeTrapHandler cfg op m.pc.toNat)
    returnToUser fw

/-- What happens next in user mode: user code of the current process
has run up to a pc and a register file, and then this happens. -/
structure UserEvent where
  op : Op
  regs : RegFile
  pc : BitVec 64

/-- A user store is an instruction; everything else is a trap. -/
def UserEvent.run (cfg : Config) (fw : Firmware) (u : UserEvent) : T Unit :=
  match u.op with
  | .store va b => onKernel (userStore va b)
  | .tick => do
      modify fun m => { m with regs := u.regs, pc := u.pc }
      machineTrap fw
      supervisorTrap cfg fw .tick
  | op => do
      modify fun m => { m with regs := u.regs, pc := u.pc }
      supervisorTrap cfg fw op

/-- `smode_trap_handler` for a system call that is not an operation of a
run: the console's and the files'. `call` is the program behind it. -/
def handleCall (cfg : Config) (call : K Nat) (sepc : Nat) : K Unit := do
  let cur ← theCurrent
  let p ← proc cur
  let tf := p.trapframe
  sd (tf + tfEpc) sepc
  let epc ← ld (tf + tfEpc)
  sd (tf + tfEpc) (epc + 4)
  let r ← call
  sd (tf + tfA0) r
  switchTo cfg cur

/-- The trap of such a call. -/
def supervisorCall (cfg : Config) (fw : Firmware) (call : K Nat) : T Unit := do
  onPool smodeTrapVectorCode
  let m ← get
  if m.regs .t0 ≠ BitVec.ofNat 64 cfg.smodeTrapHandler then
    halt .nullDeref
  else do
    onKernel (handleCall cfg call m.pc.toNat)
    returnToUser fw

/-- What ends a stretch of user code. -/
inductive UserTrap where
  | event (u : UserEvent)
  | call (program : K Nat) (regs : RegFile) (pc : BitVec 64)

def UserTrap.run (cfg : Config) (fw : Firmware) : UserTrap → T Unit
  | .event u => u.run cfg fw
  | .call program regs pc => do
      modify fun m => { m with regs := regs, pc := pc }
      supervisorCall cfg fw program

end Pke
