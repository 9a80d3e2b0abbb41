/-
A block array laid out in memory.

`State` is what a block device is for: an array of blocks, next to the
memory its buffers are in. `Layout` puts the array into a range of that
memory, and `Views` says that a memory looks like a given state: blocks
inside the range, the rest outside. Transfers between a block and a
buffer are copies; each keeps the view as long as its buffer lies
outside the range (`Views.apply`), so a run of transfers is a run of the
array.

`run_put` is the property of arrays that makes this worth stating: a
block is what was last put into it.
-/
import Pke.Lib.ByteMem
import Mathlib.Logic.Function.Basic

namespace BlockArray

open ByteMem

/-- The blocks, and the memory beside them. -/
structure State where
  block : Nat → Nat → UInt8
  memory : Mem

/-- Put a buffer into a block, fetch a block into a buffer, or store a
byte beside the array. -/
inductive Op where
  | put (buffer b : Nat)
  | fetch (buffer b : Nat)
  | store (a : Nat) (v : UInt8)

/-- The operation puts something into block `b`. -/
def Op.Puts (b : Nat) : Op → Prop
  | .put _ c => c = b
  | _ => False

def step (size : Nat) (σ : State) : Op → State
  | .put buffer b =>
      { σ with
        block := Function.update σ.block b fun x => σ.memory (buffer + x) }
  | .fetch buffer b =>
      { σ with
        memory := fun a =>
          if buffer ≤ a ∧ a < buffer + size then σ.block b (a - buffer)
          else σ.memory a }
  | .store a v => { σ with memory := Function.update σ.memory a v }

def run (size : Nat) (σ : State) (ops : List Op) : State :=
  ops.foldl (step size) σ

variable {size b : Nat} {σ : State} {op : Op} {ops : List Op}

/-- Other blocks are unchanged. -/
theorem block_step (h : ¬ op.Puts b) : (step size σ op).block b = σ.block b := by
  cases op with
  | put buffer c => exact Function.update_of_ne (fun hbc => h hbc.symm) ..
  | fetch buffer c => rfl
  | store a v => rfl

theorem block_run (h : ∀ op ∈ ops, ¬ op.Puts b) :
    (run size σ ops).block b = σ.block b := by
  induction ops generalizing σ with
  | nil => rfl
  | cons op ops ih =>
      rw [List.forall_mem_cons] at h
      exact (ih h.2).trans (block_step h.1)

/-- A block holds the buffer that was last put into it. -/
theorem run_put (buffer : Nat) (h : ∀ op ∈ ops, ¬ op.Puts b) :
    (run size σ (.put buffer b :: ops)).block b
      = fun x => σ.memory (buffer + x) := by
  show (run size (step size σ (.put buffer b)) ops).block b = _
  rw [block_run h]
  exact Function.update_self ..

-- ==== the array in memory

/-- Where the array lies. -/
structure Layout where
  base : Nat
  size : Nat
  count : Nat

namespace Layout

variable {L : Layout} {m : Mem} {a c x : Nat}

/-- The address is inside the array. -/
def Within (L : Layout) (a : Nat) : Prop :=
  L.base ≤ a ∧ a < L.base + L.count * L.size

/-- A buffer of one block lies outside the array. -/
def Apart (L : Layout) (buffer : Nat) : Prop :=
  buffer + L.size ≤ L.base ∨ L.base + L.count * L.size ≤ buffer

/-- Block numbers are in range, and buffers and stores outside the
array. -/
def Fits (L : Layout) : Op → Prop
  | .put buffer b => b < L.count ∧ L.Apart buffer
  | .fetch buffer b => b < L.count ∧ L.Apart buffer
  | .store a _ => ¬ L.Within a

/-- The operation on memory. -/
def apply (L : Layout) (m : Mem) : Op → Mem
  | .put buffer b => copy m (L.base + b * L.size) buffer L.size
  | .fetch buffer b => copy m buffer (L.base + b * L.size) L.size
  | .store a v => ByteMem.store m 1 a v.toNat

/-- The memory looks like the state. -/
structure Views (L : Layout) (m : Mem) (σ : State) : Prop where
  block : ∀ b < L.count, ∀ x < L.size,
    m (L.base + b * L.size + x) = σ.block b x
  memory : ∀ a, ¬ L.Within a → m a = σ.memory a

/-- Every memory looks like some state. -/
theorem views_self (L : Layout) (m : Mem) :
    L.Views m ⟨fun b x => m (L.base + b * L.size + x), m⟩ :=
  ⟨fun _ _ _ _ => rfl, fun _ _ => rfl⟩

theorem block_end (hb : b < L.count) :
    b * L.size + L.size ≤ L.count * L.size := by
  have h := Nat.mul_le_mul_right L.size (Nat.succ_le_of_lt hb)
  rw [Nat.succ_mul] at h
  exact h

theorem within_block (hb : b < L.count) (hx : x < L.size) :
    L.Within (L.base + b * L.size + x) := by
  have h := block_end hb
  unfold Within
  omega

/-- Distinct blocks do not overlap. -/
theorem block_apart (hbc : b ≠ c) (hx : x < L.size) :
    L.base + b * L.size + x < L.base + c * L.size ∨
      L.base + c * L.size + L.size ≤ L.base + b * L.size + x := by
  rcases Nat.lt_or_gt_of_ne hbc with h | h
  · have hle := Nat.mul_le_mul_right L.size (Nat.succ_le_of_lt h)
    rw [Nat.succ_mul] at hle
    omega
  · have hle := Nat.mul_le_mul_right L.size (Nat.succ_le_of_lt h)
    rw [Nat.succ_mul] at hle
    omega

theorem Apart.outside {buffer : Nat} (h : L.Apart buffer) (hx : x < L.size) :
    ¬ L.Within (buffer + x) := by
  unfold Apart at h
  unfold Within
  omega

theorem Views.put {buffer : Nat} (h : L.Views m σ) (hb : b < L.count)
    (hbuf : L.Apart buffer) :
    L.Views (L.apply m (.put buffer b)) (step L.size σ (.put buffer b)) where
  block c hc x hx := by
    show copy m _ buffer L.size _ = Function.update σ.block b _ c x
    unfold copy
    by_cases hcb : c = b
    · subst hcb
      rw [Function.update_self, if_pos (by omega), Nat.add_sub_cancel_left]
      exact h.memory _ (hbuf.outside hx)
    · have hapart := block_apart (L := L) hcb hx
      rw [Function.update_of_ne hcb, if_neg (by omega)]
      exact h.block c hc x hx
  memory a ha := by
    have hend := block_end hb
    show copy m _ buffer L.size a = σ.memory a
    unfold copy
    unfold Within at ha
    rw [if_neg (by omega)]
    exact h.memory a ha

theorem Views.fetch {buffer : Nat} (h : L.Views m σ) (hb : b < L.count)
    (hbuf : L.Apart buffer) :
    L.Views (L.apply m (.fetch buffer b))
      (step L.size σ (.fetch buffer b)) where
  block c hc x hx := by
    have hin := within_block hc hx
    show copy m buffer _ L.size _ = σ.block c x
    unfold copy
    unfold Within at hin
    unfold Apart at hbuf
    rw [if_neg (by omega)]
    exact h.block c hc x hx
  memory a ha := by
    show copy m buffer _ L.size a = if _ then _ else _
    unfold copy
    by_cases hin : buffer ≤ a ∧ a < buffer + L.size
    · rw [if_pos hin, if_pos hin]
      exact h.block b hb _ (by omega)
    · rw [if_neg hin, if_neg hin]
      exact h.memory a ha

theorem Views.store {v : UInt8} (h : L.Views m σ) (ha : ¬ L.Within a) :
    L.Views (L.apply m (.store a v)) (step L.size σ (.store a v)) where
  block c hc x hx := by
    have hin := within_block hc hx
    have hne : ¬ (a ≤ L.base + c * L.size + x ∧
        L.base + c * L.size + x < a + 1) := by
      intro hle
      have heq : a = L.base + c * L.size + x := by omega
      exact ha (heq ▸ hin)
    show ByteMem.store m 1 a v.toNat _ = σ.block c x
    unfold ByteMem.store
    rw [if_neg hne]
    exact h.block c hc x hx
  memory y hy := by
    show ByteMem.store m 1 a v.toNat y = Function.update σ.memory a v y
    unfold ByteMem.store
    by_cases hya : y = a
    · subst hya
      rw [Function.update_self, if_pos (by omega), Nat.sub_self, Nat.pow_zero,
        Nat.div_one, UInt8.ofNat_toNat]
    · rw [Function.update_of_ne hya, if_neg (by omega)]
      exact h.memory y hy

/-- Every operation keeps the view. -/
theorem Views.apply (h : L.Views m σ) (hop : L.Fits op) :
    L.Views (L.apply m op) (step L.size σ op) := by
  cases op with
  | put buffer b => exact h.put hop.1 hop.2
  | fetch buffer b => exact h.fetch hop.1 hop.2
  | store a v => exact h.store hop

end Layout

end BlockArray
