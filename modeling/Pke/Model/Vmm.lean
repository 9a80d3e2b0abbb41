/-
Virtual memory (kernel/vmm.c): the Sv39 walk, mapping, translation and
unmapping, and the kernel's own page table.
-/
import Pke.Model.Pmm

namespace Pke

open ByteMem
open Traced (get modify emit halt)

/-- One level of the walk: the table below `pt` on the way to `va`,
allocated and zeroed when it is missing and `alloc` is set. `none` is
the early `return 0`. -/
def walkLevel (alloc : Bool) (va level pt : Nat) : K (Option Nat) := do
  let pte := pt + 8 * (px level va : Nat)
  let e ← ld pte
  if e &&& pteV ≠ 0 then
    return some (pte2pa e)
  else if alloc then
    let p ← allocPage
    if p ≠ 0 then
      memset p 0 pgSize
      sd pte (pa2pte p ||| pteV)
      return some p
    else
      return none
  else
    return none

/-- The address of the bottom-level entry of `va`, or 0. -/
def pageWalk (pageDir va : Nat) (alloc : Bool) : K Nat := do
  if va ≥ maxVa then
    panic "page_walk"
  else
    match ← walkLevel alloc va 2 pageDir with
    | none => return 0
    | some pt =>
        match ← walkLevel alloc va 1 pt with
        | none => return 0
        | some pt => return pt + 8 * (px 0 va : Nat)

/-- The loop of `map_pages`, with `n` pages left to map. -/
def mapLoop (pageDir perm : Nat) : Nat → Nat → Nat → K Int
  | 0, _, _ => return 0
  | n + 1, first, pa => do
      let pte ← pageWalk pageDir first true
      if pte = 0 then
        return -1
      else
        let e ← ld pte
        if e &&& pteV ≠ 0 then
          panic "map_pages fails on mapping va (0x%lx) to pa (0x%lx)"
        else
          sd pte (pa2pte pa ||| perm ||| pteV)
          mapLoop pageDir perm n (first + pgSize) (u64 (pa + pgSize))

/-- Map `[va, va + size)` to `[pa, pa + size)` page by page: 0, or -1
when a table page could not be allocated. -/
def mapPages (pageDir va size pa perm : Nat) : K Int :=
  let first := roundDown va pgSize
  let last := roundDown (u64 (va + size + (2 ^ 64 - 1))) pgSize
  if first ≤ last then
    mapLoop pageDir perm ((last - first) / pgSize + 1) first pa
  else
    return 0

/-- The physical page of `va`, or 0 if it is not mapped. -/
def lookupPa (pagetable va : Nat) : K Nat := do
  if va ≥ maxVa then
    return 0
  else
    let pte ← pageWalk pagetable va false
    if pte = 0 then
      return 0
    else
      let e ← ld pte
      if e &&& pteV = 0 ∨ (e &&& pteR = 0 ∧ e &&& pteW = 0) then
        return 0
      else
        return pte2pa e

/-- The physical address of a user virtual address, or 0. -/
def userVaToPa (pageDir va : Nat) : K Nat := do
  let pageAddr ← lookupPa pageDir va
  if pageAddr = 0 then
    return 0
  else
    return u64 (pageAddr + (va &&& ((1 <<< pgShift) - 1)))

/-- Map for a user application; failing is fatal. -/
def userVmMap (pageDir va size pa perm : Nat) : K Unit := do
  let r ← mapPages pageDir va size pa perm
  if r ≠ 0 then
    panic "fail to user_vm_map .\n"
  else
    pure ()

/-- The loop of `user_vm_unmap`, with `n` pages left. -/
def unmapLoop (pageDir : Nat) (free : Bool) : Nat → Nat → K Unit
  | 0, _ => pure ()
  | n + 1, a => do
      let pte ← pageWalk pageDir a false
      if pte = 0 then
        panic "uvmunmap: walk"
      else
        let e ← ld pte
        if e &&& pteV = 0 then
          panic "uvmunmap: not mapped"
        else if pteFlags e = pteV then
          panic "uvmunmap: not a leaf"
        else
          if free then
            freePage (pte2pa e)
          sd pte 0
          unmapLoop pageDir free n (a + pgSize)

/-- Unmap the pages of `[va, va + size)`, giving their frames back if
`free`. -/
def userVmUnmap (pageDir va size : Nat) (free : Bool) : K Unit :=
  if va % pgSize ≠ 0 then
    panic "uvmunmap: not aligned"
  else
    let stop := u64 (va + size)
    unmapLoop pageDir free ((stop - va + (pgSize - 1)) / pgSize) va

-- ==== kernel page table

/-- Map for the kernel; failing is fatal. -/
def kernVmMap (pageDir va pa sz perm : Nat) : K Unit := do
  let r ← mapPages pageDir va sz pa perm
  if r ≠ 0 then
    panic "kern_vm_map"
  else
    pure ()

/-- Build the kernel page table: text read-execute, the rest of the
managed memory read-write, both identity-mapped. -/
def kernVmInit (etext : Nat) : K Unit := do
  let tPageDir ← allocPage
  memset tPageDir 0 pgSize
  kernVmMap tPageDir kernBase dramBase (u64 (etext + (2 ^ 64 - kernBase)))
    (protToType (protRead ||| protExec) false)
  kernVmMap tPageDir etext etext (u64 (physTop + (2 ^ 64 - etext)))
    (protToType (protRead ||| protWrite) false)
  modify fun s => { s with gKernelPagetable := tPageDir }

end Pke
