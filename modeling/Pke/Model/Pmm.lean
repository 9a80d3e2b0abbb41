/-
The physical page allocator (kernel/pmm.c): a LIFO list of free pages
whose links are stored in the first doubleword of the pages themselves.
-/
import Pke.Model.Kernel

namespace Pke

open ByteMem
open Traced (get modify emit halt)

/-- Adjust the current process's page count, if there is one. -/
def countPages (d : Int) : K Unit := modify fun s =>
  { s with
    acct :=
      match s.current with
      | none => s.acct
      | some c =>
          Function.update s.acct c
            { s.acct c with totalMemCount := (s.acct c).totalMemCount + d } }

/-- Place the page at `pa` on the free list. -/
def freePage (pa : Nat) : K Unit := do
  let s ← get
  if pa % pgSize ≠ 0 ∨ pa < s.freeMemStartAddr ∨ pa ≥ s.freeMemEndAddr then
    panic "free_page 0x%lx \n"
  else
    sd pa s.gFreeMemList
    modify fun s => { s with gFreeMemList := pa }
    countPages (-1)
    emit (.free pa)

/-- Take the first free page; NULL when the list is empty. -/
def allocPage : K Nat := do
  let s ← get
  let n := s.gFreeMemList
  if n ≠ 0 then
    let next ← ld n
    modify fun s => { s with gFreeMemList := next }
  countPages 1
  emit (.alloc n)
  return n

/-- The loop of `create_freepage_list`. `fuel` bounds the number of
pages below `stop`; the guard is what ends it. -/
def freeRange (stop : Nat) : Nat → Nat → K Unit
  | 0, _ => pure ()
  | fuel + 1, p =>
      if p + pgSize < stop then do
        freePage p
        freeRange stop fuel (p + pgSize)
      else pure ()

/-- Build the free list from every page of `[start, stop)`. -/
def createFreepageList (start stop : Nat) : K Unit := do
  modify fun s => { s with gFreeMemList := 0 }
  let p := roundUp start pgSize
  freeRange stop ((stop - p) / pgSize) p

/-- Establish the list of free pages from the kernel's end address and
the reported memory size. -/
def pmmInit (kernelEnd : Nat) : K Unit := do
  let pkeKernelSize := u64 (kernelEnd + (2 ^ 64 - kernBase))
  modify fun s => { s with freeMemStartAddr := roundUp kernelEnd pgSize }
  modify fun s => { s with gMemSize := min pkeMaxAllowableRam s.gMemSize }
  let s ← get
  if s.gMemSize < pkeKernelSize then
    panic "Error when recomputing physical memory size (g_mem_size).\n"
  else
    modify fun s => { s with freeMemEndAddr := s.gMemSize + dramBase }
    let s ← get
    createFreepageList s.freeMemStartAddr s.freeMemEndAddr

end Pke
