/-
What the kernel is linked against and booted with.

The symbols come from kernel/kernel.lds; the fields that are proofs
record what that script and the size of the image guarantee about them:
the trap section starts on a page boundary inside the text section,
behind more than a page and less than two megabytes of it, text ends on
a page boundary, and `_end` lies above both.

`struct files_struct` is longer than the page `files_create` takes for
it: its last field, the number of files, lies in the page behind
(FileTable.lean). `filesInit` is the content the page itself is given,
any content at all; the number is stored by `filesCreate`
(Process.lean), wherever it falls. `tableFits` is false of the source.
Where it is true the file table is taken as a page of its own and the
store is left out, for statements that are made under that reading.
-/
import Pke.Model.Kernel

namespace Pke

open ByteMem

/-- A file on the host, byte by byte. -/
abbrev HostFile := List UInt8

/-- Linker symbols, boot inputs and the content of a `files_struct`
page. -/
structure Config where
  kernelEnd : Nat
  etext : Nat
  trapSecStart : Nat
  smodeTrapVector : Nat
  smodeTrapHandler : Nat
  memSize : Nat
  mem0 : Mem
  app : HostFile
  filesInit : Nat → Mem → Mem
  tableFits : Bool
  trap_aligned : trapSecStart % pgSize = 0
  trap_base : kernBase + pgSize < trapSecStart
  trap_near : trapSecStart < kernBase + 512 * pgSize
  trap_text : trapSecStart + pgSize ≤ etext
  etext_aligned : etext % pgSize = 0
  etext_end : etext ≤ kernelEnd
  end_lt : kernelEnd < 2 ^ 63
  files_own : ∀ p m lo hi, hi ≤ p ∨ p + pgSize ≤ lo →
    Agree m (filesInit p m) lo hi

/-- The contents of a process slot in zeroed static storage. -/
def blankProcess : Process :=
  { kstack := 0, pagetable := 0, trapframe := 0, mappedInfo := 0
    totalMappedRegion := 0, pid := 0, status := .free, parent := none
    queueNext := none, pfiles := 0 }

/-- The state the kernel is entered in: zeroed static storage and
whatever memory holds. -/
def Config.init (cfg : Config) : Kernel :=
  { mem := cfg.mem0
    gFreeMemList := 0
    freeMemStartAddr := 0
    freeMemEndAddr := 0
    gMemSize := cfg.memSize
    gKernelPagetable := 0
    ramdisk0BaseAddr := 0
    procs := fun _ => blankProcess
    acct := fun _ => { tickCount := 0, totalTickCount := 0, totalMemCount := 0 }
    current := none
    readyQueueHead := none
    gUfreePage := userFreeAddressStart
    gTicks := 0
    hostFiles := ⟨3, by decide⟩
    csr := { satp := 0, stvec := 0, sstatus := 0, sepc := 0 } }

end Pke
