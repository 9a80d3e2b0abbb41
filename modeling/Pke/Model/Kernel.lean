/-
The kernel's state and the monad its functions run in.

`Kernel` holds physical memory and the kernel's global variables.
Everything the kernel keeps in allocated pages — free-list links, page
tables, trapframes, the `mapped_info` tables, user frames — lives in
`mem`, byte for byte, and is only ever reached through addresses. The
`procs[]` array is static storage outside the page pool, so it is a
typed field; a process pointer is a slot index, NULL is `none`. The
accounting fields of `struct process` are a second array (`acct`):
`alloc_page` and `free_page` update them behind every caller's back, and
keeping them apart keeps the rest of the process table visibly
untouched by the memory manager.

Of `spike_files[]` the state keeps how many entries are in use: the
number `files_create` writes into every new file table. The table itself
is the subject of File.lean.

Programs (`K`) emit one event per call of `alloc_page` and `free_page`.
Events are history, never read back: they let a statement speak of the
pages handed out during a run and of allocations that returned NULL.
-/
import Pke.Lib.ByteMem
import Pke.Lib.Traced
import Pke.Model.Machine
import Mathlib.Logic.Function.Basic

namespace Pke

open ByteMem

/-- An index into `procs[]`, standing for a process pointer. -/
abbrev Slot := Fin nproc

/-- `enum proc_status`. -/
inductive ProcStatus where
  | free | ready | running | blocked | zombie
deriving DecidableEq, Repr

/-- `enum segment_type`. -/
inductive SegType where
  | code | data | stack | context | system
deriving DecidableEq, Repr

/-- The enumeration's values, as `seg_type` stores them. -/
def SegType.word : SegType → Nat
  | .code => 0
  | .data => 1
  | .stack => 2
  | .context => 3
  | .system => 4

/-- A stored `seg_type` word read back; no `switch` has a default. -/
def SegType.ofWord : Nat → Option SegType
  | 0 => some .code
  | 1 => some .data
  | 2 => some .stack
  | 3 => some .context
  | 4 => some .system
  | _ => none

/-- `struct process`, less its accounting fields. -/
structure Process where
  kstack : Nat
  pagetable : Nat
  trapframe : Nat
  mappedInfo : Nat
  totalMappedRegion : Nat
  pid : Nat
  status : ProcStatus
  parent : Option Slot
  queueNext : Option Slot
  pfiles : Nat

/-- The accounting fields of `struct process`. -/
structure Account where
  tickCount : Int
  totalTickCount : Int
  totalMemCount : Int

/-- The control registers `switch_to` and `enable_paging` write. -/
structure Csr where
  satp : Nat
  stvec : Nat
  sstatus : Nat
  sepc : Nat

/-- Physical memory and the kernel's globals. -/
structure Kernel where
  mem : Mem
  gFreeMemList : Nat
  freeMemStartAddr : Nat
  freeMemEndAddr : Nat
  gMemSize : Nat
  gKernelPagetable : Nat
  ramdisk0BaseAddr : Nat
  procs : Slot → Process
  acct : Slot → Account
  current : Option Slot
  readyQueueHead : Option Slot
  gUfreePage : Nat
  gTicks : Nat
  hostFiles : Fin (maxFiles + 1)
  csr : Csr

/-- Calls of the page allocator, with the page they returned or took. -/
inductive Event where
  | alloc (pa : Nat)
  | free (pa : Nat)
deriving DecidableEq, Repr

/-- The ways the kernel stops. `diverge` is a list walk that never
reaches a NULL link. -/
inductive Halt where
  | panic (msg : String)
  | assertFailed (cond : String)
  | shutdown (code : Int)
  | nullDeref
  | diverge
deriving DecidableEq, Repr

/-- Kernel programs. -/
abbrev K := Traced.Prog Kernel Event Halt

open Traced (get modify emit halt)

-- ==== memory access

/-- Load a doubleword. -/
def ld (a : Nat) : K Nat := do
  let s ← get
  return load s.mem 8 a

/-- Run a pure memory update. -/
def onMem (f : Mem → Mem) : K Unit := modify fun s => { s with mem := f s.mem }

/-- Store a doubleword. -/
def sd (a v : Nat) : K Unit := onMem fun m => store m 8 a v

/-- Store a word. -/
def sw (a v : Nat) : K Unit := onMem fun m => store m 4 a v

def memset (dest : Nat) (byte : UInt8) (len : Nat) : K Unit :=
  onMem fun m => fill m dest byte len

def memcpy (dest src len : Nat) : K Unit := onMem fun m => copy m dest src len

-- ==== process access

/-- `procs[i]`. -/
def proc (i : Slot) : K Process := do
  let s ← get
  return s.procs i

/-- Write to fields of `procs[i]`. -/
def setProc (i : Slot) (f : Process → Process) : K Unit :=
  modify fun s => { s with procs := Function.update s.procs i (f (s.procs i)) }

/-- Write to the accounting fields of `procs[i]`. -/
def setAcct (i : Slot) (f : Account → Account) : K Unit :=
  modify fun s => { s with acct := Function.update s.acct i (f (s.acct i)) }

/-- Dereference `current`. -/
def theCurrent : K Slot := do
  let s ← get
  match s.current with
  | some c => return c
  | none => halt .nullDeref

def panic {α : Type} (msg : String) : K α := halt (.panic msg)

-- ==== structures kept in memory

/-- `struct mapped_region`. -/
structure MappedRegion where
  va : Nat
  npages : Nat
  segType : Nat
deriving DecidableEq, Repr

/-- Entry `j` of the `mapped_info` table at `base`. -/
def regionAt (m : Mem) (base j : Nat) : MappedRegion :=
  { va := load m 8 (base + 16 * j)
    npages := load m 4 (base + 16 * j + 8)
    segType := load m 4 (base + 16 * j + 12) }

/-- Entries per `mapped_info` page: `PGSIZE / sizeof(mapped_region)`. -/
abbrev maxRegions : Nat := 256

def getRegion (base j : Nat) : K MappedRegion := do
  let s ← get
  return regionAt s.mem base j

/-- Record a region in entry `j`: three field stores. -/
def setRegion (base j va npages : Nat) (seg : SegType) : K Unit := do
  sd (base + 16 * j) va
  sw (base + 16 * j + 8) npages
  sw (base + 16 * j + 12) seg.word

/-- Offsets into `struct trapframe`. -/
abbrev tfSp : Nat := 8
abbrev tfA0 : Nat := 72
abbrev tfKernelSp : Nat := 248
abbrev tfKernelTrap : Nat := 256
abbrev tfEpc : Nat := 264
abbrev tfKernelSatp : Nat := 272

/-- `sizeof(trapframe)`. -/
abbrev tfSize : Nat := 280

end Pke
