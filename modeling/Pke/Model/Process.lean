/-
Processes (kernel/process.c): building and rebuilding an address space,
fork, wait, and the release of a dead process.

`alloc_process` and `realloc_process` end in the same statements — map
and record the user stack, the trapframe and the trap section — kept
here once as `mapSystemRegions`. `realloc_process` and `do_wait` share
the loop that unmaps every recorded region, `freeRegions`.
-/
import Pke.Model.Vmm
import Pke.Model.Sched
import Pke.Model.FileTable

namespace Pke

open ByteMem
open Traced (get modify emit halt)

/-- Set up the process pool. -/
def initProcPool : K Unit := do
  modify fun s =>
    { s with
      procs := fun i => { blankProcess with status := .free, pid := i }
      acct := fun _ =>
        { tickCount := 0, totalTickCount := 0, totalMemCount := 0 } }

/-- Map and record the three regions every process starts with. -/
def mapSystemRegions (cfg : Config) (i : Slot) (userStack : Nat) : K Unit := do
  let p ← proc i
  -- user stack
  userVmMap p.pagetable (userStackTop - pgSize) pgSize userStack
    (protToType (protWrite ||| protRead) true)
  setRegion p.mappedInfo 0 (userStackTop - pgSize) 1 .stack
  -- trapframe, at its physical address
  userVmMap p.pagetable p.trapframe pgSize p.trapframe
    (protToType (protWrite ||| protRead) false)
  setRegion p.mappedInfo 1 p.trapframe 1 .context
  -- trap vector section, at its physical address
  userVmMap p.pagetable cfg.trapSecStart pgSize cfg.trapSecStart
    (protToType (protRead ||| protExec) false)
  setRegion p.mappedInfo 2 cfg.trapSecStart 1 .system
  setProc i fun q => { q with totalMappedRegion := 3 }

/-- Store the number of files in the `files_struct` at `pfiles`: eight
bytes into the page behind it. -/
def countFiles (cfg : Config) (pfiles : Nat) : K Unit := do
  let s ← get
  if cfg.tableFits then
    return ()
  else
    sw (pfiles + FileTable.nfileOff) s.hostFiles

/-- Take a page for a `files_struct` and fill it in. -/
def filesCreate (cfg : Config) : K Nat := do
  let p ← allocPage
  onMem (cfg.filesInit p)
  countFiles cfg p
  return p

/-- The first unused slot. -/
def freeSlot (s : Kernel) : Option Slot :=
  (List.finRange nproc).find? fun i => (s.procs i).status = .free

/-- Build the address space of `procs[i]`: `alloc_process` from the
search for a slot to `files_create`. -/
def buildSpace (cfg : Config) (i : Slot) : K Unit := do
  setAcct i fun a => { a with totalMemCount := 0 }
  let trapframe ← allocPage
  setProc i fun q => { q with trapframe := trapframe }
  memset trapframe 0 tfSize
  let pagetable ← allocPage
  setProc i fun q => { q with pagetable := pagetable }
  memset pagetable 0 pgSize
  let kstack ← allocPage
  setProc i fun q => { q with kstack := kstack + pgSize }
  let userStack ← allocPage
  sd (trapframe + tfSp) userStackTop
  let mappedInfo ← allocPage
  setProc i fun q => { q with mappedInfo := mappedInfo }
  memset mappedInfo 0 pgSize
  mapSystemRegions cfg i userStack
  setAcct i fun a => { a with totalTickCount := 0, tickCount := 0 }

/-- The part of `alloc_process` after the search for a slot. -/
def buildProcess (cfg : Config) (i : Slot) : K Unit := do
  buildSpace cfg i
  let pfiles ← filesCreate cfg
  setProc i fun q => { q with pfiles := pfiles }

/-- Take an unused slot and build its address space. The slot's status
stays FREE: callers set it. -/
def allocProcess (cfg : Config) : K Slot := do
  let s ← get
  match freeSlot s with
  | none => panic "cannot find any free process structure.\n"
  | some i =>
      buildProcess cfg i
      return i

/-- Mark a process dead; its memory is reclaimed by its parent's
`do_wait`. -/
def freeProcess (i : Slot) : K Unit :=
  setProc i fun q => { q with status := .zombie }

/-- Unmap one recorded region, as `realloc_process` and `do_wait` do:
stack, trapframe and data pages are given back, code pages only
unmapped. The byte count is a 32-bit product. -/
def freeRegion (pagetable : Nat) (r : MappedRegion) : K Unit :=
  match SegType.ofWord r.segType with
  | some .stack | some .context | some .data =>
      userVmUnmap pagetable r.va (r.npages * pgSize % 2 ^ 32) true
  | some .code =>
      userVmUnmap pagetable r.va (r.npages * pgSize % 2 ^ 32) false
  | _ => pure ()

/-- Unmap every recorded region of a process. -/
def freeRegions (i : Slot) : K Unit := do
  let p ← proc i
  (List.range p.totalMappedRegion).forM fun j => do
    let r ← getRegion p.mappedInfo j
    freeRegion p.pagetable r

/-- Tear down the address space of `procs[i]` and build an empty one;
kernel stack and `mapped_info` page are kept. -/
def reallocProcess (cfg : Config) (i : Slot) : K Unit := do
  freeRegions i
  let p ← proc i
  freePage p.pagetable
  let trapframe ← allocPage
  setProc i fun q => { q with trapframe := trapframe }
  memset trapframe 0 tfSize
  let pagetable ← allocPage
  setProc i fun q => { q with pagetable := pagetable }
  memset pagetable 0 pgSize
  let userStack ← allocPage
  sd (trapframe + tfSp) userStackTop
  memset p.mappedInfo 0 pgSize
  mapSystemRegions cfg i userStack
  setAcct i fun _ => { tickCount := 0, totalTickCount := 0, totalMemCount := 3 }

/-- Append a region to the table of `procs[i]`. -/
def recordRegion (i : Slot) (va npages : Nat) (seg : SegType) : K Unit := do
  let c ← proc i
  setRegion c.mappedInfo c.totalMappedRegion va npages seg
  setProc i fun q => { q with totalMappedRegion := q.totalMappedRegion + 1 }

/-- Copy one recorded region of the parent to the child: one case of
the `switch` in `do_fork`. The address `va + j*PGSIZE` is formed for
`j < npages`; every region is recorded with one page. -/
def forkRegion (parent child : Slot) (r : MappedRegion) : K Unit :=
  match SegType.ofWord r.segType with
  | some .context => do
      let c ← proc child
      let p ← proc parent
      memcpy c.trapframe p.trapframe tfSize
  | some .stack => do
      let c ← proc child
      let p ← proc parent
      let r0 ← getRegion c.mappedInfo 0
      let dst ← lookupPa c.pagetable r0.va
      let src ← lookupPa p.pagetable r.va
      memcpy dst src pgSize
  | some .code => do
      let c ← proc child
      let p ← proc parent
      (List.range r.npages).forM fun j => do
        let addr ← lookupPa p.pagetable (u64 (r.va + j * pgSize))
        let _ ← mapPages c.pagetable (u64 (r.va + j * pgSize)) pgSize addr
          (protToType (protWrite ||| protRead ||| protExec) true)
      recordRegion child r.va r.npages .code
  | some .data => do
      let c ← proc child
      let p ← proc parent
      (List.range r.npages).forM fun j => do
        let pa ← allocPage
        let addr ← lookupPa p.pagetable (u64 (r.va + j * pgSize))
        memcpy pa addr pgSize
        let _ ← mapPages c.pagetable (u64 (r.va + j * pgSize)) pgSize pa
          (protToType (protWrite ||| protRead) true)
      recordRegion child r.va r.npages .data
  | _ => pure ()

/-- Fork: a fresh process, the parent's recorded regions copied or
shared into it, queued READY. Returns the child's pid. -/
def doFork (cfg : Config) (parent : Slot) : K Nat := do
  let child ← allocProcess cfg
  let p ← proc parent
  (List.range p.totalMappedRegion).forM fun i => do
    let r ← getRegion p.mappedInfo i
    forkRegion parent child r
  setProc child fun q => { q with status := .ready }
  let c ← proc child
  sd (c.trapframe + tfA0) 0
  setProc child fun q => { q with parent := some parent }
  setAcct child fun _ =>
    { tickCount := 0, totalTickCount := 0
      totalMemCount := c.totalMappedRegion }
  insertToReadyQueue child
  return c.pid

/-- Give back the pages of a dead process that `do_wait` gives back:
kernel stack, recorded regions, region table and root page table. -/
def releasePages (i : Slot) : K Unit := do
  let p ← proc i
  freePage (p.kstack - pgSize)
  freeRegions i
  freePage p.mappedInfo
  freePage p.pagetable

/-- Release a dead process and clear its slot. -/
def reap (i : Slot) : K Unit := do
  releasePages i
  setProc i fun q =>
    { q with status := .free, parent := none, queueNext := none }
  setAcct i fun _ => { tickCount := 0, totalTickCount := 0, totalMemCount := 0 }

/-- The scan of `do_wait` over the slots not yet visited. -/
def waitLoop (cur : Slot) (pid : Int) : List Slot → Bool → K Int
  | [], havekids => return if havekids then -2 else -1
  | i :: rest, havekids => do
      let p ← proc i
      if p.parent ≠ some cur then
        waitLoop cur pid rest havekids
      else if pid > 0 ∧ pid ≠ p.pid then
        waitLoop cur pid rest havekids
      else if p.status = .zombie then
        reap i
        return p.pid
      else
        waitLoop cur pid rest true

/-- Reap one dead child: its pid, -2 if there are only live ones, -1 if
there is none. -/
def doWait (pid : Int) : K Int := do
  let cur ← theCurrent
  waitLoop cur pid (List.finRange nproc) false

/-- The letter `do_getinfo` prints for a status. -/
def ProcStatus.letter : ProcStatus → Char
  | .ready => 'S'
  | .running => 'R'
  | .blocked => 'B'
  | .zombie => 'Z'
  | .free => '/'

/-- A line of the process list `do_getinfo` prints. -/
structure ProcInfo where
  pid : Nat
  stat : Char
  mem : Int
  tick : Int

/-- The numbers `do_getinfo` prints. -/
structure SysInfo where
  total : Nat
  ready : Nat
  running : Nat
  blocked : Nat
  zombie : Nat
  ticks : Nat
  memKib : Nat
  procs : List ProcInfo

/-- Report the processes in use, by status and one by one. -/
def doGetinfo : K SysInfo := do
  let s ← get
  let used := (List.finRange nproc).filter fun i => (s.procs i).status ≠ .free
  let count := fun st => used.countP fun i => (s.procs i).status = st
  return {
    total := used.length
    ready := count .ready
    running := count .running
    blocked := count .blocked
    zombie := count .zombie
    ticks := s.gTicks
    memKib := s.gMemSize >>> 10
    procs := used.map fun i =>
      { pid := (s.procs i).pid
        stat := (s.procs i).status.letter
        mem := (s.acct i).totalMemCount * 4
        tick := (s.acct i).totalTickCount } }

end Pke
