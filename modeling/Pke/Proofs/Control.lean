/-
What the memory side of the kernel leaves alone.

The functions of the memory manager, the loader and the address-space
code write memory, the free list, page counts and the address-space
fields of processes. An observation of the kernel that cannot see any
of these (`MemoryBlind`) is left as it is by all of them, and they stop
only for reasons of their own — never through the scheduler's
assertion, its "let system wait" panic, a runaway list walk or a NULL
`current`. `Leaves f` says both for one program.

# One walk over the source, many observations

There is one lemma per function, `leaves_<function>`, and its proof is
the function's text: a `bind` for every statement, an `ite` for every
branch. None of them looks at what the observation is, so they are proved
once, for all observations at a time, and a change to one function of
the source is a change to one lemma here. Where a function writes more
than the memory side the lemma asks for more blindness:

- building or rebuilding a process resets its tick counter; an
  observation that leaves out the account of that process cannot tell
  (`AccountBlind`);
- loading an image takes an entry of the table of host files
  (`FilesBlind`).

# The observations

The scheduler's state is one: four fields of each process and two global
pointers (`schedView`). `Quiet` is `Leaves schedView`, and the queue
proofs use nothing else of the functions below. The rows of the process
table (`Kernel.row`) are another: status, parent, pid and the tick
counter, with (`slotView`) or without (`slotViewOff`) the process at
work. The number of host files in use is a third (`hostFiles_blind`):
everything but the loader leaves it, so what `files_create` is going to
store is known before the pages of a process are taken.
-/
import Pke.Model.Boot

namespace Pke

open Traced

/-- The fields of a process the scheduler owns. -/
def Process.schedFields (p : Process) :
    ProcStatus × Option Slot × Option Slot × Nat :=
  (p.status, p.queueNext, p.parent, p.pid)

/-- The scheduler's part of the state. -/
def schedView (s : Kernel) :
    (Slot → ProcStatus × Option Slot × Option Slot × Nat)
      × Option Slot × Option Slot :=
  (fun i => (s.procs i).schedFields, s.current, s.readyQueueHead)

/-- What the life cycle of a process is about. -/
structure Row where
  status : ProcStatus
  parent : Option Slot
  pid : Nat
  ticks : Int

/-- The row of `procs[i]`. -/
def Kernel.row (s : Kernel) (i : Slot) : Row :=
  { status := (s.procs i).status, parent := (s.procs i).parent
    pid := (s.procs i).pid, ticks := (s.acct i).tickCount }

/-- The scheduler's "should not happen" panic. -/
def waitPanic : Halt :=
  .panic "Not handled: we should let system wait for unfinished processes.\n"

/-- The scheduler's assertion. -/
def readyAssert : Halt := .assertFailed "current->status == READY"

/-- A halt the scheduler is not to blame for. -/
def Halt.benign (h : Halt) : Prop :=
  h ≠ waitPanic ∧ h ≠ readyAssert ∧ h ≠ .diverge ∧ h ≠ .nullDeref

variable {α β γ : Type} {f : Kernel → γ}

/-- A program that leaves an observation of the kernel alone and stops
only for reasons of its own. -/
def Leaves (f : Kernel → γ) (m : K α) : Prop := Keeps Halt.benign f m

/-- Statement by statement. -/
theorem Leaves.bind {m : K α} {k : α → K β} (hm : Leaves f m)
    (hk : ∀ a, Leaves f (k a)) : Leaves f (m >>= k) := keeps_bind hm hk

/-- Branch by branch. -/
theorem Leaves.ite {c : Prop} [Decidable c] {m m' : K α} (hm : Leaves f m)
    (hm' : Leaves f m') : Leaves f (if c then m else m') := keeps_ite hm hm'

theorem leaves_pure (a : α) : Leaves f (pure a : K α) := keeps_pure a

theorem leaves_get : Leaves f (get : K Kernel) := keeps_get

/-- Any panic but the scheduler's is a reason of one's own. -/
theorem leaves_panic {msg : String}
    (h : msg ≠
      "Not handled: we should let system wait for unfinished processes.\n") :
    Leaves f (panic msg : K α) := by
  refine keeps_halt ⟨?_, ?_, ?_, ?_⟩
  · unfold waitPanic
    simpa using h
  · unfold readyAssert
    simp
  · simp
  · simp

theorem leaves_ld (a : Nat) : Leaves f (ld a) :=
  leaves_get.bind fun _ => leaves_pure _

theorem leaves_proc (i : Slot) : Leaves f (proc i) :=
  leaves_get.bind fun _ => leaves_pure _

theorem leaves_getRegion (b j : Nat) : Leaves f (getRegion b j) :=
  leaves_get.bind fun _ => leaves_pure _

/-- An observation that cannot see memory, the free list, page counts
or the address space of a process. -/
structure MemoryBlind (f : Kernel → γ) : Prop where
  mem : ∀ s m, f { s with mem := m } = f s
  list : ∀ s a, f { s with gFreeMemList := a } = f s
  counts : ∀ s g, (∀ i, (g i).tickCount = (s.acct i).tickCount) →
    f { s with acct := g } = f s
  space : ∀ s i p, p.schedFields = (s.procs i).schedFields →
    f { s with procs := Function.update s.procs i p } = f s

/-- An observation that cannot see the account of process `i`. -/
def AccountBlind (f : Kernel → γ) (i : Slot) : Prop :=
  ∀ s a, f { s with acct := Function.update s.acct i a } = f s

/-- An observation that cannot see how many host files are in use. -/
def FilesBlind (f : Kernel → γ) : Prop :=
  ∀ s n, f { s with hostFiles := n } = f s

section Memory

variable (hf : MemoryBlind f)

include hf

-- ==== primitives

/-- Every write to memory, whatever it writes. -/
theorem leaves_onMem (g : ByteMem.Mem → ByteMem.Mem) : Leaves f (onMem g) :=
  keeps_modify fun s => hf.mem s _

theorem leaves_sd (a v : Nat) : Leaves f (sd a v) := leaves_onMem hf _

theorem leaves_sw (a v : Nat) : Leaves f (sw a v) := leaves_onMem hf _

theorem leaves_memset (a : Nat) (b : UInt8) (n : Nat) : Leaves f (memset a b n) :=
  leaves_onMem hf _

theorem leaves_memcpy (d a n : Nat) : Leaves f (memcpy d a n) := leaves_onMem hf _

theorem leaves_setRegion (b j va n : Nat) (seg : SegType) :
    Leaves f (setRegion b j va n seg) :=
  (leaves_sd hf _ _).bind fun _ => (leaves_sw hf _ _).bind fun _ => leaves_sw hf _ _

/-- Writing address-space fields of a process. -/
theorem leaves_setProc {i : Slot} {g : Process → Process}
    (hg : ∀ q, (g q).schedFields = q.schedFields) : Leaves f (setProc i g) :=
  keeps_modify fun s => hf.space s i _ (hg _)

/-- The page count of the current process is not its tick counter. -/
theorem leaves_countPages (d : Int) : Leaves f (countPages d) := by
  refine keeps_modify fun s => hf.counts s _ fun j => ?_
  cases s.current with
  | none => rfl
  | some c =>
      by_cases hj : j = c
      · subst hj
        simp only [Function.update_self]
      · simp only [Function.update_of_ne hj]

-- ==== memory manager

/-- `alloc_page`, with a page or with NULL. -/
theorem leaves_allocPage : Leaves f allocPage := by
  refine leaves_get.bind fun s => ?_
  have hrest : Leaves f (do
      countPages 1
      emit (Event.alloc s.gFreeMemList)
      return s.gFreeMemList : K Nat) :=
    (leaves_countPages hf 1).bind fun _ =>
      Leaves.bind (keeps_emit _) fun _ => leaves_pure _
  refine Leaves.ite ?_ hrest
  refine Leaves.bind (leaves_ld _) fun _ => ?_
  exact Leaves.bind (keeps_modify fun s => hf.list s _) fun _ => hrest

/-- `free_page` panics on an address that is none of its pages. -/
theorem leaves_freePage (pa : Nat) : Leaves f (freePage pa) := by
  refine leaves_get.bind fun s => Leaves.ite (leaves_panic (by decide)) ?_
  refine (leaves_sd hf _ _).bind fun _ => ?_
  refine Leaves.bind (keeps_modify fun s => hf.list s _) fun _ => ?_
  exact (leaves_countPages hf _).bind fun _ => keeps_emit _

-- ==== page tables

/-- One level of `page_walk`. -/
theorem leaves_walkLevel (alloc : Bool) (va level pt : Nat) :
    Leaves f (walkLevel alloc va level pt) := by
  refine (leaves_ld _).bind fun e => Leaves.ite (leaves_pure _) ?_
  refine Leaves.ite ?_ (leaves_pure _)
  refine (leaves_allocPage hf).bind fun p => Leaves.ite ?_ (leaves_pure _)
  exact (leaves_memset hf _ _ _).bind fun _ =>
    (leaves_sd hf _ _).bind fun _ => leaves_pure _

theorem leaves_pageWalk (pageDir va : Nat) (alloc : Bool) :
    Leaves f (pageWalk pageDir va alloc) := by
  refine Leaves.ite (leaves_panic (by decide)) ?_
  refine (leaves_walkLevel hf ..).bind fun o => ?_
  cases o with
  | none => exact leaves_pure _
  | some pt =>
      refine (leaves_walkLevel hf ..).bind fun o => ?_
      cases o with
      | none => exact leaves_pure _
      | some pt => exact leaves_pure _

/-- The loop of `map_pages`, by induction on the pages left. -/
theorem leaves_mapLoop (pageDir perm : Nat) :
    ∀ n first pa, Leaves f (mapLoop pageDir perm n first pa) := by
  intro n
  induction n with
  | zero => intro first pa; exact leaves_pure _
  | succ n ih =>
      intro first pa
      refine (leaves_pageWalk hf ..).bind fun pte => Leaves.ite (leaves_pure _) ?_
      refine (leaves_ld _).bind fun e => Leaves.ite (leaves_panic (by decide)) ?_
      exact (leaves_sd hf _ _).bind fun _ => ih _ _

theorem leaves_mapPages (pageDir va size pa perm : Nat) :
    Leaves f (mapPages pageDir va size pa perm) :=
  Leaves.ite (leaves_mapLoop hf ..) (leaves_pure _)

theorem leaves_userVmMap (pageDir va size pa perm : Nat) :
    Leaves f (userVmMap pageDir va size pa perm) :=
  (leaves_mapPages hf ..).bind fun _ =>
    Leaves.ite (leaves_panic (by decide)) (leaves_pure _)

theorem leaves_lookupPa (pagetable va : Nat) : Leaves f (lookupPa pagetable va) := by
  refine Leaves.ite (leaves_pure _) ?_
  refine (leaves_pageWalk hf ..).bind fun pte => Leaves.ite (leaves_pure _) ?_
  exact (leaves_ld _).bind fun e => Leaves.ite (leaves_pure _) (leaves_pure _)

/-- The loop of `user_vm_unmap`. It panics in three places. -/
theorem leaves_unmapLoop (pageDir : Nat) (free : Bool) :
    ∀ n a, Leaves f (unmapLoop pageDir free n a) := by
  intro n
  induction n with
  | zero => intro a; exact leaves_pure _
  | succ n ih =>
      intro a
      refine (leaves_pageWalk hf ..).bind fun pte =>
        Leaves.ite (leaves_panic (by decide)) ?_
      refine (leaves_ld _).bind fun e => Leaves.ite (leaves_panic (by decide)) ?_
      refine Leaves.ite (leaves_panic (by decide)) ?_
      have hrest : Leaves f (do
          sd pte 0
          unmapLoop pageDir free n (a + pgSize)) :=
        (leaves_sd hf _ _).bind fun _ => ih _
      refine Leaves.ite ?_ hrest
      exact (leaves_freePage hf _).bind fun _ => hrest

theorem leaves_userVmUnmap (pageDir va size : Nat) (free : Bool) :
    Leaves f (userVmUnmap pageDir va size free) :=
  Leaves.ite (leaves_panic (by decide)) (leaves_unmapLoop hf ..)

-- ==== address spaces

theorem leaves_mapSystemRegions (cfg : Config) (i : Slot) (u : Nat) :
    Leaves f (mapSystemRegions cfg i u) := by
  unfold mapSystemRegions
  refine (leaves_proc i).bind fun _ => (leaves_userVmMap hf ..).bind fun _ => ?_
  refine (leaves_setRegion hf ..).bind fun _ => (leaves_userVmMap hf ..).bind fun _ => ?_
  refine (leaves_setRegion hf ..).bind fun _ => (leaves_userVmMap hf ..).bind fun _ => ?_
  refine (leaves_setRegion hf ..).bind fun _ => ?_
  exact leaves_setProc hf (by intro _; rfl)

/-- The number of files is stored in memory, wherever that is. -/
theorem leaves_filesCreate (cfg : Config) : Leaves f (filesCreate cfg) := by
  refine (leaves_allocPage hf).bind fun _ => (leaves_onMem hf _).bind fun _ => ?_
  refine Leaves.bind ?_ fun _ => leaves_pure _
  exact leaves_get.bind fun _ => Leaves.ite (leaves_pure _) (leaves_sw hf _ _)

/-- `alloc_process` up to `files_create`. -/
theorem leaves_buildSpace (cfg : Config) {i : Slot} (ha : AccountBlind f i) :
    Leaves f (buildSpace cfg i) := by
  unfold buildSpace
  refine Leaves.bind (keeps_modify fun s => ha s _) fun _ => ?_
  refine (leaves_allocPage hf).bind fun _ => ?_
  refine (leaves_setProc hf (by intro _; rfl)).bind fun _ => ?_
  refine (leaves_memset hf _ _ _).bind fun _ => (leaves_allocPage hf).bind fun _ => ?_
  refine (leaves_setProc hf (by intro _; rfl)).bind fun _ => ?_
  refine (leaves_memset hf _ _ _).bind fun _ => (leaves_allocPage hf).bind fun _ => ?_
  refine (leaves_setProc hf (by intro _; rfl)).bind fun _ => ?_
  refine (leaves_allocPage hf).bind fun _ => (leaves_sd hf _ _).bind fun _ => ?_
  refine (leaves_allocPage hf).bind fun _ => ?_
  refine (leaves_setProc hf (by intro _; rfl)).bind fun _ => ?_
  refine (leaves_memset hf _ _ _).bind fun _ => ?_
  refine (leaves_mapSystemRegions hf ..).bind fun _ => ?_
  exact keeps_modify fun s => ha s _

/-- `alloc_process`, once it has found a slot. -/
theorem leaves_buildProcess (cfg : Config) {i : Slot} (ha : AccountBlind f i) :
    Leaves f (buildProcess cfg i) := by
  refine (leaves_buildSpace hf cfg ha).bind fun _ => ?_
  refine (leaves_filesCreate hf cfg).bind fun _ => ?_
  exact leaves_setProc hf (by intro _; rfl)

/-- One case of the `switch` over segment types. -/
theorem leaves_freeRegion (pagetable : Nat) (r : MappedRegion) :
    Leaves f (freeRegion pagetable r) := by
  unfold freeRegion
  split
  all_goals first
    | exact leaves_userVmUnmap hf ..
    | exact leaves_pure _

theorem leaves_freeRegions (i : Slot) : Leaves f (freeRegions i) :=
  (leaves_proc i).bind fun _ => keeps_forM fun _ =>
    Leaves.bind (leaves_getRegion ..) fun _ => leaves_freeRegion hf ..

/-- What `do_wait` gives back of a dead process. -/
theorem leaves_releasePages (i : Slot) : Leaves f (releasePages i) := by
  unfold releasePages
  refine (leaves_proc i).bind fun _ => (leaves_freePage hf _).bind fun _ => ?_
  refine (leaves_freeRegions hf i).bind fun _ => (leaves_freePage hf _).bind fun _ => ?_
  exact leaves_freePage hf _

/-- `realloc_process` resets all three counters of the process. -/
theorem leaves_reallocProcess (cfg : Config) {i : Slot}
    (ha : AccountBlind f i) :
    Leaves f (reallocProcess cfg i) := by
  unfold reallocProcess
  refine (leaves_freeRegions hf i).bind fun _ => (leaves_proc i).bind fun _ => ?_
  refine (leaves_freePage hf _).bind fun _ => (leaves_allocPage hf).bind fun _ => ?_
  refine (leaves_setProc hf (by intro _; rfl)).bind fun _ => ?_
  refine (leaves_memset hf _ _ _).bind fun _ => (leaves_allocPage hf).bind fun _ => ?_
  refine (leaves_setProc hf (by intro _; rfl)).bind fun _ => ?_
  refine (leaves_memset hf _ _ _).bind fun _ => (leaves_allocPage hf).bind fun _ => ?_
  refine (leaves_sd hf _ _).bind fun _ => (leaves_memset hf _ _ _).bind fun _ => ?_
  exact (leaves_mapSystemRegions hf ..).bind fun _ =>
    keeps_modify fun s => ha s _

theorem leaves_recordRegion (i : Slot) (va n : Nat) (seg : SegType) :
    Leaves f (recordRegion i va n seg) :=
  (leaves_proc i).bind fun _ => (leaves_setRegion hf ..).bind fun _ =>
    leaves_setProc hf (by intro _; rfl)

/-- One case of the `switch` of `do_fork`: in the order of the source,
context, stack, code, data, and nothing for the trap section. -/
theorem leaves_forkRegion (parent child : Slot) (r : MappedRegion) :
    Leaves f (forkRegion parent child r) := by
  unfold forkRegion
  split
  · exact (leaves_proc _).bind fun _ => (leaves_proc _).bind fun _ =>
      leaves_memcpy hf _ _ _
  · exact (leaves_proc _).bind fun _ => (leaves_proc _).bind fun _ =>
      (leaves_getRegion ..).bind fun _ => (leaves_lookupPa hf ..).bind fun _ =>
        (leaves_lookupPa hf ..).bind fun _ => leaves_memcpy hf _ _ _
  · refine (leaves_proc _).bind fun _ => (leaves_proc _).bind fun _ => ?_
    refine Leaves.bind (keeps_forM fun j => ?_) fun _ => leaves_recordRegion hf ..
    exact Leaves.bind (leaves_lookupPa hf ..) fun _ =>
      (leaves_mapPages hf ..).bind fun _ => leaves_pure _
  · refine (leaves_proc _).bind fun _ => (leaves_proc _).bind fun _ => ?_
    refine Leaves.bind (keeps_forM fun j => ?_) fun _ => leaves_recordRegion hf ..
    exact Leaves.bind (leaves_allocPage hf) fun _ => (leaves_lookupPa hf ..).bind fun _ =>
      (leaves_memcpy hf _ _ _).bind fun _ => (leaves_mapPages hf ..).bind fun _ =>
        leaves_pure _
  · exact leaves_pure _

-- ==== loading

/-- The body of the loop of `elf_load`; the three ways to record a segment
end in the same statement. -/
theorem leaves_loadSegment (file : HostFile) (i : Slot) (ph : ElfProgHeader) :
    Leaves f (loadSegment file i ph) := by
  refine Leaves.ite (leaves_pure _) (Leaves.ite (leaves_pure _) ?_)
  have halloc : Leaves f (elfAllocMb i ph.vaddr ph.memsz) := by
    refine Leaves.ite (leaves_panic (by decide)) ?_
    refine (leaves_allocPage hf).bind fun _ => Leaves.ite (leaves_panic (by decide)) ?_
    exact (leaves_memset hf _ _ _).bind fun _ => (leaves_proc _).bind fun _ =>
      (leaves_userVmMap hf ..).bind fun _ => leaves_pure _
  have hpread : ∀ d n o, Leaves f (preadInto file d n o) := fun d n o =>
    (leaves_onMem hf _).bind fun _ => leaves_pure _
  have hend : Leaves f (do
      setProc i fun q => { q with totalMappedRegion := q.totalMappedRegion + 1 }
      return ElfStatus.ok) :=
    (leaves_setProc hf (by intro _; rfl)).bind fun _ => leaves_pure _
  refine halloc.bind fun _ => (hpread ..).bind fun _ =>
    Leaves.ite (leaves_pure _) ?_
  refine (leaves_proc _).bind fun _ => leaves_get.bind fun _ => ?_
  refine (leaves_sd hf _ _).bind fun _ => (leaves_sw hf _ _).bind fun _ => ?_
  refine Leaves.ite ((leaves_sw hf _ _).bind fun _ => hend) ?_
  refine Leaves.ite ((leaves_sw hf _ _).bind fun _ => hend) ?_
  exact (leaves_panic (by decide)).bind fun _ => hend

theorem leaves_loadLoop (file : HostFile) (i : Slot) :
    ∀ n off, Leaves f (loadLoop file i n off) := by
  intro n
  induction n with
  | zero => intro off; exact leaves_pure _
  | succ n ih =>
      intro off
      refine Leaves.ite (leaves_pure _) (Leaves.ite (ih _) ?_)
      refine (leaves_loadSegment hf ..).bind fun st => ?_
      cases st with
      | ok => exact ih _
      | eio => exact leaves_pure _
      | enomem => exact leaves_pure _
      | notelf => exact leaves_pure _
      | err => exact leaves_pure _

theorem leaves_loadImage (file : HostFile) (i : Slot) :
    Leaves f (loadImage file i) := by
  refine Leaves.ite (leaves_panic (by decide)) ?_
  refine Leaves.bind (leaves_loadLoop hf ..) fun st =>
    Leaves.ite (leaves_panic (by decide)) ?_
  exact (leaves_proc _).bind fun _ => leaves_sd hf _ _

/-- Opening the image writes the table of host files. -/
theorem leaves_loadBincode (hh : FilesBlind f) (file : HostFile) (i : Slot) :
    Leaves f (loadBincode file i) := by
  have hopen : Leaves f openImage := by
    refine leaves_get.bind fun s => ?_
    split
    · exact keeps_modify fun s => hh s _
    · exact leaves_panic (by decide)
  exact hopen.bind fun _ => leaves_loadImage hf file i

end Memory

-- ==== the scheduler's view

/-- A program that leaves the scheduler's state alone. -/
abbrev Quiet (m : K α) : Prop := Leaves schedView m

/-- Updating the address-space fields of a process is invisible to the
scheduler. -/
theorem sched_blind : MemoryBlind schedView where
  mem _ _ := rfl
  list _ _ := rfl
  counts _ _ _ := rfl
  space s i p hp := by
    unfold schedView
    simp only [Prod.mk.injEq, and_true]
    funext j
    by_cases hj : j = i
    · subst hj
      rw [Function.update_self, hp]
    · rw [Function.update_of_ne hj]

theorem sched_account (i : Slot) : AccountBlind schedView i := fun _ _ => rfl

theorem sched_files : FilesBlind schedView := fun _ _ => rfl

/-- Nothing on the memory side counts host files. -/
theorem hostFiles_blind : MemoryBlind Kernel.hostFiles where
  mem _ _ := rfl
  list _ _ := rfl
  counts _ _ _ := rfl
  space _ _ _ _ := rfl

theorem hostFiles_account (i : Slot) : AccountBlind Kernel.hostFiles i :=
  fun _ _ => rfl

/-- The scheduler's part of the state and the rows of all processes. -/
def slotView (s : Kernel) := (schedView s, s.row)

/-- The same without the row of process `i`. -/
def slotViewOff (i : Slot) (s : Kernel) :=
  (schedView s, fun j => if j = i then none else some (s.row j))

/-- A row is four fields. -/
theorem row_congr {s s' : Kernel} {i : Slot}
    (hp : (s'.procs i).schedFields = (s.procs i).schedFields)
    (ha : (s'.acct i).tickCount = (s.acct i).tickCount) :
    s'.row i = s.row i := by
  unfold Process.schedFields at hp
  simp only [Prod.mk.injEq] at hp
  simp only [Kernel.row, hp, ha]

theorem row_blind : MemoryBlind Kernel.row where
  mem _ _ := rfl
  list _ _ := rfl
  counts _ _ hg := funext fun i => row_congr rfl (hg i)
  space s i p hp := funext fun j =>
    row_congr (congrFun (congrArg Prod.fst (sched_blind.space s i p hp)) j) rfl

theorem slot_blind : MemoryBlind slotView where
  mem _ _ := rfl
  list _ _ := rfl
  counts s g hg := congrArg (Prod.mk _) (row_blind.counts s g hg)
  space s i p hp := by
    unfold slotView
    rw [sched_blind.space s i p hp, row_blind.space s i p hp]

theorem slotOff_blind (i : Slot) : MemoryBlind (slotViewOff i) where
  mem _ _ := rfl
  list _ _ := rfl
  counts s g hg := by
    unfold slotViewOff
    rw [row_blind.counts s g hg]
    rfl
  space s j p hp := by
    unfold slotViewOff
    rw [sched_blind.space s j p hp, row_blind.space s j p hp]

/-- The account of the process left out is invisible. -/
theorem slotOff_account (i : Slot) : AccountBlind (slotViewOff i) i := by
  intro s a
  unfold slotViewOff
  congr 1
  funext j
  by_cases hj : j = i
  · rw [if_pos hj, if_pos hj]
  · rw [if_neg hj, if_neg hj]
    simp only [Kernel.row, Function.update_of_ne hj]

theorem quiet_setAcct (i : Slot) (g : Account → Account) :
    Quiet (setAcct i g) := keeps_modify fun _ => rfl

-- ==== boot

/-- An observation that sees nothing of what boot sets up for good. -/
structure BootBlind (f : Kernel → γ) : Prop extends MemoryBlind f where
  start : ∀ s a, f { s with freeMemStartAddr := a } = f s
  stop : ∀ s a, f { s with freeMemEndAddr := a } = f s
  size : ∀ s a, f { s with gMemSize := a } = f s
  kernTable : ∀ s a, f { s with gKernelPagetable := a } = f s
  disk : ∀ s a, f { s with ramdisk0BaseAddr := a } = f s

theorem sched_boot : BootBlind schedView :=
  ⟨sched_blind, fun _ _ => rfl, fun _ _ => rfl, fun _ _ => rfl, fun _ _ => rfl,
    fun _ _ => rfl⟩

theorem hostFiles_boot : BootBlind Kernel.hostFiles :=
  ⟨hostFiles_blind, fun _ _ => rfl, fun _ _ => rfl, fun _ _ => rfl, fun _ _ => rfl,
    fun _ _ => rfl⟩

section Boot

variable (hb : BootBlind f)
include hb

/-- The loop of `create_freepage_list`. -/
theorem leaves_freeRange (stop : Nat) :
    ∀ fuel p, Leaves f (freeRange stop fuel p) := by
  intro fuel
  induction fuel with
  | zero => intro p; exact leaves_pure _
  | succ fuel ih =>
      intro p
      exact Leaves.ite ((leaves_freePage hb.toMemoryBlind p).bind fun _ =>
        ih _) (leaves_pure _)

theorem leaves_createFreepageList (start stop : Nat) :
    Leaves f (createFreepageList start stop) := by
  unfold createFreepageList
  refine Leaves.bind (keeps_modify fun s => hb.list s _) fun _ => ?_
  exact leaves_freeRange hb _ _ _

theorem leaves_pmmInit (kernelEnd : Nat) : Leaves f (pmmInit kernelEnd) := by
  unfold pmmInit
  -- the values stored are generalised, so that none is ever evaluated
  have hstart : ∀ v, Leaves f (modify fun s =>
      { s with freeMemStartAddr := v }) := fun v => keeps_modify fun s => hb.start s _
  have hsize : ∀ g : Nat → Nat, Leaves f (modify fun s =>
      { s with gMemSize := g s.gMemSize }) := fun g => keeps_modify fun s => hb.size s _
  refine (hstart _).bind fun _ => ?_
  refine (hsize (min pkeMaxAllowableRam)).bind fun _ => ?_
  refine leaves_get.bind fun s => Leaves.ite (leaves_panic (by decide)) ?_
  refine Leaves.bind (keeps_modify fun s => hb.stop s _) fun _ => ?_
  exact leaves_get.bind fun s => leaves_createFreepageList hb _ _

theorem leaves_kernVmMap (pageDir va pa sz perm : Nat) :
    Leaves f (kernVmMap pageDir va pa sz perm) :=
  (leaves_mapPages hb.toMemoryBlind ..).bind fun _ =>
    Leaves.ite (leaves_panic (by decide)) (leaves_pure _)

/-- The kernel's own page table. -/
theorem leaves_kernVmInit (etext : Nat) : Leaves f (kernVmInit etext) :=
  (leaves_allocPage hb.toMemoryBlind).bind fun _ =>
    (leaves_memset hb.toMemoryBlind _ _ _).bind fun _ =>
    (leaves_kernVmMap hb ..).bind fun _ => (leaves_kernVmMap hb ..).bind fun _ =>
      keeps_modify fun s => hb.kernTable s _

-- ==== file system

theorem leaves_initRamdisk0 : Leaves f initRamdisk0 := by
  unfold initRamdisk0
  refine keeps_forM fun _ => ?_
  exact Leaves.bind (leaves_allocPage hb.toMemoryBlind) fun _ =>
    keeps_modify fun s => hb.disk s _

theorem leaves_devInit : Leaves f devInit := by
  unfold devInit devInitRamdisk0
  refine (leaves_initRamdisk0 hb).bind fun _ =>
    (leaves_allocPage hb.toMemoryBlind).bind fun _ => ?_
  refine (leaves_sw hb.toMemoryBlind _ _).bind fun _ => ?_
  refine (leaves_allocPage hb.toMemoryBlind).bind fun _ => ?_
  refine (leaves_sw hb.toMemoryBlind _ _).bind fun _ => ?_
  refine (leaves_sw hb.toMemoryBlind _ _).bind fun _ => ?_
  exact (leaves_sd hb.toMemoryBlind _ _).bind fun _ => leaves_pure _

theorem leaves_ramdisk0Input (b n : Nat) : Leaves f (ramdisk0Input b n) :=
  Leaves.ite (leaves_panic (by decide))
    (leaves_get.bind fun _ => leaves_memcpy hb.toMemoryBlind _ _ _)

/-- Mounting writes the ramdisk, block by block. -/
theorem leaves_rfsDoMount (dev : Nat) : Leaves f (rfsDoMount dev) := by
  unfold rfsDoMount allocFs
  refine Leaves.bind ((leaves_allocPage hb.toMemoryBlind).bind fun _ =>
    (leaves_sw hb.toMemoryBlind _ _).bind fun _ => leaves_pure _) fun _ => ?_
  refine (leaves_sd hb.toMemoryBlind _ _).bind fun _ => ?_
  refine (leaves_sw hb.toMemoryBlind _ _).bind fun _ => ?_
  refine (leaves_allocPage hb.toMemoryBlind).bind fun _ => ?_
  refine (leaves_sd hb.toMemoryBlind _ _).bind fun _ => ?_
  -- superblock
  refine (leaves_sw hb.toMemoryBlind _ _).bind fun _ => ?_
  refine (leaves_sw hb.toMemoryBlind _ _).bind fun _ => ?_
  refine (leaves_sw hb.toMemoryBlind _ _).bind fun _ => ?_
  refine (leaves_sw hb.toMemoryBlind _ _).bind fun _ => ?_
  refine (leaves_memcpy hb.toMemoryBlind _ _ _).bind fun _ => ?_
  refine (leaves_ramdisk0Input hb _ _).bind fun _ => ?_
  -- bitmap
  refine (leaves_allocPage hb.toMemoryBlind).bind fun _ => ?_
  refine (leaves_sd hb.toMemoryBlind _ _).bind fun _ => ?_
  refine (leaves_memset hb.toMemoryBlind _ _ _).bind fun _ => ?_
  refine (leaves_sw hb.toMemoryBlind _ _).bind fun _ => ?_
  refine (leaves_memcpy hb.toMemoryBlind _ _ _).bind fun _ => ?_
  refine (leaves_ramdisk0Input hb _ _).bind fun _ => ?_
  -- free inodes
  refine (leaves_sw hb.toMemoryBlind _ _).bind fun _ => ?_
  refine (leaves_sw hb.toMemoryBlind _ _).bind fun _ => ?_
  refine (leaves_sw hb.toMemoryBlind _ _).bind fun _ => ?_
  refine (leaves_sw hb.toMemoryBlind _ _).bind fun _ => ?_
  refine Leaves.bind (keeps_forM fun _ => leaves_ramdisk0Input hb _ _) fun _ => ?_
  -- root inode
  refine (leaves_sw hb.toMemoryBlind _ _).bind fun _ => ?_
  refine (leaves_sw hb.toMemoryBlind _ _).bind fun _ => ?_
  refine (leaves_sw hb.toMemoryBlind _ _).bind fun _ => ?_
  refine (leaves_sw hb.toMemoryBlind _ _).bind fun _ => ?_
  refine (leaves_sd hb.toMemoryBlind _ _).bind fun _ => ?_
  refine (leaves_ramdisk0Input hb _ _).bind fun _ => ?_
  -- root directory
  refine (leaves_sw hb.toMemoryBlind _ _).bind fun _ => ?_
  refine (leaves_onMem hb.toMemoryBlind _).bind fun _ => ?_
  exact (leaves_ramdisk0Input hb _ _).bind fun _ => leaves_pure _

theorem leaves_fsInit : Leaves f fsInit := by
  unfold fsInit vfsMount
  refine (leaves_devInit hb).bind fun _ => (leaves_ld _).bind fun _ => ?_
  exact (leaves_rfsDoMount hb _).bind fun _ => leaves_sd hb.toMemoryBlind _ _

end Boot

end Pke
