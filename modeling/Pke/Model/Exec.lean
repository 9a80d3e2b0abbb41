/-
Executing a program (kernel/process.c `do_exec`, kernel/elf.c
`load_shell_bincode_from_host_elf`): the command's name and arguments are
collected from the caller, the process is rebuilt, the arguments are laid
out on its new stack, and the image is loaded.

Arguments are passed around by address. `argv` is the physical address of
the caller's array, and its elements are translated one by one; what is
kept across the rebuilding of the process (`oldargv`) are physical
addresses of the caller's strings.

The two local arrays of the source, `path` and `oldargv`, are on the
kernel stack, where nothing else of the model looks. They are values
here, and every write to one of them is an event with its index; so is
every store through a translated address, with the bytes it covers.
Nothing is checked, here or there: an index out of range is just an
event, and an address that does not translate is 0.
-/
import Pke.Model.Syscall

namespace Pke

open ByteMem
open Traced (get modify emit halt silent)

/-- Writes of exec itself: byte `k` of `path`, entry `k` of `oldargv`, and
`len` bytes of memory from `pa` on. -/
inductive ExecWrite where
  | path (k : Nat)
  | oldargv (k : Nat)
  | store (pa len : Nat)
deriving DecidableEq, Repr

/-- Programs that log these writes. -/
abbrev X := Traced.Prog Kernel ExecWrite Halt

/-- `MAXARGS` of the kernel. -/
abbrev maxArgs : Nat := 10

/-- The size of `path`. -/
abbrev pathSize : Nat := 30

/-- The initial content of `path`: `"./obj/"`. -/
def objDir : List UInt8 := [0x2e, 0x2f, 0x6f, 0x62, 0x6a, 0x2f]

/-- Offset of `a1` in `struct trapframe`. -/
abbrev tfA1 : Nat := 80

/-- Store the low `n` bytes of `v`. -/
def put (n pa v : Nat) : X Unit := do
  emit (.store pa n)
  modify fun s => { s with mem := store s.mem n pa v }

/-- `strcpy`, for at most `fuel` bytes: beyond that the string goes around
the address space. -/
def strcpy : Nat → Nat → Nat → X Unit
  | 0, _, _ => halt .diverge
  | fuel + 1, dst, src => do
      let s ← get
      put 1 dst (s.mem src).toNat
      if s.mem src = 0 then
        pure ()
      else
        strcpy fuel (dst + 1) (src + 1)

/-- `strcpy(path + k, src)`: the string copied, byte by byte to `path`. -/
def pathCopy : Nat → Nat → Nat → X (List UInt8)
  | 0, _, _ => halt .diverge
  | fuel + 1, k, src => do
      let s ← get
      emit (.path k)
      if s.mem src = 0 then
        return []
      else
        let l ← pathCopy fuel (k + 1) (src + 1)
        return s.mem src :: l

/-- The loop that saves the caller's arguments, at index `argc`, an `int`.
The source translates each element twice, with one result. -/
def collectArgs (root argv : Nat) : Nat → Nat → X (List Nat)
  | 0, _ => halt .diverge
  | fuel + 1, argc => do
      let arg ← silent (ld (argv + 8 * argc))
      let pa ← silent (userVaToPa root arg)
      if pa = 0 then
        return []
      else
        emit (.oldargv argc)
        let rest ← collectArgs root argv fuel (argc + 1)
        return pa :: rest

/-- The first loop over the new stack, from argument `i` on: a slot of
eight bytes for every string, and one for the 0 at the end of `oldargv`.
Returns the stack pointer and the slots, which are kept in `oldargv`. -/
def pushStrings (root : Nat) : List Nat → Nat → Nat → X (Nat × List Nat)
  | [], i, sp => do
      let sp := u64 (sp + (2 ^ 64 - 8))
      let pa ← silent (userVaToPa root sp)
      put 8 pa 0
      emit (.oldargv i)
      return (sp, [sp])
  | src :: rest, i, sp => do
      let sp := u64 (sp + (2 ^ 64 - 8))
      let pa ← silent (userVaToPa root sp)
      strcpy (2 ^ 64) pa src
      emit (.oldargv i)
      let (last, slots) ← pushStrings root rest (i + 1) sp
      return (last, sp :: slots)

/-- The second loop: the slots, one below the other. -/
def pushPointers (root : Nat) : List Nat → Nat → X Nat
  | [], sp => return sp
  | slot :: rest, sp => do
      let sp := u64 (sp + (2 ^ 64 - 8))
      let pa ← silent (userVaToPa root sp)
      put 8 pa slot
      pushPointers root rest sp

/-- Lay the arguments out on the stack of the rebuilt process, and point
its registers to them. -/
def buildStack (c : Slot) (oldargv : List Nat) : X Unit := do
  let p ← silent (proc c)
  let sp ← silent (ld (p.trapframe + tfSp))
  let (sp, slots) ← pushStrings p.pagetable oldargv 0 sp
  let sp ← pushPointers p.pagetable slots.reverse sp
  silent (sd (p.trapframe + tfSp) sp)
  silent (sd (p.trapframe + tfA0) oldargv.length)
  silent (sd (p.trapframe + tfA1) sp)

/-- The path of the image and the addresses of the arguments. -/
def saveArgs (c : Slot) (argv : Nat) : X (List UInt8 × List Nat) := do
  let p ← silent (proc c)
  let arg ← silent (ld argv)
  let src ← silent (userVaToPa p.pagetable arg)
  let name ← pathCopy (2 ^ 64) objDir.length src
  let oldargv ← collectArgs p.pagetable argv (2 ^ 31) 0
  emit (.oldargv oldargv.length)
  return (objDir ++ name, oldargv)

/-- `load_shell_bincode_from_host_elf`. The host's files are a parameter:
the file `spike_file_open` finds at a path. -/
def loadShellBincode (cfg : Config) (host : List UInt8 → Option HostFile)
    (argv : Nat) : X Unit := do
  let c ← silent theCurrent
  let (path, oldargv) ← saveArgs c argv
  silent (reallocProcess cfg c)
  buildStack c oldargv
  match host path with
  | none =>
      silent (panic "Fail on openning the input application program.\n")
  | some f => silent (loadBincode f c)

/-- `do_exec`, with the user's `argv`. -/
def doExec (cfg : Config) (host : List UInt8 → Option HostFile) (argv : Nat) :
    X Nat := do
  let c ← silent theCurrent
  let p ← silent (proc c)
  let pa ← silent (userVaToPa p.pagetable argv)
  loadShellBincode cfg host pa
  return 1

end Pke
