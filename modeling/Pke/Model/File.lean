/-
Open files: the table of host files (spike_interface/spike_file.c), the
host file system (kernel/hostfs.c), path lookup (kernel/vfs.c) and
`do_open` (kernel/file.c).

`spike_files[]` and `spike_fds[]` are global, the `files_struct` of a
process is its own. A `spike_file_t*` is an index into `spike_files[]`;
where the source returns an error in its place (`ERR_PTR`) the model
returns `Except`. `refcnt` is the source's `uint32`; one hart runs, so
an atomic operation is its plain effect.

Two outsiders are parameters. What the host answers to an open is an
argument of every function that asks it; the descriptors it is asked to
close are kept in `hostClosed`, latest first. What a device finds under
a path, and the size of the file found, is a `Device`.

The source indexes two arrays with numbers it has not checked. Beyond
`spike_fds[]` there is no pointer to a host file, so a compare-and-swap
there finds nothing; a store beyond `ofile[]` is recorded in `stray`.
-/
import Pke.Model.Kernel

namespace Pke

abbrev maxFds : Nat := 128
abbrev initFileRef : UInt32 := 3
abbrev enomem : Int := 12

/-- `spike_file_t`. -/
structure SpikeFile where
  kfd : Int
  refcnt : UInt32
deriving DecidableEq, Repr

/-- The status of an `ofile` entry. -/
inductive FdStatus where
  | host | none | opened | closed
deriving DecidableEq, Repr

/-- `struct file`. -/
structure File where
  status : FdStatus
  readable : Bool
  writable : Bool
  fd : Int
  off : Int
  ref : Int
  node : Nat
deriving DecidableEq, Repr

/-- `struct files_struct`, less `cwd`, which nothing reads. -/
structure FilesStruct where
  ofile : Fin maxFiles → File
  nfile : Int

/-- The host-file tables, the host's record of closes, the file tables
of the processes, and the result register of the running one. -/
structure FileSys where
  spikeFiles : Fin maxFiles → SpikeFile
  spikeFds : Fin maxFds → Option (Fin maxFiles)
  hostClosed : List Int
  pfiles : Slot → FilesStruct
  stray : List Int
  a0 : Int

/-- The ways a file operation stops the kernel. -/
inductive FileHalt where
  | panic (msg : String)
  | assertFailed (cond : String)
  | wildPointer
deriving DecidableEq, Repr

/-- File operations; they emit nothing. -/
abbrev F := Traced.Prog FileSys Empty FileHalt

open Traced (get modify halt)

-- ==== the host files

/-- Set a reference count. -/
def setRefcnt (f : Fin maxFiles) (n : UInt32) : F Unit :=
  modify fun s => { s with
    spikeFiles := Function.update s.spikeFiles f
      { s.spikeFiles f with refcnt := n } }

/-- Set the descriptor the host knows a file by. -/
def setKfd (f : Fin maxFiles) (kfd : Int) : F Unit :=
  modify fun s => { s with
    spikeFiles := Function.update s.spikeFiles f
      { s.spikeFiles f with kfd := kfd } }

/-- Write an entry of `spike_fds[]`. -/
def setFd (i : Fin maxFds) (f : Option (Fin maxFiles)) : F Unit :=
  modify fun s => { s with spikeFds := Function.update s.spikeFds i f }

/-- The first unused slot of `spike_files[]`. -/
def FileSys.freeFile (s : FileSys) : Option (Fin maxFiles) :=
  (List.finRange maxFiles).find? fun f => (s.spikeFiles f).refcnt = 0

/-- The first empty entry of `spike_fds[]`. -/
def FileSys.freeFd (s : FileSys) : Option (Fin maxFds) :=
  (List.finRange maxFds).find? fun i => s.spikeFds i = none

/-- A number as an array index, where it is one. -/
def arrayIndex (n : Nat) (i : Int) : Option (Fin n) :=
  if h : 0 ≤ i ∧ i.toNat < n then some ⟨i.toNat, h.2⟩ else none

/-- `(int)` of a `long`. -/
def toInt32 (n : Int) : Int := n.bmod (2 ^ 32)

def spikeFileDecref (f : Fin maxFiles) : F Unit := do
  let s ← get
  let old := (s.spikeFiles f).refcnt
  setRefcnt f (old - 1)
  if old = 2 then
    setRefcnt f 0
    modify fun s => { s with
      hostClosed := (s.spikeFiles f).kfd :: s.hostClosed }
  else
    return ()

def spikeFileIncref (f : Fin maxFiles) : F Unit := do
  let s ← get
  let prev := (s.spikeFiles f).refcnt
  setRefcnt f (prev + 1)
  if prev = 0 then halt (.assertFailed "prev > 0") else return ()

/-- Close by the host's descriptor: `spike_fds[f->kfd]` is emptied if it
holds `f`, and only then is a second reference given up. -/
def spikeFileClose : Option (Fin maxFiles) → F Int
  | none => return -1
  | some f => do
      let s ← get
      let i := arrayIndex maxFds (s.spikeFiles f).kfd
      match i.filter fun i => s.spikeFds i = some f with
      | some i => do
          setFd i none
          spikeFileDecref f
          spikeFileDecref f
          return 0
      | none => do
          spikeFileDecref f
          return -1

def spikeFileGetFree : F (Option (Fin maxFiles)) := do
  let s ← get
  match s.freeFile with
  | some f => do
      setRefcnt f initFileRef
      return some f
  | none => return none

def spikeFileDup (f : Fin maxFiles) : F Int := do
  let s ← get
  match s.freeFd with
  | some i => do
      setFd i (some f)
      spikeFileIncref f
      return i.val
  | none => return -1

/-- Standard input, output and error. -/
def spikeFileInit : F Unit :=
  (List.range 3).forM fun i => do
    match ← spikeFileGetFree with
    | some f => do
        setKfd f i
        let _ ← spikeFileDup f
    | none => halt .wildPointer

/-- Open on the host, which answers `ret`. -/
def spikeFileOpenat (ret : Int) : F (Except Int (Fin maxFiles)) := do
  match ← spikeFileGetFree with
  | none => return .error (-enomem)
  | some f =>
      if ret ≥ 0 then do
        setKfd f (toInt32 ret)
        return .ok f
      else do
        spikeFileDecref f
        return .error ret

def spikeFileOpen (ret : Int) : F (Except Int (Fin maxFiles)) :=
  spikeFileOpenat ret

def spikeFileGet (fd : Int) : F (Option (Fin maxFiles)) := do
  let s ← get
  match (arrayIndex maxFds fd).bind s.spikeFds with
  | none => return none
  | some f =>
      let old := (s.spikeFiles f).refcnt
      if old = 0 then return none
      else do
        setRefcnt f (old + 1)
        return some f

-- ==== the host file system

def hostOpen (ret : Int) : F Int := do
  match ← spikeFileOpen ret with
  | .error _ => return -1
  | .ok f => do
      let fd ← spikeFileDup f
      if fd < 0 then do
        spikeFileDecref f
        return -1
      else
        return fd

def hostClose (fd : Int) : F Int := do
  let f ← spikeFileGet fd
  spikeFileClose f

/-- The host file of the ELF loader, opened and closed around the load.
`IS_ERR_VALUE` knows the last 4096 addresses as errors. -/
def loadHostElf (ret : Int) : F Int := do
  match ← spikeFileOpen ret with
  | .error e =>
      if -4096 ≤ e then
        halt (.panic "Fail on openning the input application program.\n")
      else
        halt .wildPointer
  | .ok f => spikeFileClose (some f)

-- ==== path lookup

/-- What lies behind the devices: the result and inode of a lookup by
device name and sub-path, the result and file size of `vop_fstat`. -/
structure Device where
  lookup : List Char → List Char → Int × Nat
  fstat : Nat → Int × Int

/-- The device name and the sub-path of a path, split at its first
colon; a path without one is the host's. -/
def getDevice (path : List Char) : Option (List Char × List Char) :=
  if ':' ∈ path then
    some (path.takeWhile (· ≠ ':'), (path.dropWhile (· ≠ ':')).tail)
  else
    none

/-- The result and the inode of a lookup. -/
def vfsLookup (dev : Device) (path : List Char) : F (Int × Nat) :=
  match getDevice path with
  | none => return (-1, 0)
  | some (name, sub) =>
      if sub.head? ≠ some '/' then
        halt (.panic "vfs_lookup: invalid file path!\n")
      else
        return dev.lookup name sub

/-- The low two bits of the flags. -/
abbrev maskFilemode : Nat := 3

abbrev oRdonly : Nat := 0
abbrev oWronly : Nat := 1
abbrev oRdwr : Nat := 2

/-- Open a path. A file of a device is result 0 and its inode; a file
of the host is its index in `spike_fds[]`, and no inode is stored. -/
def vfsOpen (dev : Device) (path : List Char) (flags : Nat) (ret : Int) :
    F (Int × Option Nat) := do
  if flags &&& maskFilemode > oRdwr then
    halt (.panic "fs_open: invalid open flags!\n")
  else do
    let (found, node) ← vfsLookup dev path
    if found = -1 then do
      let kfd ← hostOpen ret
      return (kfd, none)
    else
      return (0, some node)

-- ==== do_open

/-- Write to an entry of a process's file table. -/
def setFile (p : Slot) (fd : Int) (g : File → File) : F Unit :=
  match arrayIndex maxFiles fd with
  | some i => modify fun s => { s with
      pfiles := Function.update s.pfiles p
        { s.pfiles p with
          ofile := Function.update (s.pfiles p).ofile i
            (g ((s.pfiles p).ofile i)) } }
  | none => modify fun s => { s with stray := fd :: s.stray }

/-- The first free entry of a file table. -/
def FilesStruct.freeEntry (t : FilesStruct) : Option (Fin maxFiles) :=
  (List.finRange maxFiles).find? fun i => (t.ofile i).status = .none

/-- Count one more open file. -/
def incNfile (p : Slot) : F Unit :=
  modify fun s => { s with
    pfiles := Function.update s.pfiles p
      { s.pfiles p with nfile := (s.pfiles p).nfile + 1 } }

/-- `do_open` by process `p`, with the host's answer to the open should
one be asked for. -/
def doOpen (dev : Device) (p : Slot) (path : List Char) (flags : Nat)
    (ret : Int) : F Int := do
  let mode := flags &&& maskFilemode
  if mode > oRdwr then
    halt (.panic "do_ram_open: invalid open flags!\n")
  else do
    let (found, node) ← vfsOpen dev path flags ret
    if found ≠ 0 then do
      setFile p found fun file => { file with status := .host, fd := found }
      incNfile p
      return found
    else do
      let s ← get
      match (s.pfiles p).freeEntry with
      | none =>
          halt (.panic "do_ram_open: no file entry for current process!\n")
      | some fd => do
          setFile p fd.val fun file => { file with
            status := .opened
            readable := mode = oRdonly ∨ mode = oRdwr
            writable := mode = oWronly ∨ mode = oRdwr
            fd := fd.val
            ref := 1
            node := node.getD file.node
            off := 0 }
          match node with
          | none => halt .wildPointer
          | some node =>
              if (dev.fstat node).1 ≠ 0 then
                halt (.panic "do_ram_open: failed to get file status!\n")
              else do
                setFile p fd.val fun file =>
                  { file with off := (dev.fstat node).2 }
                incNfile p
                return fd.val

end Pke
