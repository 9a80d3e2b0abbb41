/-
Loading an ELF image (kernel/elf.c): `elf_init`, `elf_load` and what
they do to the process. The file comes from the host through
`spike_file_pread`, which delivers the requested bytes or fewer at the
end of the file.
-/
import Pke.Model.Process

namespace Pke

open ByteMem
open Traced (get modify emit halt)

/-- The number of bytes `spike_file_pread` delivers. -/
def preadCount (f : HostFile) (size off : Nat) : Nat := min size (f.length - off)

/-- A little-endian field of a header read at `off`. -/
def fileField (f : HostFile) (n off : Nat) : Nat :=
  load (fun a => f.getD a 0) n off

/-- `spike_file_pread` into memory at `dest`. -/
def preadInto (f : HostFile) (dest size off : Nat) : K Nat := do
  onMem fun m x =>
    if dest ≤ x ∧ x < dest + preadCount f size off then
      f.getD (off + (x - dest)) 0
    else m x
  return preadCount f size off

/-- `enum elf_status_t`. -/
inductive ElfStatus where
  | ok | eio | enomem | notelf | err
deriving DecidableEq, Repr

/-- The header fields the loader uses. -/
structure ElfHeader where
  entry : Nat
  phoff : Nat
  phnum : Nat

/-- `sizeof(elf_header)`. -/
abbrev ehdrSize : Nat := 64

/-- `sizeof(elf_prog_header)`. -/
abbrev phdrSize : Nat := 56

abbrev elfMagic : Nat := 0x464C457F

def elfProgLoad : Nat := 1

/-- `struct elf_prog_header_t`. -/
structure ElfProgHeader where
  type : Nat
  flags : Nat
  off : Nat
  vaddr : Nat
  filesz : Nat
  memsz : Nat
deriving DecidableEq, Repr

/-- An `int` passed where a `uint64` is expected. -/
def sext32 (x : Nat) : Nat :=
  if x % 2 ^ 32 < 2 ^ 31 then x % 2 ^ 32 else x % 2 ^ 32 + (2 ^ 64 - 2 ^ 32)

/-- Read and check the file header. -/
def elfInit (f : HostFile) : ElfStatus × ElfHeader :=
  let hdr : ElfHeader :=
    { entry := fileField f 8 24, phoff := fileField f 8 32
      phnum := fileField f 2 56 }
  if preadCount f ehdrSize 0 ≠ ehdrSize then (.eio, hdr)
  else if fileField f 4 0 ≠ elfMagic then (.notelf, hdr)
  else (.ok, hdr)

/-- The program header at file offset `off`. -/
def progHeader (f : HostFile) (off : Nat) : ElfProgHeader :=
  { type := fileField f 4 off
    flags := fileField f 4 (off + 4)
    off := fileField f 8 (off + 8)
    vaddr := fileField f 8 (off + 16)
    filesz := fileField f 8 (off + 32)
    memsz := fileField f 8 (off + 40) }

/-- Take a zeroed page and map it at the segment's address. -/
def elfAllocMb (i : Slot) (va size : Nat) : K Nat := do
  if size ≥ pgSize then
    panic "assertion failed @ %p: size < PGSIZE\n"
  else
    let pa ← allocPage
    if pa = 0 then
      panic "uvmalloc mem alloc falied\n"
    else
      memset pa 0 pgSize
      let p ← proc i
      userVmMap p.pagetable va pgSize pa
        (protToType (protWrite ||| protRead ||| protExec) true)
      return pa

/-- The first entry of the table whose `va` is 0, or one past the end. -/
def freeRegionIndex (m : Mem) (base : Nat) : Nat :=
  ((List.range maxRegions).find? fun j => (regionAt m base j).va = 0).getD
    maxRegions

abbrev segReadExec : Nat := 0x4 ||| 0x1
abbrev segReadWrite : Nat := 0x4 ||| 0x2

/-- The body of the loop of `elf_load` for a loadable segment. -/
def loadSegment (f : HostFile) (i : Slot) (ph : ElfProgHeader) : K ElfStatus := do
  if ph.memsz < ph.filesz then
    return .err
  else if u64 (ph.vaddr + ph.memsz) < ph.vaddr then
    return .err
  else
    let dest ← elfAllocMb i ph.vaddr ph.memsz
    let n ← preadInto f dest ph.memsz ph.off
    if n ≠ ph.memsz then
      return .eio
    else
      let p ← proc i
      let s ← get
      let j := freeRegionIndex s.mem p.mappedInfo
      sd (p.mappedInfo + 16 * j) ph.vaddr
      sw (p.mappedInfo + 16 * j + 8) 1
      if ph.flags = segReadExec then
        sw (p.mappedInfo + 16 * j + 12) SegType.code.word
      else if ph.flags = segReadWrite then
        sw (p.mappedInfo + 16 * j + 12) SegType.data.word
      else
        panic "unknown program segment encountered, segment flag:%d.\n"
      setProc i fun q => { q with totalMappedRegion := q.totalMappedRegion + 1 }
      return .ok

/-- The loop of `elf_load`: `n` headers left, the next at `off`, an
`int`. -/
def loadLoop (f : HostFile) (i : Slot) : Nat → Nat → K ElfStatus
  | 0, _ => return .ok
  | n + 1, off => do
      if preadCount f phdrSize (sext32 off) ≠ phdrSize then
        return .eio
      else
        let ph := progHeader f (sext32 off)
        if ph.type ≠ elfProgLoad then
          loadLoop f i n (off + phdrSize)
        else
          match ← loadSegment f i ph with
          | .ok => loadLoop f i n (off + phdrSize)
          | st => return st

/-- Load the segments of the image into the process. -/
def elfLoad (f : HostFile) (hdr : ElfHeader) (i : Slot) : K ElfStatus :=
  loadLoop f i hdr.phnum hdr.phoff

/-- `spike_file_open` of an image that the host has: one more entry of
`spike_files[]` is in use. It stays so: the entry starts with three
references, and `spike_file_close` gives one back (File.lean). -/
def openImage : K Unit := do
  let s ← get
  if h : s.hostFiles < maxFiles then
    modify fun s' => { s' with hostFiles := ⟨s.hostFiles + 1, Nat.succ_lt_succ h⟩ }
  else
    panic "Fail on openning the input application program.\n"

/-- Load an image that is open and set the entry point. -/
def loadImage (f : HostFile) (i : Slot) : K Unit := do
  let (st, hdr) := elfInit f
  if st ≠ .ok then
    panic "fail to init elfloader.\n"
  else
    let st ← elfLoad f hdr i
    if st ≠ .ok then
      panic "Fail on loading elf.\n"
    else
      let p ← proc i
      sd (p.trapframe + tfEpc) hdr.entry

/-- The common part of `load_bincode_from_host_elf` and
`load_shell_bincode_from_host_elf`. -/
def loadBincode (f : HostFile) (i : Slot) : K Unit := do
  openImage
  loadImage f i

end Pke
