/-
The file table of a process as it lies in memory (kernel/file.h,
kernel/file.c): `files_create`, which lays it out in the page it has
taken, and what `do_open` writes into it.

`struct file` is 32 bytes and `struct files_struct` is a pointer, 128 of
them, and a counter, laid out as an LP64 compiler lays them out. The state
is memory; every store is an event, so that a statement can speak of where
the stores went. What other parts of the kernel contribute is a parameter:
the page, the table of host files, the result of `vfs_open` and the answer
of `vop_fstat`, of which there is none for a pointer that leads nowhere.
Messages are left out.
-/
import Pke.Lib.ByteMem
import Pke.Model.File

namespace Pke.FileTable

open ByteMem
open Traced (get modify emit halt)

-- ==== layout

/-- `sizeof(struct file)`. -/
abbrev fileSize : Nat := 32

abbrev statusOff : Nat := 0
abbrev readableOff : Nat := 4
abbrev writableOff : Nat := 8
abbrev fdOff : Nat := 12
abbrev offOff : Nat := 16
abbrev refOff : Nat := 20
abbrev nodeOff : Nat := 24

abbrev cwdOff : Nat := 0
abbrev ofileOff : Nat := 8
abbrev nfileOff : Nat := ofileOff + maxFiles * fileSize

/-- The values of `status`. -/
abbrev fdHost : Nat := 0
abbrev fdNone : Nat := 1
abbrev fdOpened : Nat := 2

/-- The address of `pfiles->ofile[fd]`. -/
def ofile (pfiles : Nat) (fd : Int) : Nat :=
  ((pfiles : Int) + ofileOff + fd * fileSize).toNat

-- ==== stores

/-- A store: where, and how many bytes. -/
structure Write where
  addr : Nat
  width : Nat
deriving DecidableEq, Repr

/-- Programs on the file table. -/
abbrev T := Traced.Prog Mem Write FileHalt

/-- Store the low `n` bytes of `v`. -/
def put (n a v : Nat) : T Unit := do
  emit ⟨a, n⟩
  modify fun m => store m n a v

/-- An `int` as the word that is stored. -/
def intWord (n : Int) : Nat := (n % 2 ^ 32).toNat

/-- `++ pfiles->nfile`. -/
def incNfile (pfiles : Nat) : T Unit := do
  let m ← get
  put 4 (pfiles + nfileOff) (load m 4 (pfiles + nfileOff) + 1)

-- ==== files_create

/-- Enter a host file that is open. -/
def saveHostFile (spikeFiles : Fin maxFiles → SpikeFile) (pfiles : Nat)
    (i : Fin maxFiles) : T Unit :=
  if (spikeFiles i).kfd = -1 then
    return ()
  else do
    put 4 (ofile pfiles i + statusOff) fdHost
    put 4 (ofile pfiles i + fdOff) (intWord (spikeFiles i).kfd)
    put 4 (ofile pfiles i + refOff) (spikeFiles i).refcnt.toNat
    incNfile pfiles

/-- Mark an entry free, unless it says it is a host file. -/
def initEntry (pfiles : Nat) (i : Fin maxFiles) : T Unit := do
  let m ← get
  if load m 4 (ofile pfiles i + statusOff) ≠ fdHost then do
    put 4 (ofile pfiles i + statusOff) fdNone
    put 4 (ofile pfiles i + refOff) 0
  else
    return ()

/-- `files_create`, given the page. -/
def filesCreate (spikeFiles : Fin maxFiles → SpikeFile) (pfiles : Nat) :
    T Unit := do
  put 8 (pfiles + cwdOff) 0
  put 4 (pfiles + nfileOff) 0
  (List.finRange maxFiles).forM (saveHostFile spikeFiles pfiles)
  (List.finRange maxFiles).forM (initEntry pfiles)

-- ==== do_open

/-- The first entry that is free. -/
def freeEntry (m : Mem) (pfiles : Nat) : Option (Fin maxFiles) :=
  (List.finRange maxFiles).find? fun i =>
    load m 4 (ofile pfiles i + statusOff) = fdNone

/-- The stores of `do_open`, from the result `ret` of `vfs_open` on.
`node` is what the local variable of that name holds, and `fstat` the result
and the size `vop_fstat` gives for it. -/
def doOpen (pfiles flags : Nat) (ret : Int) (node : Nat)
    (fstat : Mem → Nat → Option (Int × Int)) : T Int := do
  let mode := flags &&& maskFilemode
  if mode > oRdwr then
    halt (.panic "do_ram_open: invalid open flags!\n")
  else if ret ≠ 0 then do
    put 4 (ofile pfiles ret + statusOff) fdHost
    put 4 (ofile pfiles ret + fdOff) (intWord ret)
    incNfile pfiles
    return ret
  else do
    let m ← get
    match freeEntry m pfiles with
    | none =>
        halt (.panic "do_ram_open: no file entry for current process!\n")
    | some fd => do
        let pfile := ofile pfiles fd
        put 4 (pfile + statusOff) fdOpened
        put 4 (pfile + readableOff) (if mode = oRdonly ∨ mode = oRdwr then 1 else 0)
        put 4 (pfile + writableOff) (if mode = oWronly ∨ mode = oRdwr then 1 else 0)
        put 4 (pfile + fdOff) fd.val
        put 4 (pfile + refOff) 1
        put 8 (pfile + nodeOff) node
        put 4 (pfile + offOff) 0
        let m' ← get
        match fstat m' node with
        | none => halt .wildPointer
        | some (ret, size) =>
            if ret ≠ 0 then
              halt (.panic "do_ram_open: failed to get file status!\n")
            else do
              put 4 (pfile + offOff) (intWord size)
              incNfile pfiles
              return fd.val

end Pke.FileTable
