import Pke.Lib.ByteMem
import Pke.Lib.Chain
import Pke.Lib.Radix
import Pke.Lib.RoundRobin
import Pke.Lib.Traced
import Pke.Model.Machine
import Pke.Model.Kernel
import Pke.Model.Pmm
import Pke.Model.Vmm
import Pke.Model.Config
import Pke.Model.Sched
import Pke.Model.Process
import Pke.Model.Elf
import Pke.Model.Syscall
import Pke.Model.Rfs
import Pke.Model.Boot
import Pke.Proofs.Control
import Pke.Proofs.Queue
import Pke.Proofs.Pmm
import Pke.Proofs.PageTable
import Pke.Proofs.Heap
import Pke.Proofs.Vmm
import Pke.Spec.PageMap
import Pke.Proofs.PageMap
import Pke.Proofs.Regions
import Pke.Proofs.Space
import Pke.Proofs.Build
import Pke.Proofs.Release
import Pke.Proofs.Load
import Pke.Proofs.Fork
import Pke.Proofs.Spawn
import Pke.Proofs.Steps
import Pke.Lib.Run
import Pke.Proofs.Boot
import Pke.Proofs.Runs
import Pke.Proofs.Plain
import Pke.Proofs.Lifecycle
import Pke.Proofs.TimeSlice
import Pke.Proofs.Ownership
import Pke.Proofs.HeapPages
import Pke.Proofs.Reclaim
import Pke.Proofs.Residue
import Pke.Proofs.Duplication
import Pke.Lib.BlockArray
import Pke.Proofs.Ramdisk
import Pke.Model.File
import Pke.Proofs.HostFiles
import Pke.Proofs.Descriptors
import Pke.Lib.Asm
import Pke.Model.Trap
import Pke.Proofs.Trap
import Pke.Proofs.Frames
import Pke.Model.UserIo
import Pke.Proofs.UserIo
import Pke.Proofs.Image
import Pke.Proofs.Bookkeeping
import Pke.Proofs.Fidelity
import Pke.Lib.CString
import Pke.Model.Exec
import Pke.Proofs.ExecArgs
import Pke.Proofs.ExecStack
import Pke.Proofs.Plant
import Pke.Proofs.Recycle
import Pke.Model.Vfs
import Pke.Proofs.Vfs
import Pke.Model.FileTable
import Pke.Proofs.FileTable
import Pke.Model.Console
import Pke.Proofs.Printf
import Pke.Model.RfsInode
import Pke.Proofs.Getline
import Pke.Proofs.RfsInode
import Pke.Proofs.Faults
import Pke.Proofs.Scarcity
import Pke.Model.Util
import Pke.Proofs.Util
import Pke.Proofs.BootMemory
import Pke.Lib.Words
import Pke.Model.Shell
import Pke.Model.Open
import Pke.Proofs.Shell
import Pke.Proofs.Open
import Pke.Proofs.OpenPath
import Pke.Proofs.Contexts
import Pke.Proofs.Preempt
import Pke.Lib.LastThat
import Pke.Lib.TracedEq
import Pke.Model.Fdt
import Pke.Proofs.Fdt
import Pke.Proofs.FdtQuery
import Pke.Proofs.Fairness
