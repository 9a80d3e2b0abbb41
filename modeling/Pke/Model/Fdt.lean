/-
Reading the flattened device tree (spike_interface/dts_parse.c, the
callbacks of spike_interface/spike_memory.c and the `query_htif` half of
spike_interface/spike_htif.c).

The tree lies in memory as a sequence of big-endian words: a node begins,
has its properties, then its children, and ends; NOP words may stand
anywhere. `fdt_scan_helper` reads the body of one node and calls itself
for every child. What it knows of the node, the cell counts and the name,
is a local of the call that reads the parent: the `child` of that call is
one variable for all the children.

A pointer to a node is the path from the node up to the root, NULL the
empty path. The callbacks get this path and read memory, but only the
helper writes it: it turns a node whose `close` says -1 into NOPs.
`extra`, the state of the callbacks, is a type of its own.
-/
import Pke.Model.Util
import Pke.Model.UserIo
import Pke.Model.Vfs

namespace Pke.Fdt

open ByteMem
open Traced (Prog get modify halt)
open Util (strlen)

-- ==== words

def bswap (x : BitVec 32) : BitVec 32 :=
  let y := (x &&& 0x00FF00FF) <<< 8 ||| (x &&& 0xFF00FF00) >>> 8
  (y &&& 0x0000FFFF) <<< 16 ||| (y &&& 0xFFFF0000) >>> 16

/-- `bswap(*p)`. -/
def cell (m : Mem) (a : Nat) : Nat := (bswap (BitVec.ofNat 32 (load m 4 a))).toNat

/-- `FDT_MAGIC`. -/
abbrev fdtMagic : Nat := 0xd00dfeed

/-- `FDT_VERSION`. -/
abbrev fdtVersion : Nat := 17

/-- `FDT_BEGIN_NODE`. -/
abbrev fdtBeginNode : Nat := 1

/-- `FDT_END_NODE`. -/
abbrev fdtEndNode : Nat := 2

/-- `FDT_PROP`. -/
abbrev fdtProp : Nat := 3

/-- `FDT_NOP`. -/
abbrev fdtNop : Nat := 4

-- ==== the types

/-- `struct fdt_scan_node`, but for `parent`. -/
structure ScanNode where
  name : Nat
  addressCells : Int
  sizeCells : Int
deriving DecidableEq

/-- `struct fdt_scan_prop`; `node` is the path of the node. -/
structure ScanProp where
  node : List ScanNode
  name : Nat
  value : Nat
  len : Int

/-- What a scan works on: memory, and the state of the callbacks. -/
structure Scan (σ : Type) where
  mem : Mem
  extra : σ

variable {σ ε : Type}

/-- Programs that scan. -/
abbrev D (σ ε : Type) := Prog (Scan σ) ε Halt

/-- `struct fdt_cb`. Every callback but `prop` may be NULL. -/
structure FdtCb (σ ε : Type) where
  opened : Option (List ScanNode → Mem → Prog σ ε Halt Unit)
  prop : ScanProp → Mem → Prog σ ε Halt Unit
  done : Option (List ScanNode → Mem → Prog σ ε Halt Unit)
  closed : Option (List ScanNode → Mem → Prog σ ε Halt Int)

/-- A callback runs on `extra`. -/
def callback {α : Type} (f : Mem → Prog σ ε Halt α) : D σ ε α := fun s =>
  match f s.mem s.extra with
  | (es, .ok a x) => (es, .ok a { s with extra := x })
  | (es, .halt e x) => (es, .halt e { s with extra := x })

/-- `if (cb->f) cb->f(node, cb->extra)`. -/
def optional (f : Option (List ScanNode → Mem → Prog σ ε Halt Unit))
    (path : List ScanNode) : D σ ε Unit :=
  match f with
  | some f => callback (f path)
  | none => return ()

/-- `!strcmp(a, lit)`. Against a constant, `strcmp` ends with it. -/
def isString (m : Mem) (a : Nat) (lit : List UInt8) : Bool :=
  strcmp (lit.length + 1) (bytesAt m a) (lit.getD · 0) = some 0

-- ==== the scan

/-- `"#address-cells"`. -/
def addressCellsName : List UInt8 :=
  [35, 97, 100, 100, 114, 101, 115, 115, 45, 99, 101, 108, 108, 115]

/-- `"#size-cells"`. -/
def sizeCellsName : List UInt8 :=
  [35, 115, 105, 122, 101, 45, 99, 101, 108, 108, 115]

/-- The property at `lex`. -/
def propAt (m : Mem) (strings lex : Nat) (node : List ScanNode) : ScanProp :=
  { node := node
    name := strings + cell m (lex + 8)
    value := lex + 12
    len := int32 (cell m (lex + 4)) }

/-- `lex + 3 + (prop.len + 3) / 4`: where the property at `lex` ends. -/
def propEnd (m : Mem) (lex : Nat) : Nat :=
  (lex + 4 * (3 + (int32 (cell m (lex + 4)) + 3).tdiv 4)).toNat

/-- The two properties that the helper itself reads. -/
def setCells (m : Mem) (strings lex : Nat) : List ScanNode → List ScanNode
  | [] => []
  | node :: up =>
      let name := strings + cell m (lex + 8)
      let node :=
        if isString m name addressCellsName then
          { node with addressCells := int32 (cell m (lex + 12)) }
        else node
      let node :=
        if isString m name sizeCellsName then
          { node with sizeCells := int32 (cell m (lex + 12)) }
        else node
      node :: up

/-- `if (!last && node && cb->done) cb->done(node, cb->extra)`. -/
def finish (cb : FdtCb σ ε) (last : Bool) (path : List ScanNode) : D σ ε Unit :=
  if last = false ∧ path ≠ [] then optional cb.done path else return ()

/-- `cb->close && cb->close(&child, cb->extra) == -1`. -/
def deletes (cb : FdtCb σ ε) (path : List ScanNode) : D σ ε Bool :=
  match cb.closed with
  | some f => do
      let r ← callback (f path)
      return r = -1
  | none => return false

/-- `while (lex != lex_next) *lex++ = bswap(FDT_NOP)`. -/
def nopOut : Nat → Nat → Nat → D σ ε Unit
  | 0, _, _ => halt .diverge
  | fuel + 1, lex, lexNext =>
      if lex ≠ lexNext then do
        modify fun s => { s with
          mem := store s.mem 4 lex (bswap (BitVec.ofNat 32 fdtNop)).toNat }
        nopOut fuel (lex + 4) lexNext
      else
        return ()

/-- The cell counts every call starts with. -/
def freshChild : ScanNode := { name := 0, addressCells := 2, sizeCells := 1 }

/-- The loop of `fdt_scan_helper`, at `lex` and for the node of `path`.
Returns where it stopped, and the path with what it has written to the
node. -/
def fdtScanHelper (cb : FdtCb σ ε) (strings : Nat) :
    Nat → Nat → List ScanNode → ScanNode → Bool → D σ ε (Nat × List ScanNode)
  | 0, _, _, _, _ => halt .diverge
  | fuel + 1, lex, path, child, last => do
      let s ← get
      let token := cell s.mem lex
      if token = fdtNop then
        fdtScanHelper cb strings fuel (lex + 4) path child last
      else if token = fdtProp then
        if last then
          halt (.assertFailed "!last")
        else do
          let path := setCells s.mem strings lex path
          callback (cb.prop (propAt s.mem strings lex path))
          fdtScanHelper cb strings fuel (propEnd s.mem lex) path child last
      else if token = fdtBeginNode then do
        finish cb last path
        let child := { child with name := lex + 4 }
        optional cb.opened (child :: path)
        match strlen s.mem fuel child.name with
        | none => halt .diverge
        | some n => do
            let (lexNext, inner) ← fdtScanHelper cb strings fuel
              (lex + 8 + 4 * (n / 4)) (child :: path) freshChild false
            if ← deletes cb inner then
              nopOut fuel lex lexNext
            fdtScanHelper cb strings fuel lexNext path (inner.headD child) true
      else if token = fdtEndNode then do
        finish cb last path
        return (lex + 4, path)
      else do
        finish cb last path
        return (lex, path)

/-- `fdt_scan`. -/
def fdtScan (cb : FdtCb σ ε) (fuel fdt : Nat) : D σ ε Unit := do
  let s ← get
  if cell s.mem fdt ≠ fdtMagic ∨ cell s.mem (fdt + 24) > fdtVersion then
    return ()
  else do
    let _ ← fdtScanHelper cb (fdt + cell s.mem (fdt + 12)) fuel
      (fdt + cell s.mem (fdt + 8)) [] freshChild false
    return ()

-- ==== the cells

/-- `cells` words as one number, from `result` on; returns the pointer
behind them and the number. -/
def getCells (m : Mem) : Nat → Nat → Nat → Nat × Nat
  | 0, value, result => (value, result)
  | cells + 1, value, result =>
      getCells m cells (value + 4) (u64 (u64 (result <<< 32) + cell m value))

def fdtGetAddress (m : Mem) (node : ScanNode) (value : Nat) : Nat × Nat :=
  getCells m node.addressCells.toNat value 0

def fdtGetSize (m : Mem) (node : ScanNode) (value : Nat) : Nat × Nat :=
  getCells m node.sizeCells.toNat value 0

-- ==== query_mem

/-- `struct mem_scan`, and `g_mem_size`. -/
structure MemScan where
  memory : Bool
  regValue : Nat
  regLen : Int
  gMemSize : Nat

/-- `"device_type"`. -/
def deviceTypeName : List UInt8 :=
  [100, 101, 118, 105, 99, 101, 95, 116, 121, 112, 101]

/-- `"memory"`. -/
def memoryName : List UInt8 := [109, 101, 109, 111, 114, 121]

/-- `"reg"`. -/
def regName : List UInt8 := [114, 101, 103]

def memOpen (_ : List ScanNode) (_ : Mem) : Prog MemScan Empty Halt Unit :=
  modify fun s => { s with memory := false, regValue := 0, regLen := 0 }

def memProp (prop : ScanProp) (m : Mem) : Prog MemScan Empty Halt Unit :=
  if isString m prop.name deviceTypeName ∧ isString m prop.value memoryName then
    modify fun s => { s with memory := true }
  else if isString m prop.name regName then
    modify fun s => { s with regValue := prop.value, regLen := prop.len }
  else
    return ()

/-- The loop of `mem_done`, with `value` and `end`; returns `value`. -/
def memRanges (m : Mem) (self : Nat) (parent : ScanNode) (stop : Int) :
    Nat → Nat → Prog MemScan Empty Halt Nat
  | 0, _ => halt .diverge
  | fuel + 1, value =>
      if stop - value > 0 then do
        let (value, base) := fdtGetAddress m parent value
        let (value, size) := fdtGetSize m parent value
        modify fun s =>
          if base ≤ self ∧ self ≤ u64 (base + size) then
            { s with gMemSize := size }
          else s
        memRanges m self parent stop fuel value
      else
        return value

/-- `mem_done`; `self` is its own address. -/
def memDone (fuel self : Nat) (path : List ScanNode) (m : Mem) :
    Prog MemScan Empty Halt Unit := do
  let s ← get
  let stop : Int := s.regValue + 4 * s.regLen.tdiv 4
  if s.memory = false then
    return ()
  else if s.regValue = 0 ∨ s.regLen.tmod 4 ≠ 0 then
    halt (.assertFailed "scan->reg_value && scan->reg_len % 4 == 0")
  else
    match path with
    | _ :: parent :: _ => do
        let value ← memRanges m self parent stop fuel s.regValue
        if stop ≠ value then
          halt (.assertFailed "end == value")
        else
          return ()
    -- The root has no parent to read the counts of.
    | _ => if stop - s.regValue > 0 then halt .nullDeref else
        if stop ≠ s.regValue then halt (.assertFailed "end == value")
        else return ()

def memCb (fuel self : Nat) : FdtCb MemScan Empty :=
  { opened := some memOpen
    prop := memProp
    done := some (memDone fuel self)
    closed := none }

def queryMem (fuel self fdt : Nat) : D MemScan Empty Unit := do
  modify fun s => { s with extra := { s.extra with gMemSize := 0 } }
  fdtScan (memCb fuel self) fuel fdt
  let s ← get
  if s.extra.gMemSize > 0 then
    return ()
  else
    halt (.assertFailed "g_mem_size > 0")

-- ==== query_htif

/-- `struct htif_scan`, and `htif`. -/
structure HtifScan where
  compat : Bool
  htif : Nat

/-- `"compatible"`. -/
def compatibleName : List UInt8 :=
  [99, 111, 109, 112, 97, 116, 105, 98, 108, 101]

/-- `"ucb,htif0"`. -/
def htifName : List UInt8 := [117, 99, 98, 44, 104, 116, 105, 102, 48]

def htifOpen (_ : List ScanNode) (_ : Mem) : Prog HtifScan Empty Halt Unit :=
  modify fun s => { s with compat := false }

def htifProp (prop : ScanProp) (m : Mem) : Prog HtifScan Empty Halt Unit :=
  if isString m prop.name compatibleName ∧ isString m prop.value htifName then
    modify fun s => { s with compat := true }
  else
    return ()

def htifDone (_ : List ScanNode) (_ : Mem) : Prog HtifScan Empty Halt Unit := do
  let s ← get
  if s.compat = false then
    return ()
  else
    modify fun s => { s with htif := 1 }

def htifCb : FdtCb HtifScan Empty :=
  { opened := some htifOpen
    prop := htifProp
    done := some htifDone
    closed := none }

def queryHtif (fuel fdt : Nat) : D HtifScan Empty Unit :=
  fdtScan htifCb fuel fdt

end Pke.Fdt
