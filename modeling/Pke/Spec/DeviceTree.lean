/-
A device tree as it lies in memory, and what it means to visit it.

`Lays P m t n` says that memory holds the node `t`: the tree of the
addresses where nodes and properties begin, with NOPs between them. `P` is
what is asked of the lengths of properties, `n` counts words that a
reader has to look at. A length is an `int` and nothing keeps it from
being negative, so a layout need not go upwards; with `P` the lengths
that are not negative it does.

`visitNode` calls the callbacks of a scan in the order of the tree: open,
the properties, done, the children, close. It has no fuel, reads no token
and follows no pointer. It returns the node with what was read into it,
and the tree that is left when the nodes to be deleted are gone.
-/
import Pke.Model.Fdt
import Pke.Lib.CString
import Pke.Lib.LastThat

namespace Pke.Fdt

open ByteMem
open LastThat (lastThat)
open Traced (Prog get modify halt)

/-- A node where it lies: where it begins, where the scan goes on after
it, its properties and its children. -/
inductive NodeAt where
  | mk (start stop : Nat) (props : List Nat) (kids : List NodeAt)

def NodeAt.start : NodeAt → Nat
  | .mk start _ _ _ => start

def NodeAt.stop : NodeAt → Nat
  | .mk _ stop _ _ => stop

-- ==== layout

/-- `k` NOPs from `x` on. -/
def Nops (m : Mem) (x k : Nat) : Prop := ∀ i < k, cell m (x + 4 * i) = fdtNop

/-- A word that is none of the four tokens of a body. -/
def IsEnd (token : Nat) : Prop :=
  token ≠ fdtNop ∧ token ≠ fdtProp ∧ token ≠ fdtBeginNode ∧ token ≠ fdtEndNode

/-- A body ends: with the end of its node, or where the tree ends. -/
def Closes (m : Mem) (x stop n : Nat) : Prop :=
  ∃ k, Nops m x k ∧ n = k + 1 ∧
    (cell m (x + 4 * k) = fdtEndNode ∧ stop = x + 4 * k + 4 ∨
      IsEnd (cell m (x + 4 * k)) ∧ stop = x + 4 * k)

/-- The properties at `props`, from `x` to `y`. -/
def LaysProps (P : Int → Prop) (m : Mem) : Nat → List Nat → Nat → Nat → Prop
  | x, [], y, n => x = y ∧ n = 0
  | x, a :: rest, y, n =>
      ∃ k n', Nops m x k ∧ a = x + 4 * k ∧ cell m a = fdtProp ∧
        P (int32 (cell m (a + 4))) ∧
        LaysProps P m (propEnd m a) rest y n' ∧ n = k + 1 + n'

mutual

/-- The node begins, has a name, and its body ends where it stops. -/
def Lays (P : Int → Prop) (m : Mem) : NodeAt → Nat → Prop
  | .mk start stop props kids, n =>
      cell m start = fdtBeginNode ∧ ∃ name y z n₁ n₂ n₃,
        StringAt m (start + 4) name ∧
        LaysProps P m (start + 8 + 4 * (name.length / 4)) props y n₁ ∧
        LaysKids P m y kids z n₂ ∧ Closes m z stop n₃ ∧
        n = name.length + n₁ + n₂ + n₃ + (stop - start) + 2

/-- The children, from `x` to `y`. -/
def LaysKids (P : Int → Prop) (m : Mem) : Nat → List NodeAt → Nat → Nat → Prop
  | x, [], y, n => x = y ∧ n = 0
  | x, t :: rest, y, n =>
      ∃ k n₁ n₂, Nops m x k ∧ t.start = x + 4 * k ∧ Lays P m t n₁ ∧
        LaysKids P m t.stop rest y n₂ ∧ n = k + n₁ + n₂

end

/-- A body: properties, then children, then its end. The whole tree is the
body of no node. -/
def LaysBody (P : Int → Prop) (m : Mem) (x : Nat) (props : List Nat)
    (kids : List NodeAt) (stop n : Nat) : Prop :=
  ∃ y z n₁ n₂ n₃, LaysProps P m x props y n₁ ∧ LaysKids P m y kids z n₂ ∧
    Closes m z stop n₃ ∧ n = n₁ + n₂ + n₃

-- ==== the visit

variable {σ ε : Type}

/-- NOPs from `lo` to `hi`. -/
def erase (m : Mem) (lo : Nat) : Nat → Mem
  | 0 => m
  | k + 1 => erase (store m 4 lo (bswap (BitVec.ofNat 32 fdtNop)).toNat) (lo + 4) k

/-- The properties one after the other; what they say about cells is
written to the node before the callback sees it. -/
def visitProps (cb : FdtCb σ ε) (strings : Nat) :
    List ScanNode → List Nat → D σ ε (List ScanNode)
  | path, [] => return path
  | path, a :: rest => do
      let s ← get
      let path := setCells s.mem strings a path
      callback (cb.prop (propAt s.mem strings a path))
      visitProps cb strings path rest

mutual

/-- A node: opened, its properties, done, its children, closed. -/
def visitNode (cb : FdtCb σ ε) (strings : Nat) (path : List ScanNode)
    (child : ScanNode) : NodeAt → D σ ε (ScanNode × List NodeAt)
  | .mk start stop props kids => do
      let child := { child with name := start + 4 }
      optional cb.opened (child :: path)
      let inner ← visitProps cb strings (child :: path) props
      finish cb false inner
      let kids ← visitKids cb strings inner freshChild kids
      if ← deletes cb inner then do
        modify fun s => { s with mem := erase s.mem start ((stop - start) / 4) }
        return (inner.headD child, [])
      else
        return (inner.headD child, [.mk start stop props kids])

/-- The children; each starts from the cell counts the one before it has
left. -/
def visitKids (cb : FdtCb σ ε) (strings : Nat) (path : List ScanNode)
    (child : ScanNode) : List NodeAt → D σ ε (List NodeAt)
  | [] => return []
  | t :: rest => do
      let (child, left) ← visitNode cb strings path child t
      let rest ← visitKids cb strings path child rest
      return left ++ rest

end

/-- A body: the properties, done, the children. -/
def visitBody (cb : FdtCb σ ε) (strings : Nat) (path : List ScanNode)
    (props : List Nat) (kids : List NodeAt) :
    D σ ε (List ScanNode × List NodeAt) := do
  let path ← visitProps cb strings path props
  finish cb false path
  let kids ← visitKids cb strings path freshChild kids
  return (path, kids)

-- ==== what a tree says

def NodeAt.props : NodeAt → List Nat
  | .mk _ _ props _ => props

/-- The property at `a` has this name. -/
def Named (m : Mem) (strings : Nat) (lit : List UInt8) (a : Nat) : Prop :=
  StringAt m (strings + cell m (a + 8)) lit

instance (m : Mem) (strings : Nat) (lit : List UInt8) (a : Nat) :
    Decidable (Named m strings lit a) := decidableStringAt m _ lit

/-- Some property has this name and its value is the string `value`. -/
def Says (m : Mem) (strings : Nat) (lit value : List UInt8) (props : List Nat) :
    Prop :=
  ∃ a ∈ props, Named m strings lit a ∧ StringAt m (a + 12) value

instance (m : Mem) (strings : Nat) (lit value : List UInt8) (props : List Nat) :
    Decidable (Says m strings lit value props) :=
  inferInstanceAs (Decidable (∃ a ∈ props, _ ∧ _))

/-- The number that the last property with this name declares, or the one
given. -/
def declared (m : Mem) (strings : Nat) (lit : List UInt8) (given : Int)
    (props : List Nat) : Int :=
  lastThat (fun a => decide (Named m strings lit a))
    (fun a => int32 (cell m (a + 12))) given props

/-- The value and the length of the last property with this name. -/
def valueOf (m : Mem) (strings : Nat) (lit : List UInt8) (given : Nat × Int)
    (props : List Nat) : Nat × Int :=
  lastThat (fun a => decide (Named m strings lit a))
    (fun a => (a + 12, int32 (cell m (a + 4)))) given props

/-- The cell counts that properties declare: for addresses and for sizes. -/
def counts (m : Mem) (strings : Nat) (props : List Nat) : Int × Int :=
  (declared m strings addressCellsName 2 props,
    declared m strings sizeCellsName 1 props)

mutual

/-- The properties of every node, parents before their children. -/
def NodeAt.nodes : NodeAt → List (List Nat)
  | .mk _ _ props kids => props :: nodesOf kids

def nodesOf : List NodeAt → List (List Nat)
  | [] => []
  | t :: rest => t.nodes ++ nodesOf rest

end

-- ==== memory banks

/-- `cells` words as one number, of which 64 bits are kept. -/
def number (m : Mem) (value : Nat) : Nat → Nat
  | 0 => 0
  | cells + 1 => (number m value cells * 2 ^ 32 + cell m (value + 4 * cells)) % 2 ^ 64

/-- `count` pairs of an address and a size. -/
def pairs (m : Mem) (ac sc value count : Nat) : List (Nat × Nat) :=
  (List.range count).map fun i =>
    (number m (value + 4 * (ac + sc) * i) ac,
      number m (value + 4 * (ac + sc) * i + 4 * ac) sc)

/-- The banks of a node whose parent has the counts `up`. -/
def ownBanks (m : Mem) (strings : Nat) (up : Option (Int × Int))
    (props : List Nat) : List (Nat × Nat) :=
  match up with
  | some (ac, sc) =>
      let (value, len) := valueOf m strings regName (0, 0) props
      if Says m strings deviceTypeName memoryName props then
        pairs m ac.toNat sc.toNat value (len.toNat / (4 * (ac.toNat + sc.toNat)))
      else []
  | none => []

/-- A memory node is in order: it has a parent, and a `reg` whose length
is that of some number of pairs. -/
def OwnRegular (m : Mem) (strings fuel : Nat) (up : Option (Int × Int))
    (props : List Nat) : Prop :=
  Says m strings deviceTypeName memoryName props →
    ∃ ac sc value count, up = some (ac, sc) ∧ 0 < value ∧
      valueOf m strings regName (0, 0) props
        = (value, ((4 * (ac.toNat + sc.toNat) * count : Nat) : Int)) ∧
      0 < ac.toNat + sc.toNat ∧ count < fuel

mutual

/-- The banks of a node and below it. `seen` are the properties of the
siblings in front: what they declare is not forgotten. -/
def NodeAt.banks (m : Mem) (strings : Nat) (up : Option (Int × Int))
    (seen : List Nat) : NodeAt → List (Nat × Nat)
  | .mk _ _ props kids =>
      ownBanks m strings up props
        ++ banksOf m strings (some (counts m strings (seen ++ props))) [] kids

def banksOf (m : Mem) (strings : Nat) (up : Option (Int × Int))
    (seen : List Nat) : List NodeAt → List (Nat × Nat)
  | [] => []
  | t :: rest =>
      t.banks m strings up seen ++ banksOf m strings up (seen ++ t.props) rest

end

mutual

/-- Every memory node is in order. -/
def NodeAt.Regular (m : Mem) (strings fuel : Nat) (up : Option (Int × Int))
    (seen : List Nat) : NodeAt → Prop
  | .mk _ _ props kids =>
      OwnRegular m strings fuel up props ∧
        RegularAll m strings fuel (some (counts m strings (seen ++ props))) [] kids

def RegularAll (m : Mem) (strings fuel : Nat) (up : Option (Int × Int))
    (seen : List Nat) : List NodeAt → Prop
  | [] => True
  | t :: rest =>
      t.Regular m strings fuel up seen ∧
        RegularAll m strings fuel up (seen ++ t.props) rest

end

/-- The bank holds this address; its end counts, and goes around. -/
def Covers (self : Nat) (bank : Nat × Nat) : Prop :=
  bank.1 ≤ self ∧ self ≤ u64 (bank.1 + bank.2)

instance (self : Nat) (bank : Nat × Nat) : Decidable (Covers self bank) :=
  inferInstanceAs (Decidable (_ ∧ _))

/-- The size of the last bank that holds the address, if there is one. -/
def bankSize (self given : Nat) (banks : List (Nat × Nat)) : Nat :=
  lastThat (fun b => decide (Covers self b)) Prod.snd given banks

end Pke.Fdt
