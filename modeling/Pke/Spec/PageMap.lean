/-
What a page table is for: a partial map from virtual pages to frames,
next to the list of free pages it takes its tables from and gives
frames back to.

Calls bind or unbind a run of consecutive pages. A binding that runs
out of memory has bound some of the pages and has used up the list;
this is the only freedom a call has, besides how many pages it takes
for tables.
-/
import Pke.Model.Machine
import Mathlib.Data.List.Basic

namespace Pke

/-- Virtual page numbers to frames, and the free pages. -/
structure PageMap where
  map : Nat → Option Nat
  free : List Nat

/-- Bind `k` pages from page `v₀` on to consecutive frames from `pa`
on. -/
def bindPages (f : Nat → Option Nat) (v₀ k pa : Nat) : Nat → Option Nat :=
  fun v =>
    if v₀ ≤ v ∧ v < v₀ + k then some (pa + (v - v₀) * pgSize) else f v

/-- Unbind `n` pages from page `v₀` on. -/
def unbindPages (f : Nat → Option Nat) (v₀ n : Nat) : Nat → Option Nat :=
  fun v => if v₀ ≤ v ∧ v < v₀ + n then none else f v

/-- The address a virtual address translates to, 0 if its page is not
bound. -/
def PageMap.translate (A : PageMap) (va : Nat) : Nat :=
  match A.map (va / pgSize) with
  | none => 0
  | some f => f + va % pgSize

/-- The number of pages that meet `[va, va + size)`. -/
def pagesMeeting (va size : Nat) : Nat :=
  (va + size - 1) / pgSize - va / pgSize + 1

/-- The number of pages of `[va, va + size)` from an aligned `va` on, in
64-bit arithmetic: a range that wraps is empty. -/
def pagesFrom (va size : Nat) : Nat :=
  (u64 (va + size) - va + (pgSize - 1)) / pgSize

/-- A call on the page table, with what it returned. -/
inductive VmCall where
  | map (va size pa perm : Nat) (ret : Int)
  | unmap (va size : Nat) (free : Bool)

/-- What a call does to the map. -/
inductive MapStep : VmCall → PageMap → PageMap → Prop where
  | mapAll {A : PageMap} {va size pa perm : Nat} {taken free : List Nat} :
      A.free = taken ++ free →
      MapStep (.map va size pa perm 0) A
        ⟨bindPages A.map (va / pgSize) (pagesMeeting va size) pa, free⟩
  | mapSome {A : PageMap} {va size pa perm k : Nat} :
      k < pagesMeeting va size →
      MapStep (.map va size pa perm (-1)) A
        ⟨bindPages A.map (va / pgSize) k pa, []⟩
  | unmap {A : PageMap} {va size : Nat} {freed : List Nat} :
      freed.length = pagesFrom va size →
      (∀ k < pagesFrom va size, A.map (va / pgSize + k) = freed[k]?) →
      MapStep (.unmap va size false) A
        ⟨unbindPages A.map (va / pgSize) (pagesFrom va size), A.free⟩
  | unmapFree {A : PageMap} {va size : Nat} {freed : List Nat} :
      freed.length = pagesFrom va size →
      (∀ k < pagesFrom va size, A.map (va / pgSize + k) = freed[k]?) →
      freed.Nodup →
      MapStep (.unmap va size true) A
        ⟨unbindPages A.map (va / pgSize) (pagesFrom va size),
          freed.reverse ++ A.free⟩

/-- The maps a list of calls can lead to, from the empty map and the
free list `fl`. -/
inductive MapRun (fl : List Nat) : List VmCall → PageMap → Prop where
  | start : MapRun fl [] ⟨fun _ => none, fl⟩
  | snoc {calls : List VmCall} {call : VmCall} {A A' : PageMap} :
      MapRun fl calls A → MapStep call A A' → MapRun fl (calls ++ [call]) A'

end Pke
