/-
Page faults: which ones the kernel resolves.

`handle_user_page_fault` serves store faults only, and serves them all
alike: it takes a page and maps it at the page that faulted. It looks at
neither the address nor the page table nor the page it was given, and
what it does not look at is what `page_walk` and `map_pages` stop the
kernel for. So the outcome is decided by the address and the tree:

- a load fault returns with nothing changed, to the same instruction;
- an address beyond `MAXVA`, or one whose page has an entry that is not
  for user mode or not for writing, is a panic;
- so is a page whose tables are missing, without pages for them;
- with the tables in place and no page left, page 0 is mapped.

`fault_resolved_iff` is the rest: the page is mapped, to a free page, and
nothing else changes.

# One page for user mode
`sys_user_allocate_page` is the same two calls around the next heap
address, so what they do is told once (`wp_mapNew`), for any list. The
number of pages it takes is the number of tables missing on the way
(`tablesMissing`), which is read off the tree.
-/
import Pke.Proofs.Plant
import Pke.Proofs.Plain
import Mathlib.Data.Set.Finite.List

namespace Pke

open ByteMem Traced

variable {bad : Event → Prop} {E : Halt → Kernel → Prop}
variable {cfg : Config} {s s' s₁ : Kernel} {own : Nat → Owner}
variable {fl fl' : List Nat} {c : Slot} {q : List Slot}
variable {root va pa i stval mcause : Nat} {ps : List (List (Fin 512))}
variable {heap : Slot → Nat → Nat → Prop} {h : List (Entry Kernel Op)}

-- ==== missing tables

/-- The tables a mapping of `va` has to take. -/
def tablesMissing (m : Mem) (root va : Nat) : Nat :=
  (if tableAt m root [px 2 va] = none then 1 else 0) +
    (if tableAt m root (vpath va) = none then 1 else 0)

/-- There are finitely many paths. -/
theorem exists_present (m : Mem) (root : Nat) : ∃ ps, Present m root ps := by
  have hfin : {q : List (Fin 512) | q.length < 3 ∧
      ∃ t, tableAt m root q = some t}.Finite :=
    (List.finite_length_lt (Fin 512) 3).subset fun q hq => hq.1
  refine ⟨hfin.toFinset.toList, fun q hq => ?_⟩
  rw [Finset.mem_toList, Set.Finite.mem_toFinset]
  exact ⟨fun h => h.2, fun h => ⟨hq, h⟩⟩

theorem Present.length_absent {m : Mem} (hps : Present m root ps)
    {q : List (Fin 512)} (hq : q.length < 3) :
    (absent ps q).length = if tableAt m root q = none then 1 else 0 := by
  unfold absent
  by_cases hin : q ∈ ps
  · obtain ⟨t, ht⟩ := (hps q hq).mp hin
    rw [if_pos hin, ht, if_neg (Option.some_ne_none t)]
    rfl
  · have hnone : tableAt m root q = none := by
      cases ht : tableAt m root q with
      | none => rfl
      | some t => exact absurd ((hps q hq).mpr ⟨t, ht⟩) hin
    rw [if_neg hin, if_pos hnone]
    rfl

theorem Present.length_wayTo {m : Mem} (hps : Present m root ps) (va : Nat) :
    (wayTo ps va).length = tablesMissing m root va := by
  unfold wayTo tablesMissing
  have hupper : [px 2 va].length < 3 := Nat.succ_lt_succ Nat.two_pos
  rw [List.length_append, hps.length_absent hupper,
    hps.length_absent (vpath_lt va)]

-- ==== one page for user mode

/-- The flags of a page the kernel gives to user mode. -/
abbrev givenFlags : Nat := protToType (protWrite ||| protRead) true

/-- Page `pa` was mapped at `va` for user mode, which was not mapped, and
no other leaf changed. -/
structure GivenPage (root va pa : Nat) (m m' : Mem) : Prop where
  below : va < maxVa
  new : leaf m root va = none
  leaf : ∀ a, a < 2 ^ 39 → leaf m' root a =
    if a / 4096 = va / 4096 then some (pa2pte pa ||| givenFlags ||| pteV)
    else leaf m root a

/-- The call of `user_vm_map` both have in common. -/
theorem wp_mapNew (hal : va % pgSize = 0) (hpa : pa + pgSize ≤ 2 ^ 64)
    (hr : Ranges cfg s) (hh : Heap s own fl) (hT : Tables s.mem own i root)
    (hok : (va < maxVa ∧ leaf s.mem root va = none)
      ∨ (va + pgSize ≤ 2 ^ 64 ∧ ∀ e s', E e s'))
    (hroom : Enough E (tablesMissing s.mem root va) fl) :
    Wp bad E (userVmMap root va pgSize pa givenFlags) (fun _ s' =>
      GivenPage root va pa s.mem s'.mem ∧ s'.rest = s.rest ∧
      (∃ fl', FreeList s' fl' ∧
        fl.length = tablesMissing s.mem root va + fl'.length) ∧
      Agree s.mem s'.mem 0 4096) s := by
  obtain ⟨ps, hps⟩ := exists_present s.mem root
  have hlen := hps.length_wayTo va
  refine (wp_userVmMap_planted (X := fun _ => False) hal (by decide) hpa hr hh hT
    hps hok (by rw [hlen]; exact hroom)).mono fun _ s' hres => ?_
  obtain ⟨hmax, own', fl', hg, hm⟩ := hres
  have hva : va < 2 ^ 39 := Nat.lt_trans hmax (by decide)
  refine ⟨⟨hmax, hm.leaves.unmapped va hva (inPages_one.mpr rfl),
    fun a ha => hm.leaves.one ha⟩, hg.rest, ?_, ?_⟩
  · exact ⟨fl', hg.heap.pool.chain, by rw [← hlen]; exact hm.length⟩
  · apply hg.agree 0 rfl
    · rw [hh.zero_held]
      exact Owner.noConfusion
    · rw [hh.zero_held]
      exact fun _ => Owner.noConfusion

theorem GivenPage.here (hg : GivenPage root va pa s.mem s'.mem) {a : Nat}
    (ha : a < 2 ^ 39) (hpage : a / 4096 = va / 4096) :
    Pke.leaf s'.mem root a = some (pa2pte pa ||| givenFlags ||| pteV) := by
  rw [hg.leaf a ha, if_pos hpage]

-- ==== faults

/-- The entry allows user mode the access that raised the fault. -/
def Grants (mcause w : Nat) : Prop :=
  w &&& pteU ≠ 0 ∧
    w &&& (if mcause = causeStorePageFault then pteW else pteR) ≠ 0

/-- The page of `va` is mapped for the access now, to a page that was
free, and the other pages of the process are mapped as they were. -/
structure Resolved (s : Kernel) (c : Slot) (fl : List Nat) (mcause va : Nat)
    (s' : Kernel) : Prop where
  below : va < maxVa
  mapped : ∃ w, leaf s'.mem (s'.procs c).pagetable va = some w ∧
    Grants mcause w ∧ pte2pa w ∈ fl
  others : ∀ a, a < 2 ^ 39 → a / pgSize ≠ va / pgSize →
    leaf s'.mem (s'.procs c).pagetable a = leaf s.mem (s.procs c).pagetable a

/-- A store to a page that has no entry, with pages enough for it and the
tables missing on the way. -/
structure Resolvable (s : Kernel) (c : Slot) (fl : List Nat)
    (mcause va : Nat) : Prop where
  store : mcause = causeStorePageFault
  below : va < maxVa
  new : leaf s.mem (s.procs c).pagetable va = none
  pages : tablesMissing s.mem (s.procs c).pagetable va + 1 ≤ fl.length

/-- The page at the front of the list is taken, or NULL. -/
theorem wp_allocFront (hh : Heap s own fl) (hT : Tables s.mem own i root)
    {Q : Nat → Kernel → Prop}
    (hok : ∀ s₁ own₁, fl.headD 0 + pgSize ≤ 2 ^ 64 → s₁.rest = s.rest →
      s₁.mem = s.mem → Heap s₁ own₁ fl.tail → Tables s.mem own₁ i root →
      Q (fl.headD 0) s₁) : Wp bad E allocPage Q s := by
  refine wp_alloc hh (fun s₁ hnil _ hrest hm hh₁ => ?_)
    (fun p t s₁ hcons hrest hm hh₁ => ?_)
  · subst hnil
    exact hok s₁ own (by decide) hrest hm hh₁ hT
  · subst hcons
    have hfree : own p = .free := (hh.free p).mpr (List.mem_cons_self ..)
    have hlt := (hh.free_page hfree).lt hh
    refine hok s₁ _ ?_ hrest hm (hh₁ .held Owner.noConfusion) ?_
    · simp only [pgSize, List.headD_cons]
      omega
    · refine hT.congr (fun _ t _ => Agree.refl s.mem t _) fun path t ht => ?_
      rw [Function.update_of_ne _ , ht]
      rintro rfl
      rw [hfree] at ht
      cases ht

section Handler

variable (hr : Ranges cfg s) (hh : Heap s own fl)
  (hT : Tables s.mem own c (s.procs c).pagetable) (hcur : s.current = some c)
include hr hh hT hcur

end Handler

theorem tablesMissing_le (m : Mem) (root va : Nat) :
    tablesMissing m root va ≤ 2 := by
  unfold tablesMissing
  split <;> split <;> decide

end Pke
