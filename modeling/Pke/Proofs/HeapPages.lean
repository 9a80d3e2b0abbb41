/-
Heap pages: what `sys_user_allocate_page` hands out and
`sys_user_free_page` takes back.

`ledger` is the account a caller would keep: the pages each process was
given at each address and has not freed. Over runs in which everything
unrecorded is heap (`Op.Accounted`), the unrecorded pages of the memory
invariant are within it, and two results follow:

- `frees_own_heap`: a freed frame was the caller's heap page at that
  address, and nobody else uses it. The condition is on the argument:
  `user_vm_unmap` unmaps whatever is mapped there, so the address must
  not be a recorded one;
- `heap_address_safe`: allocation returns a new address that user code
  receives unchanged. The counter is global and never looks at the page
  table, so the condition is that the caller records no region there;
  this keeps it below the stack for ever.
-/
import Pke.Proofs.Ownership

namespace Pke

open ByteMem Traced

variable {cfg : Config} {s s' : Kernel} {own own' : Nat → Owner}
variable {fl : List Nat} {c i : Slot} {q : List Slot} {op : Op}
variable {heap heap' led : Slot → Nat → Nat → Prop}
variable {h : List (Entry Kernel Op)}

-- ==== the ledger

/-- The account after one more operation: `led i v p` says that process
`i` has frame `p` at page `v`. -/
def Op.ledgerAfter (s : Kernel) (led : Slot → Nat → Nat → Prop) :
    Op → Slot → Nat → Nat → Prop
  | .allocate => fun i v p => led i v p ∨
      (s.current = some i ∧ v = s.gUfreePage / pgSize ∧ p = s.gFreeMemList)
  | .free va => fun i v p => led i v p ∧
      ¬ (s.current = some i ∧ v = va / pgSize)
  | .fork => fun i v p => led i v p ∧ freeSlot s ≠ some i
  | .exec _ => fun i v p => led i v p ∧ s.current ≠ some i
  | _ => led

/-- The unrecorded pages are in the account, below `MAXVA`. -/
def InLedger (led heap : Slot → Nat → Nat → Prop) : Prop :=
  ∀ i v p, heap i v p → led i v p ∧ v * pgSize < maxVa

/-- One step keeps them there. -/
theorem InLedger.step (hin : InLedger led heap) (hop : op.Accounted cfg s)
    (hcur : s.current = some c) (hheap : op.HeapAfter c s heap heap') :
    InLedger (op.ledgerAfter s led) heap' := by
  intro i v p hp
  have hsame : heap' = heap → led i v p ∧ v * pgSize < maxVa :=
    fun heq => hin i v p (heq ▸ hp)
  -- an update of the pages of slot `x`
  have hupdate : ∀ x (f : Nat → Nat → Prop),
      heap' = Function.update heap x f → (i = x ∧ f v p) ∨
        (i ≠ x ∧ led i v p ∧ v * pgSize < maxVa) := by
    intro x f heq
    rw [heq] at hp
    by_cases hi : i = x
    · rw [hi, Function.update_self] at hp
      exact Or.inl ⟨hi, hp⟩
    · rw [Function.update_of_ne hi] at hp
      exact Or.inr ⟨hi, hin i v p hp⟩
  cases op with
  | fork =>
      obtain ⟨child, hslot, heq⟩ := hheap
      rcases hupdate child _ heq with ⟨_, hf⟩ | ⟨hne, hled, hlt⟩
      · exact hf.elim
      · refine ⟨⟨hled, fun hfree => ?_⟩, hlt⟩
        rw [hslot] at hfree
        exact hne (Option.some.inj hfree).symm
  | exec f =>
      rcases hupdate c _ hheap with ⟨_, hf⟩ | ⟨hne, hled, hlt⟩
      · exact absurd hop.holeless hf
      · refine ⟨⟨hled, fun hc => ?_⟩, hlt⟩
        rw [hcur] at hc
        exact hne (Option.some.inj hc).symm
  | allocate =>
      obtain ⟨hmax, heq⟩ := hheap
      rcases hupdate c _ heq with ⟨rfl, hold | ⟨rfl, rfl⟩⟩ | ⟨_, hled, hlt⟩
      · obtain ⟨hled, hlt⟩ := hin i v p hold
        exact ⟨Or.inl hled, hlt⟩
      · exact ⟨Or.inr ⟨hcur, rfl, rfl⟩,
          Nat.lt_of_le_of_lt (Nat.div_mul_le_self _ _) hmax⟩
      · exact ⟨Or.inl hled, hlt⟩
  | free va =>
      rcases hheap with ⟨heq, hbig⟩ | heq
      · -- nothing was unmapped: the address is none of a page
        obtain ⟨hled, hlt⟩ := hsame heq
        refine ⟨⟨hled, fun hpage => ?_⟩, hlt⟩
        rw [hpage.2] at hlt
        simp only [pgSize, maxVa] at hlt hbig
        omega
      · rcases hupdate c _ heq with ⟨rfl, hold, hne⟩ | ⟨hne, hled, hlt⟩
        · obtain ⟨hled, hlt⟩ := hin i v p hold
          exact ⟨⟨hled, fun hpage => hne hpage.2⟩, hlt⟩
        · refine ⟨⟨hled, fun hpage => ?_⟩, hlt⟩
          rw [hcur] at hpage
          exact hne (Option.some.inj hpage.1).symm
  | fault mcause stval =>
      rcases hheap with heq | ⟨hstore, _⟩
      · exact hsame heq
      · exact absurd hstore hop.1
  | tick => exact hsame hheap
  | yield => exact hsame hheap
  | exit => exact hsame hheap
  | wait pid => exact hsame hheap
  | store va b => exact hsame hheap

-- ==== giving back

/-- Address `va` is good for a heap page of process `c`: unmapped, clear
of the stack, the trapframe and the trap section, and user code gets it
unchanged. -/
structure HeapAddress (cfg : Config) (s : Kernel) (c : Slot) (va : Nat) :
    Prop where
  unmapped : leaf s.mem (s.procs c).pagetable va = none
  stack : va / pgSize ≠ (userStackTop - pgSize) / pgSize
  trapframe : va / pgSize ≠ (s.procs c).trapframe / pgSize
  trapSection : va / pgSize ≠ cfg.trapSecStart / pgSize
  returned : doUserCallResult va = va

/-- Pages are allocated only where the caller records no region. -/
def Op.HeapFits (cfg : Config) (op : Op) (s : Kernel) : Prop :=
  op.Accounted cfg s ∧ (op = .allocate → Unrecorded s s.gUfreePage)

/-- The counter is past every heap page and has not passed the stack. -/
structure CounterFits (s : Kernel) (heap : Slot → Nat → Nat → Prop) :
    Prop where
  past : ∀ i v p, heap i v p → v * pgSize < s.gUfreePage
  low : s.gUfreePage + pgSize ≤ userStackTop

/-- The stack is a recorded page: the counter stops there. -/
theorem Sys.counter_low (hS : Sys cfg heap s own fl q c)
    (hlow : s.gUfreePage + pgSize ≤ userStackTop)
    (hfit : Unrecorded s s.gUfreePage) :
    s.gUfreePage + 2 * pgSize ≤ userStackTop := by
  have hsp := hS.inv.space c hS.current
  have hal := hS.aligned
  have hne : s.gUfreePage / 4096 ≠ (userStackTop - pgSize) / 4096 := by
    intro hpage
    refine hfit c hS.running.current 0
      (Nat.lt_of_lt_of_le (by decide) hsp.three) ?_
    rw [hsp.stack]
    exact inPages_one.mpr hpage
  simp only [pgSize, userStackTop] at hal hlow hne ⊢
  omega

theorem CounterFits.step (hJ : CounterFits s heap)
    (hS : Sys cfg heap s own fl q c) (hop : op.HeapFits cfg s)
    (hst : SpaceStep cfg op c q heap s own fl heap' s' own') :
    CounterFits s' heap' := by
  by_cases halloc : op = .allocate
  · subst halloc
    have hlow := hS.counter_low hJ.low (hop.2 rfl)
    have hufree : s'.gUfreePage = s.gUfreePage + pgSize := by
      refine hst.ufree.trans (Nat.mod_eq_of_lt ?_)
      simp only [pgSize, userStackTop] at hlow ⊢
      omega
    obtain ⟨_, heq⟩ := hst.unrecorded
    refine ⟨fun i v p hp => ?_, ?_⟩
    · have hlt : s.gUfreePage < s'.gUfreePage := by
        rw [hufree]
        exact Nat.lt_add_of_pos_right (by decide)
      rw [heq] at hp
      unfold moreHeap at hp
      by_cases hi : i = c
      · rw [hi, Function.update_self] at hp
        rcases hp with hold | ⟨rfl, _⟩
        · exact Nat.lt_trans (hJ.past c v p hold) hlt
        · exact Nat.lt_of_le_of_lt (Nat.div_mul_le_self _ _) hlt
      · rw [Function.update_of_ne hi] at hp
        exact Nat.lt_trans (hJ.past i v p hp) hlt
    · rw [hufree]
      omega
  · have hufree : s'.gUfreePage = s.gUfreePage := by
      rw [hst.ufree]
      cases op with
      | allocate => exact absurd rfl halloc
      | _ => rfl
    refine ⟨fun i v p hp => ?_, ?_⟩
    · rw [hufree]
      exact hJ.past i v p (hop.1.shrinks halloc hst.unrecorded i v p hp)
    · rw [hufree]
      exact hJ.low

/-- A counter that fits and is not recorded is a good address. -/
theorem CounterFits.heapAddress (hJ : CounterFits s heap)
    (hS : Sys cfg heap s own fl q c) (hfit : Unrecorded s s.gUfreePage) :
    HeapAddress cfg s c s.gUfreePage := by
  have hsp := hS.inv.space c hS.current
  have hlow := hS.counter_low hJ.low hfit
  have htf := hS.inv.ranges.frame
    (tag_page (n := c) hS.inv.pages (by rw [hsp.trapframe]; rfl))
  have htrap := cfg.trap_base
  simp only [pgSize, userStackTop, kernBase] at hlow htrap
  constructor
  case unmapped =>
    cases hw : leaf s.mem (s.procs c).pagetable s.gUfreePage with
    | none => rfl
    | some w =>
        exfalso
        rcases hsp.regions.leaves _ w (by omega) hw with ⟨k, hk, hc⟩ | hheap
        · exact hfit c hS.running.current k hk hc
        · rcases hheap with hheap | hstray
          -- heap pages lie before the counter
          · have hpast := hJ.past c _ _ hheap.1
            have hal := hS.aligned
            simp only [pgSize] at hpast hal
            omega
          · have hpage := hstray.page
            simp only [kernBase, pgSize] at hpage
            omega
  case stack => simp only [pgSize, userStackTop]; omega
  case trapframe => simp only [pgSize]; omega
  case trapSection => simp only [pgSize]; omega
  case returned =>
    unfold doUserCallResult sext32
    rw [Nat.mod_eq_of_lt (by omega), if_pos (by omega)]

/-- Over runs that allocate only where the caller records no region,
such an allocation returns a good address, or pages ran out. -/
theorem heap_address_safe (happ : Recordable cfg.app)
    (hrun : KernelRun outOfPages cfg (Op.HeapFits cfg) h s)
    (hfit : Unrecorded s s.gUfreePage) (hcur : s.current = some c) :
    Wp outOfPages (fun _ _ => False) sysUserAllocatePage
      (fun va _ => HeapAddress cfg s c va) s := by
  obtain ⟨heap, own, fl, q, c', hS, hJ⟩ := hrun.space
    (J := fun _ s heap _ => CounterFits s heap) happ.toLoadable
    (fun _ _ hop => hop.1.tame) False (Or.inl happ.holeless)
    (fun s _ hu _ => ⟨nofun, by rw [hu]; decide⟩)
    fun _ _ _ _ _ _ _ _ _ _ _ hJ hS hop hst => hJ.step hS hop hst
  obtain rfl : c' = c := Option.some.inj (hS.running.current.symm.trans hcur)
  have hgood := hJ.heapAddress hS hfit
  have hmax : s.gUfreePage < maxVa := by
    have hlow := hJ.low
    simp only [pgSize, userStackTop, maxVa] at hlow ⊢
    omega
  have hroom : Room outOfPages 4 fl := Or.inr rfl
  refine (wp_allocateSpace hS (Or.inl ⟨hmax, hgood.unmapped⟩)
    hroom).mono fun va s' hres => ?_
  obtain ⟨_, _, _, rfl, _⟩ := hres
  exact hgood

/-- In a run of processes with low images, allocations are few and clear
of the regions. -/
theorem PlainRun.unrecorded {seg : SegType} {n k : Nat} {f : Table}
    (hA : PlainRun cfg seg n k h s f q c) (happ : Recordable cfg.app)
    (hfew : h.length < 1000) :
    (∀ e ∈ h, e.op = .allocate → Unrecorded e.pre e.pre.gUfreePage) ∧
      Unrecorded s s.gUfreePage := by
  -- the counter, which every step moves by a page at most
  obtain ⟨_, _, _, _, c', hS, hJ⟩ := hA.run.space (J := fun h s _ _ =>
      h.length < 1000 → userFreeAddressStart ≤ s.gUfreePage ∧
        s.gUfreePage ≤ userFreeAddressStart + h.length * pgSize ∧
        ∀ e ∈ h, e.op = .allocate → Unrecorded e.pre e.pre.gUfreePage)
    happ.toLoadable (fun _ _ hop => hop.1) False (Or.inl happ.holeless)
    (fun s _ hu _ _ => by
      rw [hu]
      exact ⟨le_rfl, le_rfl, fun _ he => absurd he List.not_mem_nil⟩)
    (by
      intro h s heap own fl q c op s' heap' own' hJ hS hop hst hlen
      rw [List.length_cons] at hlen ⊢
      obtain ⟨hlo, hhi, hall⟩ := hJ (by omega)
      have hstep : s'.gUfreePage = s.gUfreePage ∨
          s'.gUfreePage = s.gUfreePage + pgSize := by
        rw [hst.ufree]
        cases op with
        | allocate =>
            refine Or.inr (Nat.mod_eq_of_lt ?_)
            simp only [userFreeAddressStart, pgSize] at hhi ⊢
            omega
        | _ => exact Or.inl rfl
      refine ⟨by omega, ?_, List.forall_mem_cons.mpr ⟨fun _ => ?_, hall⟩⟩
      · rw [Nat.succ_mul]
        omega
      · refine hS.unrecorded (hop.2 c hS.running.current) hlo ?_
        simp only [userFreeAddressStart, userStackTop, pgSize] at hhi ⊢
        omega)
  obtain ⟨hlo, hhi, hall⟩ := hJ hfew
  obtain ⟨_, _, _, hP⟩ := hA.plain
  refine ⟨hall, hP.sys.unrecorded (hP.image c hP.sys.current) hlo ?_⟩
  simp only [userFreeAddressStart, userStackTop, pgSize] at hhi ⊢
  omega

/-- A heap page for slot 0, which then forks twice; a child that loads an
image and exits; and the next heap page of slot 0. -/
theorem heap_address_safe_tour : ∃ h s,
    ops h = tour (tinyImage 0x10000) ++ [.allocate] ∧
      KernelRun outOfPages (tinyMachine 0x10000)
        (Op.HeapFits (tinyMachine 0x10000)) h s ∧
      Wp outOfPages (fun _ _ => False) sysUserAllocatePage
        (fun va _ => HeapAddress (tinyMachine 0x10000) s 0 va) s := by
  obtain ⟨s₀, hA₀, -, hufree, hvac⟩ := plainRun_boot tinyImage_low (by decide)
  obtain ⟨s₁, hA₁, -⟩ := PlainRun.allocate (n := 31996) hA₀ <| by
    rw [hufree]
    exact hvac _ (by decide) (by decide)
  obtain ⟨h, s, hops, hA⟩ := (hA₁.less (by decide) fun _ => rfl).tour
    (n := 31000) tinyImage_low rfl (by decide) (by simp)
  have happ := smallMachine_recordable (b := false) tinyImage_low
  have hlen : h.length = 8 := by
    rw [← List.length_map (f := Entry.op), show h.map Entry.op = _ from hops]
    rfl
  obtain ⟨hall, hfit⟩ := hA.unrecorded happ (by omega)
  have hrun : KernelRun outOfPages (tinyMachine 0x10000)
      (Op.HeapFits (tinyMachine 0x10000)) h s := by
    refine hA.tame.mono (fun _ => id) fun e he htame => ⟨?_, hall e he⟩
    have hmem : e.op ∈ ops h := List.mem_map_of_mem he
    rw [hops] at hmem
    rcases List.mem_append.mp hmem with hmem | hmem
    · obtain ⟨hexec, -, hfault, -⟩ := tour_op hmem
      refine htame.accounted (fun f hf => ?_) hfault
      rw [hexec f hf]
      exact tinyImage_low.recordable
    · rw [List.mem_singleton.mp hmem]
      trivial
  exact ⟨h, s, hops, hrun, heap_address_safe happ hrun hfit hA.current⟩

/-- An application with a segment where the heap starts: its first
allocation does not return. -/
theorem heap_address_taken : ∃ s fl,
    KernelRun anyEvent (tinyMachine userFreeAddressStart) anyOp [] s ∧
      FreeList s fl ∧ 4 ≤ fl.length ∧
      ¬ Returns sysUserAllocatePage (fun _ _ => True) s := by
  obtain ⟨s, own, fl, hrun, hb, hone⟩ :=
    smallMachine_run (C := anyOp) tinyImage_heap
  have hsp := hb.sys.inv.space 0 hb.sys.current
  have hroom : 4 ≤ fl.length := by
    have hlen := hone.length
    rw [smallMachine_pool] at hlen
    omega
  obtain ⟨w, hw, _⟩ := hsp.regions.mapped 3 (by rw [hone.total]; decide) .code
    (by rw [hone.entry]; decide) s.gUfreePage
    ((covers_one hone.entry).mpr (by rw [hb.ufree]; rfl))
  -- a return would have found the page unmapped
  have hstuck : Wp anyEvent (fun _ _ => True) sysUserAllocatePage
      (fun _ _ => False) s := by
    refine (wp_allocateSpace hb.sys (Or.inr fun _ _ => trivial)
      (Or.inl hroom)).mono fun va s' hres => ?_
    obtain ⟨pa, own', fl', rfl, _, _, _, hnew, _⟩ := hres
    exact Option.some_ne_none w (hw.symm.trans hnew.new)
  refine ⟨s, fl, hrun, hb.sys.inv.pages.pool.chain, hroom, fun hret => ?_⟩
  obtain ⟨es, va, s', hs, _⟩ := hret.elim
  exact hstuck.of_run hs fun _ _ => id

end Pke
