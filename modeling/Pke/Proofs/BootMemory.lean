/-
Memory after boot: the pages the kernel manages, and its own page table.

`pmm_init` puts the pages between the end of the kernel and the end of
memory on the free list, and `kern_vm_init` maps all of memory onto
itself. The specifications are those of Pmm.lean and Boot.lean; here they
are held against what the two functions are for.

The loop of `create_freepage_list` wants `p + PGSIZE < end`, so a page
that ends where memory does is left out. That is the last page whenever
the end of memory is on a page boundary (`pmm_init_manages_iff`).
-/
import Pke.Proofs.Boot

namespace Pke

open ByteMem Traced Intrusive

variable {bad : Event → Prop} {E : Halt → Kernel → Prop}
variable {s s' : Kernel} {fl : List Nat} {kernelEnd etext : Nat}

-- ==== the managed pages

/-- One beyond the memory the kernel may use. -/
def usableEnd (memSize : Nat) : Nat := dramBase + min pkeMaxAllowableRam memSize

/-- The free list holds the whole pages between the end of the kernel and
the end of memory, each of them once, and nothing else; `free_page` takes
all of them. -/
def ManagesUsable (kernelEnd memSize : Nat) (s : Kernel) : Prop :=
  ∃ fl, FreeList s fl ∧ fl.Nodup ∧
    (∀ p, p ∈ fl ↔ p % pgSize = 0 ∧ roundUp kernelEnd pgSize ≤ p ∧
      p + pgSize ≤ usableEnd memSize) ∧
    ∀ p ∈ fl, Returns (freePage p) (fun _ _ => True) s

/-- No whole page behind the kernel ends where memory does. -/
def LastPageClear (kernelEnd memSize : Nat) : Prop :=
  usableEnd memSize % pgSize ≠ 0 ∨ usableEnd memSize ≤ roundUp kernelEnd pgSize

/-- `free_page` takes every page of the managed memory. -/
theorem PageIn.accepted {p : Nat} (hp : PageIn s p) :
    Returns (freePage p) (fun _ _ => True) s := by
  have hchk : ¬ (p % pgSize ≠ 0 ∨ p < s.freeMemStartAddr
      ∨ p ≥ s.freeMemEndAddr) := by
    have := hp.aligned
    have := hp.lo
    have := hp.hi
    omega
  unfold Returns freePage
  simp only [wp_bind, wp_get, if_neg hchk, sd, onMem, countPages, wp_modify,
    wp_emit, or_true]

/-- `pmm_init` goes on only with the kernel inside the memory. -/
theorem wp_pmmInit_within (hword : kernelEnd < 2 ^ 64) :
    Wp bad (fun _ _ => True) (pmmInit kernelEnd) (fun _ _ =>
      kernBase ≤ kernelEnd ∧ kernelEnd ≤ usableEnd s.gMemSize) s := by
  unfold pmmInit
  simp only [wp_bind, wp_modify, wp_get]
  rw [wp_ite]
  refine ⟨fun _ => (wp_halt _).mpr trivial, fun hfit => ?_⟩
  have hmin : min pkeMaxAllowableRam s.gMemSize ≤ pkeMaxAllowableRam :=
    Nat.min_le_left ..
  -- below the base the size wraps, and is larger than any memory
  have hin : kernBase ≤ kernelEnd ∧ kernelEnd ≤ usableEnd s.gMemSize := by
    unfold usableEnd
    unfold u64 at hfit
    simp only [pkeMaxAllowableRam, kernBase, dramBase] at *
    omega
  simp only [wp_bind, wp_modify, wp_get]
  exact (wp_run_eq _).mono fun _ _ _ => hin

/-- The list of pages `create_freepage_list` made, in the terms of the
memory there is. -/
theorem manages_iff {memSize : Nat} (hpos : 0 < kernelEnd)
    (hhi : kernelEnd < 2 ^ 63)
    (hp : Pool s (poolPages (roundUp kernelEnd pgSize) (usableEnd memSize)).reverse) :
    ManagesUsable kernelEnd memSize s ↔ LastPageClear kernelEnd memSize := by
  have hround := roundUp_eq hpos hhi
  have hmem : ∀ p, p ∈ (poolPages (roundUp kernelEnd pgSize)
      (usableEnd memSize)).reverse ↔ p % pgSize = 0 ∧
        roundUp kernelEnd pgSize ≤ p ∧ p + pgSize < usableEnd memSize := by
    intro p
    rw [List.mem_reverse, mem_poolPages]
    simp only [pgSize] at hround ⊢
    omega
  unfold ManagesUsable LastPageClear
  constructor
  · intro hmanages
    obtain ⟨fl, hchain, _, hall, _⟩ := hmanages
    obtain rfl := hp.list_eq hchain
    by_contra hnot
    simp only [pgSize] at hround hnot hmem hall
    -- the page that ends with the memory is not on the list
    have hlast := (hall (usableEnd memSize - 4096)).mpr (by omega)
    have hout := (hmem _).mp hlast
    omega
  · intro hclear
    refine ⟨_, hp.chain, hp.nodup, fun p => ?_, fun p h => (hp.page p h).accepted⟩
    rw [hmem]
    simp only [pgSize] at hround hclear ⊢
    omega

/-- What a run of `pmm_init` leaves, in full. -/
theorem pmmInit_pool {es : List Event} (hword : kernelEnd < 2 ^ 64)
    (hrun : pmmInit kernelEnd s = (es, .ok () s')) :
    0 < kernelEnd ∧ kernelEnd < 2 ^ 63 ∧
      Pool s' (poolPages (roundUp kernelEnd pgSize)
        (usableEnd s.gMemSize)).reverse := by
  have hnone : ∀ e ∈ es, ¬ (fun _ : Event => False) e := fun _ _ h => h
  obtain ⟨hlo, hhi⟩ := (wp_pmmInit_within hword).of_run hrun hnone
  have hlt : kernelEnd < 2 ^ 63 := by
    have hmin : min pkeMaxAllowableRam s.gMemSize ≤ pkeMaxAllowableRam :=
      Nat.min_le_left ..
    unfold usableEnd at hhi
    simp only [pkeMaxAllowableRam, dramBase] at *
    omega
  have hinit : Wp (fun _ => False) (fun _ _ => True) (pmmInit kernelEnd)
      (fun _ s' => s'.rest = (pmmGlobals kernelEnd s).rest ∧
        Pool s' (poolPages s'.freeMemStartAddr s'.freeMemEndAddr).reverse) s :=
    wp_pmmInit hlo hlt fun _ _ => trivial
  obtain ⟨hrest, hp⟩ := hinit.of_run hrun hnone
  refine ⟨Nat.lt_of_lt_of_le (by decide) hlo, hlt, ?_⟩
  rw [freeMemStartAddr_eq hrest, freeMemEndAddr_eq hrest] at hp
  unfold usableEnd
  rw [Nat.add_comm]
  exact hp

/-- `pmm_init` manages exactly the usable memory, unless a page ends where
memory does: that page is lost. -/
theorem pmm_init_manages_iff {kernelEnd : Nat} {s s' : Kernel} {es : List Event}
    (hword : kernelEnd < 2 ^ 64) (hrun : pmmInit kernelEnd s = (es, .ok () s')) :
    ManagesUsable kernelEnd s.gMemSize s' ↔
      LastPageClear kernelEnd s.gMemSize := by
  obtain ⟨hpos, hlt, hp⟩ := pmmInit_pool hword hrun
  exact manages_iff hpos hlt hp

/-- With the kernel inside the memory `pmm_init` returns. -/
theorem pmmInit_returns (kernelEnd : Nat) (hlo : kernBase ≤ kernelEnd)
    (hfit : kernelEnd ≤ usableEnd s.gMemSize) :
    ∃ es s', pmmInit kernelEnd s = (es, .ok () s') := by
  unfold usableEnd at hfit
  simp only [kernBase, dramBase, pkeMaxAllowableRam] at hlo hfit
  have hinit : Returns (pmmInit kernelEnd) (fun _ _ => True) s := by
    refine (wp_pmmInit hlo (by omega) fun hpanic => ?_).mono fun _ _ _ => trivial
    simp only [kernBase, pkeMaxAllowableRam] at hpanic
    omega
  obtain ⟨es, _, s', hrun, _⟩ := Returns.elim hinit
  exact ⟨es, s', hrun⟩

/-- A machine with a memory of one MiB and a byte. -/
def oddMachine : Kernel := { (tinyMachine 0).init with gMemSize := 0x100001 }

/-- Its memory is managed whole. -/
theorem pmm_init_manages_iff_odd : ∃ es s',
    pmmInit 0x80005000 oddMachine = (es, .ok () s') ∧
      ManagesUsable 0x80005000 oddMachine.gMemSize s' := by
  obtain ⟨es, s', hrun⟩ := pmmInit_returns (s := oddMachine)
    0x80005000 (by decide) (by decide)
  refine ⟨es, s', hrun, (pmm_init_manages_iff (by decide) hrun).mpr ?_⟩
  exact Or.inl (by decide)

/-- On a machine with 128 MiB the last page, at 0x87fff000, is not on the
list, although it is usable. -/
theorem last_page_lost : ∃ es s',
    pmmInit 0x80005000 (tinyMachine 0).init = (es, .ok () s') ∧
      0x87fff000 + pgSize ≤ usableEnd (tinyMachine 0).memSize ∧
      (∀ fl, FreeList s' fl → 0x87fff000 ∉ fl) ∧
      ¬ ManagesUsable 0x80005000 (tinyMachine 0).memSize s' := by
  obtain ⟨es, s', hrun⟩ := pmmInit_returns (s := (tinyMachine 0).init)
    0x80005000 (by decide) (by decide)
  obtain ⟨hpos, hlt, hp⟩ := pmmInit_pool (by decide) hrun
  have hend : usableEnd (tinyMachine 0).init.gMemSize = 0x88000000 := by decide
  refine ⟨es, s', hrun, by decide, fun fl hfl hin => ?_, fun hmanages => ?_⟩
  · rw [hp.list_eq hfl, List.mem_reverse, mem_poolPages, hend] at hin
    simp only [pgSize] at hin
    omega
  · rcases (manages_iff hpos hlt hp).mp hmanages with hodd | hempty
    · exact absurd hodd (by decide)
    · exact absurd hempty (by decide)

-- ==== the kernel's address space

/-- The kernel's page table maps `[KERN_BASE, PHYS_TOP)` onto itself and
nothing else, text for reading and executing, the rest for reading and
writing, none of it for user mode. -/
structure KernelMap (etext : Nat) (s : Kernel) : Prop where
  translates : ∀ va, va < maxVa → Returns (lookupPa s.gKernelPagetable va)
    (fun pa s' => s' = s ∧ pa =
      if kernBase ≤ va ∧ va < physTop then roundDown va pgSize else 0) s
  text : ∀ va, kernBase ≤ va → va < etext →
    ∃ w, leaf s.mem s.gKernelPagetable va = some w ∧ w &&& pteR ≠ 0 ∧
      w &&& pteX ≠ 0 ∧ w &&& pteW = 0
  data : ∀ va, etext ≤ va → va < physTop →
    ∃ w, leaf s.mem s.gKernelPagetable va = some w ∧ w &&& pteR ≠ 0 ∧
      w &&& pteW ≠ 0 ∧ w &&& pteX = 0
  supervisor : ∀ va w, va < maxVa → leaf s.mem s.gKernelPagetable va = some w →
    w &&& pteU = 0

theorem kernLeaf_text {va : Nat} (hlo : kernBase ≤ va) (hhi : va < etext) :
    kernLeaf etext va = some (kernEntry va textPerm) := by
  unfold kernLeaf
  rw [if_pos ⟨hlo, hhi⟩]

theorem kernLeaf_data {va : Nat} (hlo : etext ≤ va) (hhi : va < physTop) :
    kernLeaf etext va = some (kernEntry va dataPerm) := by
  unfold kernLeaf
  rw [if_neg (by omega), if_pos ⟨hlo, hhi⟩]

/-- The entries of the kernel's table lead to their own page. -/
theorem leafPa_kernEntry {va perm : Nat} (hva : va < 2 ^ 64)
    (hperm : perm < 1024) (hread : (perm ||| pteV) &&& pteR ≠ 0) :
    leafPa (some (kernEntry va perm)) = roundDown va pgSize := by
  have hpage : roundDown va pgSize % pgSize = 0 ∧ roundDown va pgSize < 2 ^ 64 := by
    unfold roundDown
    simp only [pgSize]
    omega
  rw [leafPa_readable (Or.inl _)]
  · exact entry_pa hpage.1 hpage.2 hperm
  · unfold kernEntry
    rw [entry_and hperm (by decide)]
    exact hread

theorem leafPa_kernLeaf {va : Nat} (hlo : kernBase < etext)
    (hhi : etext < physTop) : leafPa (kernLeaf etext va)
      = if kernBase ≤ va ∧ va < physTop then roundDown va pgSize else 0 := by
  by_cases hin : kernBase ≤ va ∧ va < physTop
  · have hva : va < 2 ^ 64 := Nat.lt_trans hin.2 (by decide)
    rw [if_pos hin]
    rcases Nat.lt_or_ge va etext with htext | hdata
    · rw [kernLeaf_text hin.1 htext, leafPa_kernEntry hva (by decide) (by decide)]
    · rw [kernLeaf_data hdata hin.2, leafPa_kernEntry hva (by decide) (by decide)]
  · rw [if_neg hin]
    unfold kernLeaf
    rw [if_neg (by omega), if_neg (by omega)]
    rfl

theorem KernMapped.kernelMap (h : KernMapped etext s fl s')
    (hlo : kernBase < etext) (hhi : etext < physTop) : KernelMap etext s' := by
  obtain ⟨_, own, fl', _, _, hh, hT⟩ := h.taken
  have hflags : ∀ {va perm k}, perm < 1024 → k < 1024 →
      kernEntry va perm &&& k = (perm ||| pteV) &&& k := fun hperm hk =>
    entry_and hperm hk
  have hsmall : ∀ {va}, va < physTop → va < 2 ^ 39 := fun hva =>
    Nat.lt_trans hva (by decide)
  constructor
  case translates =>
    intro va hva
    unfold Returns
    rw [wp_lookupPa hh hT hva, h.leaves va (Nat.lt_trans hva (by decide)),
      leafPa_kernLeaf hlo hhi]
    exact ⟨rfl, rfl⟩
  case text =>
    intro va hva htext
    refine ⟨kernEntry va textPerm, ?_, ?_, ?_, ?_⟩
    · rw [h.leaves va (hsmall (by omega)), kernLeaf_text hva htext]
    · rw [hflags (by decide) (by decide)]
      decide
    · rw [hflags (by decide) (by decide)]
      decide
    · rw [hflags (by decide) (by decide)]
      decide
  case data =>
    intro va hdata hva
    refine ⟨kernEntry va dataPerm, ?_, ?_, ?_, ?_⟩
    · rw [h.leaves va (hsmall hva), kernLeaf_data hdata hva]
    · rw [hflags (by decide) (by decide)]
      decide
    · rw [hflags (by decide) (by decide)]
      decide
    · rw [hflags (by decide) (by decide)]
      decide
  case supervisor =>
    intro va w hva hw
    rw [h.leaves va (Nat.lt_trans hva (by decide))] at hw
    unfold kernLeaf at hw
    split at hw
    · rw [← Option.some.inj hw, hflags (by decide) (by decide)]
      decide
    · split at hw
      · rw [← Option.some.inj hw, hflags (by decide) (by decide)]
        decide
      · cases hw

/-- `kern_vm_init` completes on every list with a page for the root and
for the 65 tables below it, and maps the kernel's address space. -/
theorem kernel_map_identity {etext : Nat} {s : Kernel} {fl : List Nat}
    (hal : etext % pgSize = 0) (hlo : kernBase < etext) (hhi : etext < physTop)
    (hp : Pool s fl) (hroom : 66 ≤ fl.length) :
    Returns (kernVmInit etext) (fun _ s' => KernelMap etext s') s := by
  apply (wp_kernVmInit_maps hp hal hlo hhi (Or.inl hroom)).mono
  intro _ s' hres
  exact hres.kernelMap hlo hhi

/-- After `pmm_init` there are pages enough. -/
theorem kernel_map_identity_boot : ∃ es s',
    pmmInit 0x80005000 (tinyMachine 0).init = (es, .ok () s') ∧
      Returns (kernVmInit 0x80003000) (fun _ s'' => KernelMap 0x80003000 s'') s' := by
  obtain ⟨es, s', hrun⟩ := pmmInit_returns (s := (tinyMachine 0).init)
    0x80005000 (by decide) (by decide)
  obtain ⟨_, _, hp⟩ := pmmInit_pool (by decide) hrun
  refine ⟨es, s', hrun, kernel_map_identity (by decide) (by decide) (by decide)
    hp ?_⟩
  have hpool : (poolPages (roundUp 0x80005000 pgSize)
      (min pkeMaxAllowableRam (128 * 1024 * 1024) + dramBase)).length = 32762 :=
    smallMachine_pool false []
  rw [Nat.add_comm] at hpool
  rw [List.length_reverse]
  exact Nat.le_of_lt (hpool ▸ (by decide : 66 < 32762))

end Pke
