/-
Boot: from power-on to the first process.

Until the first process is built no page is given back, so the free
list only ever loses pages from its front: what is left of it is a tail
of the list `pmm_init` made, and that list runs downwards without a gap.
The stages are

- `pmm_init`, the whole list (Pmm.lean);
- `kern_vm_init`, at most 66 pages: a root, one table below it, and the
  64 tables that map the managed memory;
- `fs_init`, 133 pages: the RAM disk, and five more for the device, the
  file system and its buffers;
- `alloc_process` and the loader, which end in the invariant of
  Space.lean for slot 0;
- the queue and the first switch.

# Before the first process

Nobody owns anything yet: a page is free or out of sight (`bareOwn`), so
the page bookkeeping of Heap.lean is the free list and nothing else
(`Pool.heap`).
-/
import Pke.Lib.Run
import Pke.Proofs.Steps

namespace Pke

open ByteMem Traced Radix

variable {bad : Event → Prop} {E : Halt → Kernel → Prop}
variable {cfg : Config} {s s' s₀ s₁ s₂ : Kernel}
variable {own own' own₀ : Nat → Owner} {fl fl' fl₀ : List Nat}
variable {root n p : Nat}

-- ==== the pool by itself

/-- Before the first process a page is free or out of sight. -/
def bareOwn (fl : List Nat) (p : Nat) : Owner :=
  if p ∈ fl then .free else .held

theorem Pool.heap (hp : Pool s fl) : Heap s (bareOwn fl) fl where
  pool := hp
  free p := by
    unfold bareOwn
    by_cases hmem : p ∈ fl
    · rw [if_pos hmem]
      exact iff_of_true rfl hmem
    · rw [if_neg hmem]
      exact iff_of_false Owner.noConfusion hmem
  page p hne := by
    unfold bareOwn at hne
    by_cases hmem : p ∈ fl
    · exact hp.page p hmem
    · rw [if_neg hmem] at hne
      exact absurd rfl hne

/-- `alloc_page` while there is room. -/
theorem wp_pop {Q : Nat → Kernel → Prop} (hp : Pool s fl)
    (hroom : Room bad (n + 1) fl)
    (hok : ∀ p t s', fl = p :: t → s'.rest = s.rest → s'.mem = s.mem →
      Pool s' t → Room bad n t → Q p s') : Wp bad E allocPage Q s := by
  apply (wp_allocPage hp).mono
  intro p s' hres
  obtain ⟨hr, hm, ⟨hnil, _, hbad, _⟩ | ⟨t, hcons, hp'⟩⟩ := hres
  · rcases hroom with hlen | hb
    · rw [hnil] at hlen
      exact absurd hlen (Nat.not_succ_le_zero _)
    · exact absurd hb hbad
  · apply hok p t s' hcons hr hm hp'
    apply hroom.less
    rw [hcons, List.length_cons]
    omega

/-- A write inside a page that is not on the list. -/
theorem wp_scribble {f : Mem → Mem} {Q : Unit → Kernel → Prop}
    (hp : Pool s fl) (hal : p % pgSize = 0) (hout : p ∉ fl)
    (hw : Within s.mem (f s.mem) p)
    (hok : ∀ s', s'.rest = s.rest → s'.mem = f s.mem → Pool s' fl → Q () s') :
    Wp bad E (onMem f) Q s := by
  unfold onMem
  rw [wp_modify]
  refine hok _ (by rfl) (by rfl) (hp.write (by rfl) (by rfl) ?_)
  intro q hq
  have hne : q ≠ p := by
    intro heq
    rw [heq] at hq
    exact hout hq
  exact (hw.agree (hp.page q hq).aligned hal hne).mono (Nat.le_refl _)
    (by omega)

-- ==== the kernel page table

/-- The tree index of the kernel's own page table, beyond all slots. -/
abbrev kernTree : Nat := nproc

/-- The tables that map the managed memory, less the root. -/
def kernPaths : List (List (Fin 512)) :=
  [2] :: (List.range 64).map fun j => [2, Fin.ofNat 512 j]

theorem kernPaths_length : kernPaths.length = 65 := by
  unfold kernPaths
  rw [List.length_cons, List.length_map, List.length_range]

theorem onWay_kern {va : Nat} {path : List (Fin 512)} (hlo : dramBase ≤ va)
    (hhi : va < physTop) (h : onWay va path) : path ∈ kernPaths := by
  simp only [dramBase, physTop, pkeMaxAllowableRam] at hlo hhi
  have h2 : px 2 va = 2 := by
    apply Fin.ext
    rw [px_val]
    show va / 2 ^ 30 % 512 = 2
    omega
  have h1 : (px 1 va : Nat) = va / 2 ^ 21 % 512 := px_val 1 va
  unfold kernPaths
  rcases h with rfl | rfl
  · rw [h2]
    exact List.mem_cons_self ..
  · apply List.mem_cons_of_mem
    unfold vpath
    rw [h2, List.mem_map]
    refine ⟨px 1 va, List.mem_range.mpr (by omega), ?_⟩
    rw [Fin.ofNat_val_eq_self]

/-- `kern_vm_map` of whole pages of the managed memory onto themselves,
with the tables it takes counted from the first mapping on. -/
theorem wp_kernVmMap {va k perm : Nat} (hal : va % pgSize = 0) (hk : 1 ≤ k)
    (hlo : dramBase ≤ va) (hhi : va + k * pgSize ≤ physTop)
    (hperm : perm < 1024) (hh₀ : Heap s₀ own₀ fl₀)
    (hg : Grown kernTree root (· ∈ kernPaths) s₀ own₀ fl₀ s own fl)
    (hnone : ∀ j < k, leaf s.mem root (va + j * pgSize) = none)
    (hroom : Room bad 65 fl₀) :
    Wp bad E (kernVmMap root va va (k * pgSize) perm) (fun _ s' =>
      ∃ own' fl', Grown kernTree root (· ∈ kernPaths) s₀ own₀ fl₀ s' own' fl' ∧
        Mapped va va perm k root s.mem s'.mem) s := by
  simp only [pgSize, dramBase, physTop, pkeMaxAllowableRam] at hal hlo hhi
  have hpages : (va + k * 4096 - 1) / 4096 - va / 4096 + 1 = k := by omega
  have hfirst : va / 4096 * 4096 = va := by omega
  unfold kernVmMap
  rw [wp_bind, mapPages_eq (by simp only [pgSize]; omega)
    (by simp only [pgSize]; omega)]
  simp only [pgSize]
  rw [hpages, hfirst]
  apply (wp_mapLoop hperm k va va s own fl hg.heap hg.tables
    (by simp only [pgSize]; omega) ?_ (Or.inl ?_)).mono
  · intro r s' hres
    obtain ⟨own', fl', j, hg', hm, _, hend⟩ := hres
    have htrans := hg.trans hg'
    rcases hend with ⟨rfl, rfl⟩ | ⟨_, _, hnil, hb, path, hpath, hmissing⟩
    · rw [if_neg (by decide)]
      exact (wp_pure _).mpr ⟨own', fl', htrans, hm⟩
    · -- the list cannot run out: there are 65 tables to take
      have hlen := htrans.length_lt hh₀ (fun _ h => h) hpath hmissing
      rw [hnil, kernPaths_length, List.length_nil] at hlen
      rcases hroom with h | h
      · omega
      · exact absurd h hb
  · intro j hj path hpath
    apply onWay_kern _ _ hpath
    · simp only [dramBase, pgSize]
      omega
    · simp only [physTop, dramBase, pkeMaxAllowableRam, pgSize]
      omega
  · intro j hj
    refine ⟨?_, hnone j hj⟩
    simp only [maxVa, pgSize]
    omega

/-- The entry of a page of the kernel's address space, mapped onto
itself. -/
def kernEntry (va perm : Nat) : Nat :=
  pa2pte (roundDown va pgSize) ||| perm ||| pteV

abbrev textPerm : Nat := protToType (protRead ||| protExec) false

abbrev dataPerm : Nat := protToType (protRead ||| protWrite) false

/-- The leaves of the kernel's page table. -/
def kernLeaf (etext va : Nat) : Option Nat :=
  if kernBase ≤ va ∧ va < etext then some (kernEntry va textPerm)
  else if etext ≤ va ∧ va < physTop then some (kernEntry va dataPerm)
  else none

/-- A root taken off the list and zeroed is a page table by itself. -/
theorem wp_kernRoot {Q : Unit → Kernel → Prop} {t : List Nat}
    (hp : Pool s (root :: t)) (hr : s₁.rest = s.rest) (hp₁ : Pool s₁ t)
    (hok : ∀ s' own, s'.rest = s.rest → Heap s' own t →
      Tables s'.mem own kernTree root →
      (∀ a, leaf s'.mem root a = none) → Q () s') :
    Wp bad E (memset root 0 pgSize) Q s₁ := by
  have hrpage := hp.page root List.mem_cons_self
  have hh₁ : Heap s₁ (Function.update (bareOwn t) root (.table kernTree [])) t := by
    have hh := hp₁.heap
    have hnot : root ∉ t := (List.nodup_cons.mp hp.nodup).1
    refine ⟨hp₁, ?_, ?_⟩
    · intro q
      by_cases hq : q = root
      · rw [hq, Function.update_self]
        exact iff_of_false Owner.noConfusion hnot
      · rw [Function.update_of_ne hq]
        exact hh.free q
    · intro q hne
      by_cases hq : q = root
      · rw [hq]
        exact hrpage.congr hr
      · rw [Function.update_of_ne hq] at hne
        exact hh.page q hne
  generalize hown : Function.update (bareOwn t) root (.table kernTree []) = own₁ at hh₁
  have hroot : own₁ root = .table kernTree [] := by
    rw [← hown, Function.update_self]
  unfold memset onMem
  rw [wp_modify]
  have hw : Within s₁.mem (fill s₁.mem root 0 pgSize) root :=
    within_fill (Nat.le_refl _) (Nat.le_refl _)
  have hzero : ∀ x, root ≤ x → x < root + 4096 →
      (fill s₁.mem root 0 pgSize) x = 0 := by
    intro x h1 h2
    show (if root ≤ x ∧ x < root + pgSize then (0 : UInt8) else s₁.mem x) = 0
    rw [if_pos ⟨h1, h2⟩]
  have hh₂ := hh₁.within hrpage.aligned (by rw [hroot]; exact Owner.noConfusion) hw
  exact hok _ own₁ hr hh₂ (Tables.zeroed hzero hroot) fun a => leaf_zeroed hzero

/-- The kernel's page table is in order, and its leaves are `kernLeaf`;
the pages it took come off the front of the list. -/
structure KernMapped (etext : Nat) (s : Kernel) (fl : List Nat) (s' : Kernel) :
    Prop where
  rest : s'.rest = { s with gKernelPagetable := s'.gKernelPagetable }.rest
  taken : ∃ tk own fl', fl = tk ++ fl' ∧ tk.length ≤ 66 ∧ Heap s' own fl' ∧
    Tables s'.mem own kernTree s'.gKernelPagetable
  leaves : ∀ va, va < 2 ^ 39 →
    leaf s'.mem s'.gKernelPagetable va = kernLeaf etext va

/-- The two mappings of `kern_vm_init`, one behind the other. -/
theorem Mapped.kernLeaf {etext k₁ k₂ : Nat} {m m₁ m₂ : Mem}
    (h₁ : Mapped kernBase kernBase textPerm k₁ root m m₁)
    (h₂ : Mapped etext etext dataPerm k₂ root m₁ m₂)
    (hnone : ∀ a, leaf m root a = none) (hfirst : kernBase + k₁ * pgSize = etext)
    (hlast : etext + k₂ * pgSize = physTop) {va : Nat} (hva : va < 2 ^ 39) :
    leaf m₂ root va = Pke.kernLeaf etext va := by
  have hframe : ∀ b, b % 4096 = 0 → b / 4096 ≤ va / 4096 →
      b + (va / 4096 - b / 4096) * 4096 = roundDown va pgSize := by
    intro b hb hle
    unfold roundDown
    simp only [pgSize]
    omega
  have htext : inPages kernBase k₁ va ↔ kernBase ≤ va ∧ va < etext := by
    unfold inPages
    simp only [pgSize, kernBase] at hfirst ⊢
    omega
  have hdata : inPages etext k₂ va ↔ etext ≤ va ∧ va < physTop := by
    unfold inPages
    simp only [pgSize, kernBase, dramBase, physTop, pkeMaxAllowableRam]
      at hfirst hlast ⊢
    omega
  rw [h₂.leaves va hva, h₁.leaves va hva, hnone]
  unfold Pke.kernLeaf kernEntry
  by_cases hin : kernBase ≤ va ∧ va < etext
  · rw [if_neg fun h => by have := hdata.mp h; omega, if_pos (htext.mpr hin),
      if_pos hin, hframe _ rfl (Nat.div_le_div_right hin.1)]
  · rw [if_neg hin, if_neg fun h => hin (htext.mp h)]
    by_cases hin' : etext ≤ va ∧ va < physTop
    · have hal : etext % 4096 = 0 := by
        simp only [pgSize, kernBase] at hfirst
        omega
      rw [if_pos (hdata.mpr hin'), if_pos hin',
        hframe _ hal (Nat.div_le_div_right hin'.1)]
    · rw [if_neg hin', if_neg fun h => hin' (hdata.mp h)]

/-- `kern_vm_init` with a page for the root and for each of the 65 tables
below it. -/
theorem wp_kernVmInit_maps {etext : Nat} (hp : Pool s fl)
    (hal : etext % pgSize = 0) (hlo : kernBase < etext) (hhi : etext < physTop)
    (hroom : Room bad 66 fl) :
    Wp bad E (kernVmInit etext) (fun _ s' => KernMapped etext s fl s') s := by
  obtain ⟨k₁, hk₁⟩ : ∃ k, kernBase + k * pgSize = etext :=
    ⟨(etext - kernBase) / pgSize, by simp only [kernBase, pgSize] at *; omega⟩
  obtain ⟨k₂, hk₂⟩ : ∃ k, etext + k * pgSize = physTop :=
    ⟨(physTop - etext) / pgSize, by
      simp only [physTop, dramBase, pkeMaxAllowableRam, pgSize] at *; omega⟩
  have hsize₁ : u64 (etext + (2 ^ 64 - kernBase)) = k₁ * pgSize := by
    unfold u64
    simp only [kernBase, physTop, dramBase, pkeMaxAllowableRam, pgSize] at *
    omega
  have hsize₂ : u64 (physTop + (2 ^ 64 - etext)) = k₂ * pgSize := by
    unfold u64
    simp only [kernBase, physTop, dramBase, pkeMaxAllowableRam, pgSize] at *
    omega
  unfold kernVmInit
  rw [wp_bind]
  apply wp_pop hp hroom
  intro root t s₁ hcons hr₁ hm₁ hp₁ hroom₁
  subst hcons
  rw [wp_bind]
  apply wp_kernRoot hp hr₁ hp₁
  intro s₂ own₂ hr₂ hh₂ hT₂ hleaf₂
  have hg₂ : Grown kernTree root (· ∈ kernPaths) s₂ own₂ t s₂ own₂ t :=
    Grown.refl hh₂ hT₂
  rw [wp_bind, hsize₁, hsize₂]
  show Wp bad E (kernVmMap root kernBase kernBase _ _) _ s₂
  apply (wp_kernVmMap (by decide) ?_ (Nat.le_refl _) ?_ (by decide) hh₂ hg₂
    (fun j _ => hleaf₂ _) hroom₁).mono
  · intro _ s₃ hres
    obtain ⟨own₃, fl₃, hg₃, hmap₃⟩ := hres
    rw [wp_bind]
    apply (wp_kernVmMap hal ?_ ?_ (Nat.le_of_eq hk₂) (by decide) hh₂ hg₃ ?_
      hroom₁).mono
    · intro _ s₄ hres
      obtain ⟨own₄, fl₄, hg₄, hmap₄⟩ := hres
      rw [wp_modify]
      obtain ⟨tk, htk, _⟩ := hg₄.taken
      have hcount := hg₄.length_le hh₂ kernPaths fun _ h _ => h
      rw [kernPaths_length] at hcount
      have hrest : s₄.rest = s.rest := hg₄.rest.trans hr₂
      have hgen : ∀ v, ({ s₄ with gKernelPagetable := v } : Kernel).rest
          = ({ s with gKernelPagetable := v } : Kernel).rest := by
        intro v
        show ({ s₄.rest with gKernelPagetable := v } : Kernel)
          = { s.rest with gKernelPagetable := v }
        rw [hrest]
      refine ⟨hgen root, ⟨root :: tk, own₄, fl₄, ?_, ?_, ?_, hg₄.tables⟩, ?_⟩
      · rw [htk, List.cons_append]
      · rw [htk, List.length_append] at hcount
        rw [List.length_cons]
        omega
      · exact hg₄.heap.congr rfl rfl rfl rfl
      · exact fun va hva => hmap₃.kernLeaf hmap₄ hleaf₂ hk₁ hk₂ hva
    · simp only [physTop, dramBase, pkeMaxAllowableRam, pgSize] at *
      omega
    · simp only [kernBase, dramBase] at *
      omega
    · -- the pages above the text are not mapped yet
      intro j hj
      simp only [kernBase, physTop, dramBase, pkeMaxAllowableRam, pgSize] at *
      rw [hmap₃.leaves _ (by omega), if_neg]
      · exact hleaf₂ _
      · intro hin
        unfold inPages at hin
        omega
  · simp only [kernBase, pgSize] at *
    omega
  · simp only [kernBase, physTop, dramBase, pkeMaxAllowableRam, pgSize] at *
    omega

/-- `kern_vm_init` takes tables from the front of the list. -/
theorem wp_kernVmInit (hp : Pool s fl) (hr : Ranges cfg s)
    (hroom : Room bad 67 fl) :
    Wp bad E (kernVmInit cfg.etext) (fun _ s' => ∃ tk fl', fl = tk ++ fl' ∧
      tk.length ≤ 66 ∧ Pool s' fl' ∧
      s'.rest = { s with gKernelPagetable := s'.gKernelPagetable }.rest) s := by
  cases fl with
  | nil =>
      unfold kernVmInit
      rw [wp_bind]
      refine wp_pop (n := 66) hp hroom fun p t s' hnil => ?_
      cases hnil
  | cons p t =>
      have hpage := hp.page p List.mem_cons_self
      have hbelow : cfg.etext < physTop := calc
        cfg.etext ≤ cfg.kernelEnd := cfg.etext_end
        _ ≤ s.freeMemStartAddr := hr.start
        _ ≤ p := hpage.lo
        _ < s.freeMemEndAddr := hpage.hi
        _ ≤ physTop := hr.stop
      have habove : kernBase < cfg.etext := by
        have htrap := cfg.trap_base
        have htext := cfg.trap_text
        omega
      apply (wp_kernVmInit_maps hp cfg.etext_aligned habove hbelow
        (hroom.less (by omega))).mono
      intro _ s' hres
      obtain ⟨tk, own, fl', hfl, hlen, hh, _⟩ := hres.taken
      exact ⟨tk, fl', hfl, hlen, hh.pool, hres.rest⟩

-- ==== the RAM disk

/-- Each page of the list lies right above the next. -/
def Descending (fl : List Nat) : Prop :=
  fl.IsChain fun a b => a = b + pgSize

theorem descending_poolPages (start stop : Nat) :
    Descending (poolPages start stop).reverse := by
  unfold Descending poolPages
  rw [List.isChain_reverse, List.isChain_map, List.isChain_range]
  intro k _
  simp only [pgSize, Nat.succ_eq_add_one]
  omega

theorem Descending.tail (h : Descending (fl' ++ fl)) : Descending fl :=
  h.suffix (List.suffix_append fl' fl)

/-- Going up from entry `k` of the list, pages are entries before it. -/
theorem Descending.above (h : Descending fl) {k b : Nat}
    (hp : fl[k]? = some p) (hb : b ≤ k) :
    fl[k - b]? = some (p + b * pgSize) := by
  induction b with
  | zero =>
      rw [Nat.sub_zero, Nat.zero_mul, Nat.add_zero]
      exact hp
  | succ b ih =>
      have hprev := ih (by omega)
      obtain ⟨hlt, hval⟩ := List.getElem?_eq_some_iff.mp hprev
      have hidx : k - (b + 1) + 1 = k - b := by omega
      have hlt' : k - (b + 1) + 1 < fl.length := by
        rw [hidx]
        exact hlt
      have hstep := List.isChain_iff_getElem.mp h (k - (b + 1)) hlt'
      simp only [hidx] at hstep
      rw [List.getElem?_eq_getElem (by omega), hstep, hval, Nat.succ_mul,
        Nat.add_assoc]

/-- On a list that descends from its ninth page on, the page behind a new
file table is the table taken before it. -/
theorem Descending.aside {k : Nat} (h : Descending (fl.drop k)) (hk : k ≤ 8)
    (hn : n &&& pteV = 0 ∨ n &&& pteU = 0) : Aside cfg n fl := by
  refine Or.inr fun p hp => Or.inr ⟨?_, hn⟩
  unfold filesPage at hp
  have hcount : 4 ≤ tableCount cfg (fl.headD 0) := by
    unfold tableCount
    split <;> decide
  generalize tableCount cfg (fl.headD 0) = t at hp hcount ⊢
  have hp' : (fl.drop k)[t + 5 - k]? = some p := by
    rw [List.getElem?_drop, ← hp]
    congr 1
    omega
  have habove := h.above hp' (b := 1) (by omega)
  rw [Nat.one_mul, List.getElem?_drop] at habove
  rw [← habove]
  congr 1
  omega

/-- The RAM disk is the first 128 pages of the list: the lowest of them
is its base. -/
structure DiskTaken (fl : List Nat) (s : Kernel) (s' : Kernel) : Prop where
  pool : Pool s' (fl.drop ramdisk0Block)
  base : fl[ramdisk0Block - 1]? = some s'.ramdisk0BaseAddr
  mem : s'.mem = s.mem
  rest : s'.rest
    = { s with ramdisk0BaseAddr := s'.ramdisk0BaseAddr }.rest

theorem wp_initRamdisk0 (hp : Pool s fl) (hroom : Room bad 128 fl) :
    Wp bad E initRamdisk0 (fun _ s' => DiskTaken fl s s') s := by
  unfold initRamdisk0
  have hcount : (ramdisk0Block * ramdisk0Bsize - 1) / pgSize + 1 = 128 := by
    decide
  rw [hcount]
  apply (wp_forRange (fun k s' => Pool s' (fl.drop k) ∧
    (∀ j, k = j + 1 → fl[j]? = some s'.ramdisk0BaseAddr) ∧
    s'.mem = s.mem ∧
    s'.rest = { s with ramdisk0BaseAddr := s'.ramdisk0BaseAddr }.rest)
    ⟨hp, fun j hj => absurd hj (Nat.succ_ne_zero j).symm, rfl, rfl⟩ ?_).mono
  · intro _ s' hres
    obtain ⟨hp', hbase, hm, hr⟩ := hres
    exact ⟨hp', hbase 127 rfl, hm, hr⟩
  · intro k hk s₁ hI
    obtain ⟨hp₁, _, hm₁, hr₁⟩ := hI
    have hroom₁ : Room bad (0 + 1) (fl.drop k) := by
      rcases hroom with h | h
      · left
        rw [List.length_drop]
        omega
      · exact Or.inr h
    rw [wp_bind]
    apply wp_pop hp₁ hroom₁
    intro p t s₂ hcons hr₂ hm₂ hp₂ _
    rw [wp_modify]
    have hdrop : fl.drop (k + 1) = t := by
      rw [← List.tail_drop, hcons, List.tail_cons]
    have hget : fl[k]? = some p := by
      rw [← List.head?_drop, hcons, List.head?_cons]
    refine ⟨?_, ?_, ?_, ?_⟩
    · rw [hdrop]
      exact ⟨hp₂.chain, fun q h => ⟨(hp₂.page q h).aligned,
        (hp₂.page q h).lo, (hp₂.page q h).hi⟩, hp₂.start_pos, hp₂.end_le⟩
    · intro j hj
      obtain rfl : k = j := by omega
      exact hget
    · exact hm₂.trans hm₁
    · have hgen : ∀ v, ({ s₂ with ramdisk0BaseAddr := v } : Kernel).rest
          = ({ s with ramdisk0BaseAddr := v } : Kernel).rest := by
        intro v
        have h := congrArg
          (fun r : Kernel => { r with ramdisk0BaseAddr := v })
          (hr₂.trans hr₁)
        exact h
      exact hgen p

/-- The blocks of the disk are pages that are not on the list. -/
structure DiskBlocks (s : Kernel) (fl : List Nat) : Prop where
  aligned : s.ramdisk0BaseAddr % pgSize = 0
  apart : ∀ b < ramdisk0Block, s.ramdisk0BaseAddr + b * pgSize ∉ fl

theorem DiskTaken.block (h : DiskTaken fl s s') (hd : Descending fl)
    {b : Nat} (hb : b < ramdisk0Block) :
    fl[ramdisk0Block - 1 - b]? = some (s'.ramdisk0BaseAddr + b * pgSize) :=
  hd.above h.base (by simp only [ramdisk0Block] at hb ⊢; omega)

theorem DiskTaken.blocks (h : DiskTaken fl s s') (hp : Pool s fl)
    (hd : Descending fl) :
    DiskBlocks s' (fl.drop ramdisk0Block) where
  aligned := (hp.page _ (List.mem_of_getElem? h.base)).aligned
  apart b hb hmem := by
    have hget := h.block hd hb
    have htake : s'.ramdisk0BaseAddr + b * pgSize
        ∈ fl.take ramdisk0Block := by
      rw [List.mem_iff_getElem?]
      refine ⟨ramdisk0Block - 1 - b, ?_⟩
      rw [List.getElem?_take_of_lt (by simp only [ramdisk0Block]; omega)]
      exact hget
    have hnd := hp.nodup
    rw [← List.take_append_drop ramdisk0Block fl] at hnd
    exact (List.nodup_append.mp hnd).2.2 _ htake _ hmem rfl

theorem DiskBlocks.tail (h : DiskBlocks s fl) (hb : s'.rest = s.rest)
    (hsub : ∀ p ∈ fl', p ∈ fl) : DiskBlocks s' fl' := by
  have hbase : s'.ramdisk0BaseAddr = s.ramdisk0BaseAddr := by
    have := congrArg Kernel.ramdisk0BaseAddr hb
    exact this
  refine ⟨?_, ?_⟩
  · rw [hbase]
    exact h.aligned
  · intro b hlt hmem
    rw [hbase] at hmem
    exact h.apart b hlt (hsub _ hmem)

-- ==== the file system

/-- `p` is a page that is not on the list. -/
structure Spare (p : Nat) (fl : List Nat) : Prop where
  aligned : p % pgSize = 0
  out : p ∉ fl

theorem Spare.tail {q : Nat} (h : Spare p (q :: fl)) : Spare p fl :=
  ⟨h.aligned, fun hmem => h.out (List.mem_cons_of_mem _ hmem)⟩

theorem DiskBlocks.spare (h : DiskBlocks s fl) {b : Nat}
    (hb : b < ramdisk0Block) : Spare (s.ramdisk0BaseAddr + b * pgSize) fl where
  aligned := by
    have hal := h.aligned
    simp only [pgSize] at hal ⊢
    omega
  out := h.apart b hb

/-- The file system is being mounted: memory was written off the list
only, and pages were taken from its front. -/
structure Mounting (s₀ s : Kernel) (fl : List Nat) : Prop where
  pool : Pool s fl
  rest : s.rest = s₀.rest
  disk : DiskBlocks s fl

section Mount

variable {Q : Unit → Kernel → Prop}

/-- Write to a page that is not on the list. -/
theorem wp_put {f : Mem → Mem} (h : Mounting s₀ s fl) (hp : Spare p fl)
    (hw : ∀ m, Within m (f m) p)
    (hok : ∀ s', Mounting s₀ s' fl → Q () s') :
    Wp bad E (onMem f) Q s := by
  apply wp_scribble h.pool hp.aligned hp.out (hw s.mem)
  intro s' hr _ hp'
  exact hok s' ⟨hp', hr.trans h.rest, h.disk.tail hr fun _ hq => hq⟩

/-- Take a page. -/
theorem wp_grab {Q : Nat → Kernel → Prop} (h : Mounting s₀ s fl)
    (hroom : Room bad (n + 1) fl)
    (hok : ∀ p t s', fl = p :: t → Mounting s₀ s' t → Spare p t →
      Room bad n t → Q p s') : Wp bad E allocPage Q s := by
  apply wp_pop h.pool hroom
  intro p t s' hcons hr _ hp' hroom'
  have hnd := h.pool.nodup
  have hpage := h.pool.page p (by rw [hcons]; exact List.mem_cons_self ..)
  rw [hcons] at hnd
  apply hok p t s' hcons _ ⟨hpage.aligned, (List.nodup_cons.mp hnd).1⟩ hroom'
  refine ⟨hp', hr.trans h.rest, h.disk.tail hr ?_⟩
  intro q hq
  rw [hcons]
  exact List.mem_cons_of_mem _ hq

/-- Write a block of the disk. -/
theorem wp_block {buffer b : Nat} (h : Mounting s₀ s fl)
    (hb : b < ramdisk0Block) (hok : ∀ s', Mounting s₀ s' fl → Q () s') :
    Wp bad E (ramdisk0Input buffer b) Q s := by
  unfold ramdisk0Input memcpy
  rw [if_neg (Nat.not_le.mpr hb), wp_bind, wp_get]
  exact wp_put h (h.disk.spare hb)
    (fun m => within_copy (Nat.le_refl _) (Nat.le_refl _)) hok

end Mount

/-- Mounting takes three pages. -/
theorem wp_rfsDoMount {dev : Nat} (h : Mounting s₀ s fl)
    (hroom : Room bad (n + 3) fl) :
    Wp bad E (rfsDoMount dev) (fun _ s' => ∃ tk fl', fl = tk ++ fl' ∧
      tk.length = 3 ∧ Mounting s₀ s' fl') s := by
  unfold rfsDoMount allocFs
  simp only [sd, sw, memset, memcpy]
  rw [wp_bind, wp_bind]
  apply wp_grab h hroom
  intro fs t₁ _ hcons₁ h hfs hroom₁
  rw [wp_bind]
  refine wp_put h hfs (fun _ => within_store (by omega) (by omega)) ?_
  intro _ h
  rw [wp_pure]
  iterate 2
    rw [wp_bind]
    refine wp_put h hfs (fun _ => within_store (by omega) (by omega)) ?_
    intro _ h
  rw [wp_bind]
  apply wp_grab h hroom₁
  intro buffer t₂ _ hcons₂ h hbuf hroom₂
  rw [hcons₂] at hfs
  have hfs := hfs.tail
  iterate 5
    rw [wp_bind]
    refine wp_put h hfs (fun _ => within_store (by omega) (by omega)) ?_
    intro _ h
  rw [wp_bind]
  refine wp_put h hbuf
    (fun _ => within_copy (Nat.le_refl _) (Nat.le_refl _)) ?_
  intro _ h
  rw [wp_bind]
  apply wp_block h (by decide)
  intro _ h
  rw [wp_bind]
  apply wp_grab h hroom₂
  intro freemap t₃ _ hcons₃ h hmap _
  rw [hcons₃] at hfs hbuf
  have hfs := hfs.tail
  have hbuf := hbuf.tail
  rw [wp_bind]
  refine wp_put h hfs (fun _ => within_store (by omega) (by omega)) ?_
  intro _ h
  rw [wp_bind]
  refine wp_put h hmap
    (fun _ => within_fill (Nat.le_refl _) (Nat.le_refl _)) ?_
  intro _ h
  rw [wp_bind]
  refine wp_put h hmap (fun _ => within_store (by omega) (by omega)) ?_
  intro _ h
  rw [wp_bind]
  refine wp_put h hbuf
    (fun _ => within_copy (Nat.le_refl _) (Nat.le_refl _)) ?_
  intro _ h
  rw [wp_bind]
  apply wp_block h (by decide)
  intro _ h
  iterate 4
    rw [wp_bind]
    refine wp_put h hbuf (fun _ => within_store (by omega) (by omega)) ?_
    intro _ h
  rw [wp_bind]
  apply (wp_forRange (fun _ s' => Mounting s₀ s' t₃) h ?_).mono
  · intro _ _ h
    iterate 5
      rw [wp_bind]
      refine wp_put h hbuf (fun _ => within_store (by omega) (by omega)) ?_
      intro _ h
    rw [wp_bind]
    apply wp_block h (by decide)
    intro _ h
    iterate 2
      rw [wp_bind]
      refine wp_put h hbuf (fun _ => within_store (by omega) (by omega)) ?_
      intro _ h
    rw [wp_bind]
    apply wp_block h (by decide)
    intro _ h
    rw [wp_pure]
    refine ⟨[fs, buffer, freemap], t₃, ?_, rfl, h⟩
    rw [hcons₁, hcons₂, hcons₃]
    rfl
  · intro j hj s' h
    have hin : rfsBlknInode + (j + 1) < ramdisk0Block := by
      simp only [rfsMaxInodeNum, rfsBlknInode, ramdisk0Block] at hj ⊢
      omega
    exact wp_block h hin fun _ h => h

/-- `fs_init`, once the disk is taken: five pages. -/
theorem wp_mountDisk (h : Mounting s₀ s fl) (hroom : Room bad (n + 5) fl) :
    Wp bad E (do let pdev ← devInitRamdisk0; vfsMount pdev) (fun _ s' =>
      ∃ tk fl', fl = tk ++ fl' ∧ tk.length = 5 ∧ Mounting s₀ s' fl') s := by
  unfold devInitRamdisk0
  simp only [sd, sw]
  rw [wp_bind, wp_bind]
  apply wp_grab h hroom
  intro pdev t₁ _ hcons₁ h hpdev hroom₁
  rw [wp_bind]
  refine wp_put h hpdev (fun _ => within_store (by omega) (by omega)) ?_
  intro _ h
  rw [wp_bind]
  apply wp_grab h hroom₁
  intro pd t₂ _ hcons₂ h hpd hroom₂
  rw [hcons₂] at hpdev
  have hpdev := hpdev.tail
  iterate 2
    rw [wp_bind]
    refine wp_put h hpd (fun _ => within_store (by omega) (by omega)) ?_
    intro _ h
  rw [wp_bind]
  refine wp_put h hpdev (fun _ => within_store (by omega) (by omega)) ?_
  intro _ h
  unfold vfsMount ld sd
  simp only [wp_bind, wp_get, wp_pure]
  apply (wp_rfsDoMount h hroom₂).mono
  intro fs s₃ hres
  obtain ⟨tk, fl', htk, hlen, h⟩ := hres
  have hout : Spare pdev fl' := by
    refine ⟨hpdev.aligned, fun hmem => hpdev.out ?_⟩
    rw [htk]
    exact List.mem_append_right _ hmem
  refine wp_put h hout (fun _ => within_store (by omega) (by omega)) ?_
  intro _ h
  refine ⟨pdev :: pd :: tk, fl', ?_, ?_, h⟩
  · rw [hcons₁, hcons₂, htk]
    rfl
  · rw [List.length_cons, List.length_cons, hlen]

/-- `fs_init` takes 133 pages. -/
theorem wp_fsInit (hp : Pool s fl) (hd : Descending fl)
    (hroom : Room bad (n + 133) fl) :
    Wp bad E fsInit (fun _ s' => ∃ tk fl', fl = tk ++ fl' ∧
      tk.length = 133 ∧ Pool s' fl' ∧
      s'.rest = { s with ramdisk0BaseAddr := s'.ramdisk0BaseAddr }.rest) s := by
  unfold fsInit devInit
  rw [wp_bind, wp_bind]
  have hlen : 128 ≤ fl.length ∨ bad (.alloc 0) :=
    hroom.imp_left fun h => by omega
  apply (wp_initRamdisk0 hp hlen).mono
  intro _ s₁ h₁
  have hroom₁ : Room bad (n + 5) (fl.drop ramdisk0Block) := by
    rcases hroom with h | h
    · left
      rw [List.length_drop]
      simp only [ramdisk0Block]
      omega
    · exact Or.inr h
  rw [← wp_bind]
  apply (wp_mountDisk ⟨h₁.pool, rfl, h₁.blocks hp hd⟩ hroom₁).mono
  intro _ s₂ hres
  obtain ⟨tk, fl', htk, hlen₂, h₂⟩ := hres
  have hbase : s₂.rest.ramdisk0BaseAddr = s₁.rest.ramdisk0BaseAddr := by
    rw [h₂.rest]
  refine ⟨fl.take ramdisk0Block ++ tk, fl', ?_, ?_, h₂.pool, ?_⟩
  · rw [List.append_assoc, ← htk, List.take_append_drop]
  · obtain ⟨hlt, _⟩ := List.getElem?_eq_some_iff.mp h₁.base
    rw [List.length_append, List.length_take, hlen₂]
    simp only [ramdisk0Block] at hlt ⊢
    omega
  · rw [h₂.rest, h₁.rest]
    exact congrArg (fun b => ({ s with ramdisk0BaseAddr := b } : Kernel).rest)
      hbase.symm

-- ==== up to the process

/-- The pages `pmm_init` puts on the list, lowest first. -/
def Config.pool (cfg : Config) : List Nat :=
  poolPages (roundUp cfg.kernelEnd pgSize)
    (min pkeMaxAllowableRam cfg.memSize + dramBase)

/-- The kernel before its first process, with `fl` left of the pool. -/
structure Bare (cfg : Config) (s : Kernel) (fl : List Nat) : Prop where
  pool : Pool s fl
  ranges : Ranges cfg s
  procs : ∀ i, s.procs i = { blankProcess with status := .free, pid := i }
  current : s.current = none
  head : s.readyQueueHead = none
  ufree : s.gUfreePage = userFreeAddressStart
  files : (s.hostFiles : Nat) = 3
  descending : Descending fl
  length : cfg.pool.length ≤ fl.length + 199

/-- The pages the pool has, or that its shortage is not our concern. -/
def Fits (bad : Event → Prop) (E : Halt → Kernel → Prop) (cfg : Config)
    (n : Nat) : Prop :=
  n ≤ cfg.pool.length ∨ (bad (.alloc 0) ∧ ∀ e s', E e s')

theorem Fits.room (h : Fits bad E cfg n) : Room bad n cfg.pool.reverse := by
  rcases h with h | h
  · left
    rw [List.length_reverse]
    exact h
  · exact Or.inr h.1

/-- A pool that is not empty has the kernel below it. -/
theorem Config.fits (cfg : Config) (h : 1 ≤ cfg.pool.length) :
    ¬ (cfg.memSize < cfg.kernelEnd - kernBase ∨
      pkeMaxAllowableRam < cfg.kernelEnd - kernBase) := by
  have hlo := cfg.end_pos
  have hround := roundUp_eq (by omega : 0 < cfg.kernelEnd) cfg.end_lt
  unfold Config.pool poolPages at h
  rw [List.length_map, List.length_range, hround] at h
  simp only [pgSize, kernBase, dramBase, pkeMaxAllowableRam] at h hlo ⊢
  omega

/-- What the stages of boot hand on to each other besides memory. -/
def bootView (s : Kernel) : Nat × Nat × Option Slot × Option Slot × Nat :=
  (s.freeMemStartAddr, s.freeMemEndAddr, s.current, s.readyQueueHead,
    s.gUfreePage)

theorem bootView_of_rest (h : s'.rest = s.rest) : bootView s' = bootView s := by
  show bootView s'.rest = bootView s.rest
  rw [h]

/-- Memory and free list are untouched by writes to other globals. -/
theorem Pool.congr (hp : Pool s fl) (hv : bootView s' = bootView s)
    (hm : s'.mem = s.mem) (hhead : s'.gFreeMemList = s.gFreeMemList) :
    Pool s' fl := by
  have hlo : s'.freeMemStartAddr = s.freeMemStartAddr :=
    congrArg Prod.fst hv
  have hhi : s'.freeMemEndAddr = s.freeMemEndAddr :=
    congrArg (fun v => v.2.1) hv
  exact (hp.heap.congr hlo hhi hm hhead).pool

/-- What is handed to the file system: the pool less the tables of the
kernel, and a process table without processes. -/
structure Started (cfg : Config) (tk : List Nat) (s : Kernel)
    (fl : List Nat) : Prop where
  pages : cfg.pool.reverse = tk ++ fl
  tables : tk.length ≤ 66
  pool : Pool s fl
  view : bootView s = (roundUp cfg.kernelEnd pgSize,
    min pkeMaxAllowableRam cfg.memSize + dramBase, none, none,
    userFreeAddressStart)
  procs : s.procs = fun i : Slot =>
    { blankProcess with status := .free, pid := i }
  files : (s.hostFiles : Nat) = 3

theorem Started.descending {tk : List Nat} (h : Started cfg tk s fl) :
    Descending fl := by
  have hd := descending_poolPages (roundUp cfg.kernelEnd pgSize)
    (min pkeMaxAllowableRam cfg.memSize + dramBase)
  change Descending cfg.pool.reverse at hd
  rw [h.pages] at hd
  exact hd.tail

theorem Started.count {tk : List Nat} (h : Started cfg tk s fl) :
    cfg.pool.length = tk.length + fl.length := by
  rw [← List.length_reverse, h.pages, List.length_append]

/-- Nothing that follows moves the bounds of the pool. -/
theorem ranges_of_view (hv : bootView s = (roundUp cfg.kernelEnd pgSize,
      min pkeMaxAllowableRam cfg.memSize + dramBase, none, none,
      userFreeAddressStart)) : Ranges cfg s := by
  have hround := roundUp_eq (by have := cfg.end_pos; omega : 0 < cfg.kernelEnd)
    cfg.end_lt
  have hmin : min pkeMaxAllowableRam cfg.memSize ≤ pkeMaxAllowableRam :=
    Nat.min_le_left ..
  have hstart : s.freeMemStartAddr = roundUp cfg.kernelEnd pgSize :=
    congrArg Prod.fst hv
  have hstop : s.freeMemEndAddr
      = min pkeMaxAllowableRam cfg.memSize + dramBase :=
    congrArg (fun v => v.2.1) hv
  refine ⟨?_, ?_⟩
  · rw [hstart, hround]
    omega
  · rw [hstop]
    simp only [physTop]
    omega

/-- The stages of `s_start` before the file system: memory, kernel page
table and process table. -/
def bootToDisk (cfg : Config) : K Unit := do
  modify fun s => { s with csr := { s.csr with satp := 0 } }
  pmmInit cfg.kernelEnd
  kernVmInit cfg.etext
  modify fun s => { s with
    csr := { s.csr with satp := makeSatp s.gKernelPagetable } }
  initProcPool

theorem wp_bootToDisk (hfit : Fits bad E cfg 67) :
    Wp bad E (bootToDisk cfg)
      (fun _ s' => ∃ tk fl, Started cfg tk s' fl) cfg.init := by
  unfold bootToDisk
  rw [wp_bind, wp_modify, wp_bind]
  apply (wp_pmmInit cfg.end_pos.le cfg.end_lt ?_).mono
  · intro _ s₁ hres
    obtain ⟨hr₁, hp₁⟩ := hres
    have hv₁ : bootView s₁ = (roundUp cfg.kernelEnd pgSize,
        min pkeMaxAllowableRam cfg.memSize + dramBase, none, none,
        userFreeAddressStart) := bootView_of_rest hr₁
    have hstart : s₁.freeMemStartAddr = roundUp cfg.kernelEnd pgSize :=
      congrArg Prod.fst hv₁
    have hstop : s₁.freeMemEndAddr
        = min pkeMaxAllowableRam cfg.memSize + dramBase :=
      congrArg (fun v => v.2.1) hv₁
    rw [hstart, hstop] at hp₁
    change Pool s₁ cfg.pool.reverse at hp₁
    rw [wp_bind]
    apply (wp_kernVmInit hp₁ (ranges_of_view hv₁) hfit.room).mono
    intro _ s₂ hres
    obtain ⟨tk, fl, htk, hlen, hp₂, hr₂⟩ := hres
    have hv₂ : bootView s₂ = bootView s₁ :=
      Eq.trans (bootView_of_rest hr₂) rfl
    rw [wp_bind, wp_modify]
    unfold initProcPool
    rw [wp_modify]
    refine ⟨tk, fl, htk, hlen, hp₂.congr (by rfl) (by rfl) (by rfl),
      hv₂.trans hv₁, rfl, ?_⟩
    show (s₂.hostFiles : Nat) = 3
    have hfiles₂ : s₂.hostFiles = s₁.hostFiles :=
      (congrArg Kernel.hostFiles hr₂ :)
    rw [hfiles₂, hostFiles_eq hr₁]
    rfl
  · intro hsmall s'
    rcases hfit with h | h
    · exact absurd hsmall (cfg.fits (by omega))
    · exact h.2 _ _

/-- The first stages of `s_start`: memory, kernel page table, process
table and file system. -/
theorem wp_bootBare (hfit : Fits bad E cfg (n + 199)) (hn : 1 ≤ n) :
    Wp bad E (do
      modify fun s => { s with csr := { s.csr with satp := 0 } }
      pmmInit cfg.kernelEnd
      kernVmInit cfg.etext
      modify fun s => { s with
        csr := { s.csr with satp := makeSatp s.gKernelPagetable } }
      initProcPool
      fsInit) (fun _ s' => ∃ fl, Bare cfg s' fl ∧ Room bad n fl) cfg.init := by
  have hstages : Wp bad E (do bootToDisk cfg; fsInit)
      (fun _ s' => ∃ fl, Bare cfg s' fl ∧ Room bad n fl) cfg.init := by
    have hfit₁ : Fits bad E cfg 67 := hfit.imp_left fun h => by omega
    rw [wp_bind]
    apply (wp_bootToDisk hfit₁).mono
    intro _ s₁ hres
    obtain ⟨tk, fl, hst⟩ := hres
    have hcount := hst.count
    have htables := hst.tables
    have hroom : Room bad (n + 133) fl := by
      apply hfit.room.less
      rw [List.length_reverse]
      omega
    apply (wp_fsInit hst.pool hst.descending hroom).mono
    intro _ s₂ hres
    obtain ⟨tk₂, fl₂, htk₂, hlen₂, hp₂, hr₂⟩ := hres
    have hlen : fl.length = 133 + fl₂.length := by
      rw [htk₂, List.length_append, hlen₂]
    have hv : bootView s₂ = _ := (bootView_of_rest hr₂).trans hst.view
    have hprocs : s₂.rest.procs = fun i : Slot =>
        { blankProcess with status := .free, pid := i } := by
      rw [hr₂]
      exact hst.procs
    have hfiles : s₂.hostFiles = s₁.hostFiles :=
      (congrArg Kernel.hostFiles hr₂ :)
    have hdesc := hst.descending
    rw [htk₂] at hdesc
    refine ⟨fl₂, ⟨hp₂, ranges_of_view hv, congrFun hprocs, ?_, ?_, ?_,
      by rw [hfiles]; exact hst.files, hdesc.tail, by omega⟩, hroom.less (by omega)⟩
    · exact congrArg (fun v => v.2.2.1) hv
    · exact congrArg (fun v => v.2.2.2.1) hv
    · exact congrArg (fun v => v.2.2.2.2) hv
  unfold bootToDisk at hstages
  simp only [wp_bind] at hstages ⊢
  exact hstages

-- ==== the first process

theorem Bare.noProcess (hb : Bare cfg s fl) : NoProcess s where
  current := hb.current
  head := hb.head
  free i := by rw [hb.procs]

/-- What loading the application has to leave, besides a space in
order: `X`, which may speak of everything but the content of frames. -/
structure Loads (bad : Event → Prop) (E : Halt → Kernel → Prop)
    (cfg : Config) (need : Nat) (heap : Nat → Nat → Prop)
    (X : Kernel → (Nat → Owner) → List Nat → Prop) : Prop where
  load : ∀ s own fl, Heap s own fl → Ranges cfg s →
    Space cfg BelowStack s own 0 (fun _ _ => False) →
    (s.procs 0).totalMappedRegion = 3 → Room bad need fl →
    (s.hostFiles : Nat) = 3 → Descending fl →
    cfg.pool.length ≤ fl.length + 211 →
    Wp bad E (loadBincode cfg.app 0) (fun _ s' => ∃ own' fl',
      Heap s' own' fl' ∧ Touches 0 s own s' own' ∧
      Space cfg BelowStack s' own' 0 heap ∧ X s' own' fl') s
  keep : ∀ s s' own fl, Heap s own fl →
    Space cfg BelowStack s own 0 heap → X s own fl →
    (∀ i, (s'.procs i).fixed = (s.procs i).fixed) →
    s'.hostFiles = s.hostFiles →
    (∀ p, p % pgSize = 0 → (∀ j v, own p ≠ .frame j v) → own p ≠ .code →
      Agree s.mem s'.mem p (p + 4096)) → X s' own fl

/-- The machine as boot leaves it: user code of slot 0 runs, and no other
slot is in use. -/
structure Booted (cfg : Config) (heap : Nat → Nat → Prop) (s : Kernel)
    (own : Nat → Owner) (fl : List Nat) : Prop where
  sys : Sys cfg (fun _ => heap) s own fl [] 0
  alone : ∀ i, i ≠ 0 → (s.procs i).status = .free
  parent : ∀ i, (s.procs i).parent = none
  pid : ∀ i, (s.procs i).pid = i.val
  ufree : s.gUfreePage = userFreeAddressStart
  unshared : ∀ p, own p ≠ .code

/-- Building the first process and loading the application. -/
theorem wp_loadUserProgram {need : Nat} {heap : Nat → Nat → Prop}
    {X : Kernel → (Nat → Owner) → List Nat → Prop}
    (hload : Loads bad E cfg need heap X) (hb : Bare cfg s fl)
    (hroom : Room bad (need + 13) fl) :
    Wp bad E (loadUserProgram cfg) (fun i s' => i = 0 ∧ ∃ own' fl',
      KInv cfg BelowStack s' own' fl' (· = 0) (fun _ => heap) ∧
      s'.gUfreePage = s.gUfreePage ∧ (∀ p, own' p ≠ .code) ∧
      X s' own' fl') s := by
  unfold loadUserProgram allocProcess
  rw [wp_bind, wp_bind, wp_get, hb.noProcess.freeSlot]
  simp only []
  rw [wp_bind]
  have haside : Aside cfg s.hostFiles fl := by
    rw [hb.files]
    exact Descending.aside (k := 0) hb.descending (Nat.zero_le 8) (Or.inr rfl)
  apply ((leaves_buildProcess hostFiles_blind cfg (hostFiles_account 0)).wp
    (wp_buildProcess (P := BelowStack) hb.pool.heap hb.ranges haside
      (hroom.imp_left fun h => by omega))).mono
  intro _ s₁ hres
  obtain ⟨⟨own₁, fl₁, hbuilt, hsuffix, _⟩, hfiles⟩ := hres
  rw [wp_pure, wp_bind]
  have hlen := hbuilt.length
  have hbare := hb.length
  apply (hload.load s₁ own₁ fl₁ hbuilt.pages (hb.ranges.congr hbuilt.touches.apart)
    hbuilt.space hbuilt.total (hroom.less (by omega))
    (by rw [hfiles]; exact hb.files) (hb.descending.suffix hsuffix)
    (by omega)).mono
  intro _ s₂ hres
  obtain ⟨own₂, fl₂, hh₂, ht₂, hS₂, hX⟩ := hres
  rw [wp_pure]
  have ht := hbuilt.touches.trans ht₂
  -- every page in use belongs to slot 0
  have hcases : ∀ p, own₂ p = .free ∨ own₂ p = .held ∨
      (own₂ p).tag = some (0 : Slot).val := by
    intro p
    have hbare : bareOwn fl p = .free ∨ bareOwn fl p = .held := by
      unfold bareOwn
      by_cases hmem : p ∈ fl
      · exact Or.inl (if_pos hmem)
      · exact Or.inr (if_neg hmem)
    rcases hbare with hfree | hheld
    · exact ht.yield p (Or.inl hfree)
    · rw [ht.keep p (by rw [hheld]; exact Owner.noConfusion)
        (by rw [hheld]; exact nofun)]
      exact Or.inr (Or.inl hheld)
  refine ⟨rfl, own₂, fl₂, ⟨hh₂, hb.ranges.congr ht.apart, ?_, ?_⟩,
    ufree_of_apart ht.apart, ?_, hX⟩
  · intro i hi
    rw [hi]
    exact hS₂
  · intro p i hp
    rcases hcases p with h | h | h
    · rw [h] at hp
      cases hp
    · rw [h] at hp
      cases hp
    · rw [h] at hp
      exact ⟨0, Option.some.inj hp, rfl⟩
  · intro p hcode
    have h := hcases p
    rw [hcode] at h
    rcases h with h | h | h
    · cases h
    · cases h
    · cases h

theorem quiet_loadUserProgram (cfg : Config) : Quiet (loadUserProgram cfg) := by
  have halloc : Quiet (allocProcess cfg) := by
    unfold allocProcess
    apply leaves_get.bind
    intro s
    cases freeSlot s with
    | none => exact leaves_panic (by decide)
    | some i => exact (leaves_buildProcess sched_blind cfg (sched_account i)).bind fun _ => leaves_pure i
  unfold loadUserProgram
  exact halloc.bind fun i => (leaves_loadBincode sched_blind sched_files cfg.app i).bind fun _ =>
    leaves_pure i

/-- `s_start`. -/
theorem wp_sStartSpace {need : Nat} {heap : Nat → Nat → Prop}
    {X : Kernel → (Nat → Owner) → List Nat → Prop}
    (hload : Loads bad E cfg need heap X)
    (hfit : Fits bad E cfg (need + 212)) :
    Wp bad E (sStart cfg) (fun _ s' => ∃ own fl,
      Booted cfg heap s' own fl ∧ X s' own fl) cfg.init := by
  have hbare := wp_bootBare (n := need + 13) hfit (by omega)
  suffices hrest : ∀ s fl, Bare cfg s fl → Room bad (need + 13) fl →
      Wp bad E (do
        let i ← loadUserProgram cfg
        insertToReadyQueue i
        schedule cfg) (fun _ s' => ∃ own fl,
          Booted cfg heap s' own fl ∧ X s' own fl) s by
    unfold sStart
    simp only [wp_bind] at hbare hrest ⊢
    refine hbare.mono fun _ _ h => h.mono fun _ _ h => h.mono fun _ _ h =>
      h.mono fun _ _ h => h.mono fun _ _ h => h.mono fun _ s hres => ?_
    obtain ⟨fl, hb, hroom⟩ := hres
    exact hrest s fl hb hroom
  intro s₀ fl₀ hb hroom
  rw [wp_bind]
  apply ((quiet_loadUserProgram cfg).wp
    (wp_loadUserProgram hload hb hroom)).mono
  intro i s₁ hres
  obtain ⟨⟨rfl, own, fl, hK, hu₁, hcode, hX⟩, hv₁⟩ := hres
  have he := hb.noProcess.congr hv₁
  -- the process table is as `init_proc_pool` left it
  have hfields : ∀ i, (s₁.procs i).schedFields
      = (.free, none, none, i.val) := by
    intro i
    rw [schedFields_eq hv₁, hb.procs]
    rfl
  rw [wp_bind]
  have hnil : ReadyQueue s₁ [] := he.head
  apply ((keeps_insertToReadyQueue hostFiles_queue 0).wp
    ((still_insertToReadyQueue 0).wp (wp_insertToReadyQueue hnil))).mono
  intro _ s₂ hres
  obtain ⟨⟨hins, hv₂⟩, hfiles₂⟩ := hres
  rw [if_neg List.not_mem_nil] at hins
  have hq : Queued s₂ [0] [] := he.queued.enqueue hins
  have hstatus : ∀ i, i ≠ 0 → (s₂.procs i).status = .free := by
    intro i hi
    rw [hins.status, if_neg hi]
    exact congrArg Prod.fst (hfields i)
  have huse : ∀ i, InUse s₂ i → i = 0 := by
    intro i hi
    by_contra hne
    exact hi (hstatus i hne)
  have hK₂ := hK.still hv₂
  apply ((keeps_schedule hostFiles_switch cfg).wp
    (wp_scheduleSpace hK₂ hq huse (by simp))).mono
  intro _ s₃ hres
  obtain ⟨⟨hK₃, hidle, hprocs, h, t, hht, hr⟩, hfiles₃⟩ := hres
  obtain ⟨rfl, rfl⟩ := List.cons.inj hht
  have huse₃ : ∀ i, InUse s₃ i ↔ i = 0 := by
    intro i
    constructor
    · intro hi
      exact huse i ((hidle.inUse i).mp hi)
    · rintro rfl
      show (s₃.procs 0).status ≠ .free
      rw [hr.ready]
      exact ProcStatus.noConfusion
  have hu : s₃.gUfreePage = userFreeAddressStart := by
    rw [hidle.ufree, ufree_of_view hv₂, hu₁, hb.ufree]
  refine ⟨own, fl, ⟨⟨hK₃.built_congr huse₃, hr, List.not_mem_nil, ?_, ?_⟩,
    ?_, ?_, ?_, hu, hcode⟩, ?_⟩
  · rw [hu]
    decide
  · rw [hu]
    decide
  · intro i hi
    rw [hprocs]
    exact hstatus i hi
  · intro i
    rw [hprocs]
    have h := congrArg Process.parent (fixed_of_view hv₂ i)
    exact Eq.trans h (congrArg (fun v => v.2.2.1) (hfields i))
  · intro i
    rw [hprocs]
    have h := congrArg Process.pid (fixed_of_view hv₂ i)
    exact Eq.trans h (congrArg (fun v => v.2.2.2) (hfields i))
  · apply hload.keep s₁ s₃ own fl hK.pages (hK.space 0 rfl) hX
    · intro i
      rw [hidle.fixed, fixed_of_view hv₂]
    · rw [hfiles₃, hfiles₂]
    · intro p hp hframe hcode
      rw [← mem_of_view hv₂]
      exact hidle.agree p hp hframe hcode

-- ==== two readings

/-- Pages that are enough for boot: the loader takes at most three for a
segment. -/
def bootPages (cfg : Config) : Nat :=
  3 * (segments cfg.app).length + 213

/-- Boot with any application whose segments lie below the stack, as
long as nothing goes wrong. `H` admits an application that loses the
page of a segment. -/
theorem wp_bootSome (hE : ∀ e s', E e s')
    (hfit : bad (.alloc 0) ∨ bootPages cfg ≤ cfg.pool.length) (H : Prop)
    (hbelow : ∀ ph ∈ segments cfg.app, ph.Below)
    (hcount : (segments cfg.app).length ≤ 253)
    (hhole : Holeless (segments cfg.app) ∨ H) :
    Wp bad E (sStart cfg) (fun _ s' => ∃ own fl,
      Booted cfg (fun _ _ => H) s' own fl) cfg.init := by
  have hload : Loads bad E cfg (3 * (segments cfg.app).length + 1)
      (fun _ _ => H) fun _ _ _ => True := by
    refine ⟨?_, fun _ _ _ _ _ _ _ _ _ _ => trivial⟩
    intro s own fl hh _ hS htotal hroom _ _ _
    have hL := hS.loading htotal hh
    have hlast : ¬ LastZero s 0 := by
      intro hz
      have := hS.lastZero hz
      omega
    apply (wp_loadBincode hE H hh hL hbelow
      (by rw [htotal]; simp only [maxRegions]; omega)
      (hhole.imp_left fun h => ⟨hlast, h⟩) hroom).mono
    intro _ s' hres
    obtain ⟨own', fl', hh', ht', hS'⟩ := hres
    exact ⟨own', fl', hh', ht', hS'.mono fun _ _ h => h.elim False.elim id,
      trivial⟩
  have hpages : Fits bad E cfg (3 * (segments cfg.app).length + 1 + 212) :=
    hfit.symm.imp_right fun hbad => ⟨hbad, hE⟩
  apply (wp_sStartSpace hload hpages).mono
  intro _ s' hres
  obtain ⟨own, fl, hb, _⟩ := hres
  exact ⟨own, fl, hb⟩

/-- The first process has one segment of the application mapped and
recorded, the application is the fourth host file, and the pool has lost
no more than 214 pages, all from its front. -/
structure OneLoaded (cfg : Config) (ph : ElfProgHeader) (s : Kernel)
    (fl : List Nat) : Prop where
  total : (s.procs 0).totalMappedRegion = 4
  entry : regionAt s.mem (s.procs 0).mappedInfo 3
    = ⟨ph.vaddr, 1, ph.segment.word⟩
  files : (s.hostFiles : Nat) = 4
  descending : Descending fl
  length : cfg.pool.length ≤ fl.length + 214

/-- The segment is all that is recorded below the stack. -/
theorem OneLoaded.covers {ph : ElfProgHeader} {heap : Nat → Nat → Prop}
    (hone : OneLoaded cfg ph s fl) (hb : Booted cfg heap s own fl)
    {k va : Nat} (hva : va < userStackTop - pgSize)
    (hk : k < (s.procs 0).totalMappedRegion)
    (hc : (regionAt s.mem (s.procs 0).mappedInfo k).Covers va) :
    va / 4096 = ph.vaddr / 4096 := by
  have h3 := (hb.sys.inv.space 0 hb.sys.current).low hb.sys.inv.pages
    hb.sys.inv.ranges hva hc
  rw [hone.total] at hk
  obtain rfl : k = 3 := by omega
  exact (covers_one hone.entry).mp hc

/-- Boot with an application of one segment, on a machine with enough
memory: nothing can go wrong. -/
theorem wp_bootOne {ph : ElfProgHeader} (hone : OneSegment cfg.app ph)
    (hpool : 216 ≤ cfg.pool.length) :
    Wp bad E (sStart cfg) (fun _ s' => ∃ own fl,
      Booted cfg (fun _ _ => False) s' own fl ∧ OneLoaded cfg ph s' fl)
      cfg.init := by
  have hload : Loads bad E cfg 4 (fun _ _ => False)
      fun s _ fl => OneLoaded cfg ph s fl := by
    refine ⟨?_, ?_⟩
    · intro s own fl hh hr hS htotal hroom hfiles hdesc hlen
      apply (wp_loadOne hone hh hr hS htotal hroom
        (Or.inl (by rw [hfiles]; decide))).mono
      intro _ s' hres
      obtain ⟨hfiles', own', fl', hl⟩ := hres
      have hlen' := hl.length
      exact ⟨own', fl', hl.pages, hl.touches, hl.space, hl.total, hl.entry,
        by omega, hdesc.suffix hl.suffix, by omega⟩
    · intro s s' own fl hh hS hX hfixed hfiles hagree
      have hproc := SameSpace.of_fixed (hfixed 0)
      refine ⟨by rw [hproc.total]; exact hX.total, ?_,
        by rw [hfiles]; exact hX.files, hX.descending, hX.length⟩
      rw [hproc.mappedInfo, ← hX.entry]
      have hinfo := hS.regions.owner
      apply regionAt_agree _ (by decide)
      apply hagree
      · exact (tag_page (n := (0 : Slot)) hh (by rw [hinfo]; rfl)).aligned
      · intro j v
        rw [hinfo]
        exact Owner.noConfusion
      · rw [hinfo]
        exact Owner.noConfusion
  exact wp_sStartSpace hload (Or.inl hpool)

-- ==== a small machine

/-- `v` as `n` little-endian bytes. -/
def leBytes (n v : Nat) : List UInt8 :=
  (List.range n).map fun k => UInt8.ofNat (v / 256 ^ k)

/-- A smallest file the loader accepts: a file header and one program
header, for an empty segment at `vaddr` with the given flags. -/
def smallImage (flags vaddr : Nat) : HostFile :=
  leBytes 4 elfMagic ++ leBytes 20 0 ++ leBytes 8 vaddr ++ leBytes 8 64 ++
  leBytes 16 0 ++ leBytes 2 1 ++ leBytes 6 0 ++
  leBytes 4 elfProgLoad ++ leBytes 4 flags ++ leBytes 8 0 ++
  leBytes 8 vaddr ++ leBytes 8 vaddr ++ leBytes 8 0 ++ leBytes 8 0 ++
  leBytes 8 0

/-- The segment of such a file. -/
def smallSegment (flags vaddr : Nat) : ElfProgHeader :=
  { type := elfProgLoad, flags := flags, off := 0, vaddr := vaddr
    filesz := 0, memsz := 0 }

/-- The tiny application is code. -/
abbrev tinyImage (vaddr : Nat) : HostFile := smallImage segReadExec vaddr

abbrev tinySegment (vaddr : Nat) : ElfProgHeader := smallSegment segReadExec vaddr

/-- A machine with 128 MiB; `fits` is whether the number of files is taken
to lie in the page of the file table. -/
def smallMachine (fits : Bool) (app : HostFile) : Config where
  kernelEnd := 0x80005000
  etext := 0x80003000
  trapSecStart := 0x80002000
  smodeTrapVector := 0x80002100
  smodeTrapHandler := 0x80001000
  memSize := 128 * 1024 * 1024
  mem0 := fun _ => 0
  app := app
  filesInit := fun _ m => m
  tableFits := fits
  trap_aligned := by decide
  trap_base := by decide
  trap_near := by decide
  trap_text := by decide
  etext_aligned := by decide
  etext_end := by decide
  end_lt := by decide
  files_own := fun _ m lo hi _ => Agree.refl m lo hi

/-- The machine as the kernel is, with a tiny application. -/
abbrev tinyMachine (vaddr : Nat) : Config := smallMachine false (tinyImage vaddr)

theorem smallMachine_pool (fits : Bool) (app : HostFile) :
    (smallMachine fits app).pool.length = 32762 := by
  unfold Config.pool poolPages
  rw [List.length_map, List.length_range]
  show (min pkeMaxAllowableRam (128 * 1024 * 1024) + dramBase - 1
    - roundUp 0x80005000 pgSize) / pgSize = 32762
  decide

set_option maxRecDepth 4000 in
/-- The tiny application below the heap. -/
theorem tinyImage_low : OneSegment (tinyImage 0x10000) (tinySegment 0x10000) :=
  ⟨by decide, by decide, by decide, by decide, rfl,
    ⟨by decide, by decide, by decide, Or.inl rfl⟩, ⟨by decide, by decide⟩⟩

set_option maxRecDepth 4000 in
/-- The tiny application where the heap starts. -/
theorem tinyImage_heap :
    OneSegment (tinyImage userFreeAddressStart) (tinySegment userFreeAddressStart) :=
  ⟨by decide, by decide, by decide, by decide, rfl,
    ⟨by decide, by decide, by decide, Or.inl rfl⟩, ⟨by decide, by decide⟩⟩

variable {fits : Bool} {app : HostFile} {ph : ElfProgHeader}

theorem smallMachine_pages (h : OneSegment app ph) :
    bootPages (smallMachine fits app) ≤ (smallMachine fits app).pool.length := by
  unfold bootPages
  rw [smallMachine_pool, show segments (smallMachine fits app).app = [_] from
    h.segments, List.length_singleton]
  decide

/-- The small machine boots. -/
theorem smallMachine_boots (h : OneSegment app ph) :
    Returns (sStart (smallMachine fits app)) (fun _ s => ∃ own fl,
      Booted (smallMachine fits app) (fun _ _ => False) s own fl ∧
      OneLoaded (smallMachine fits app) ph s fl)
      (smallMachine fits app).init :=
  wp_bootOne h (by rw [smallMachine_pool]; decide)

end Pke
