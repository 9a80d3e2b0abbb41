/-
Loading an image: what `elf_load` makes of an address space.

Every loadable segment gets one fresh page and one entry of the region
table. The entry is the first one whose address is 0, and that is the
next free one unless a segment was loaded at address 0 before: then the
entry of that segment is overwritten, its page stays mapped and nobody
records it, and from there on the last entry counted is an empty one.
`Loading` is the invariant with this in it; a lost page shows up as page
0 of the heap.
-/
import Pke.Proofs.Control
import Pke.Proofs.Build

namespace Pke

open ByteMem Traced

variable {bad : Event → Prop} {E : Halt → Kernel → Prop}
variable {cfg : Config} {s s' : Kernel} {own own' : Nat → Owner}
variable {fl fl' : List Nat} {i : Slot} {heap : Nat → Nat → Prop}
variable {f : HostFile} {ph : ElfProgHeader}

/-- The region lies below the user stack. -/
def BelowStack (r : MappedRegion) : Prop :=
  r.va + r.npages * pgSize ≤ userStackTop - pgSize

/-- The last entry counted has address 0. -/
def LastZero (s : Kernel) (i : Slot) : Prop :=
  (regionAt s.mem (s.procs i).mappedInfo
    ((s.procs i).totalMappedRegion - 1)).va = 0

instance (s : Kernel) (i : Slot) : Decidable (LastZero s i) :=
  inferInstanceAs (Decidable (_ = 0))

/-- A process while its image is loaded: only the last entry of the
region table can have address 0, and then page 0 is taken; the frames of
the image are the process's own. -/
structure Loading (cfg : Config) (s : Kernel) (own : Nat → Owner) (i : Slot)
    (heap : Nat → Nat → Prop) : Prop where
  space : Space cfg BelowStack s own i heap
  nonzero : ∀ k, k + 1 < (s.procs i).totalMappedRegion →
    (regionAt s.mem (s.procs i).mappedInfo k).va ≠ 0
  occupied : LastZero s i → leaf s.mem (s.procs i).pagetable 0 ≠ none
  fresh : ∀ k, 3 ≤ k → k < (s.procs i).totalMappedRegion → ∀ va w,
    (regionAt s.mem (s.procs i).mappedInfo k).Covers va →
    leaf s.mem (s.procs i).pagetable va = some w →
    own (pte2pa w) = .frame i (va / pgSize)

theorem Loading.mono {heap' : Nat → Nat → Prop} (hL : Loading cfg s own i heap)
    (hheap : ∀ v p, heap v p → heap' v p) : Loading cfg s own i heap' :=
  ⟨hL.space.mono hheap, hL.nonzero, hL.occupied, hL.fresh⟩

-- ==== finding an entry

theorem freeRegionIndex_eq {m : Mem} {base j : Nat} (hj : j < maxRegions)
    (hzero : (regionAt m base j).va = 0)
    (hbefore : ∀ k < j, (regionAt m base k).va ≠ 0) :
    freeRegionIndex m base = j := by
  have hfind : (List.range maxRegions).find?
      (fun k => decide ((regionAt m base k).va = 0)) = some j := by
    rw [List.find?_range_eq_some]
    refine ⟨decide_eq_true hzero, List.mem_range.mpr hj, ?_⟩
    intro k hk
    rw [decide_eq_false (hbefore k hk)]
    rfl
  unfold freeRegionIndex
  rw [hfind]
  rfl

/-- Where the last entry has address 0, it is an entry of the image. -/
theorem Space.lastZero (hS : Space cfg BelowStack s own i heap) (hz : LastZero s i) :
    4 ≤ (s.procs i).totalMappedRegion := by
  have h3 := hS.three
  by_contra hlt
  have heq : (s.procs i).totalMappedRegion - 1 = 2 := by omega
  unfold LastZero at hz
  rw [heq, hS.system] at hz
  have htrap := cfg.trap_base
  have hzero : cfg.trapSecStart = 0 := hz
  rw [hzero] at htrap
  exact absurd htrap (Nat.not_lt_zero _)

/-- The entry a segment is recorded in. -/
theorem Loading.index {m : Mem} (hL : Loading cfg s own i heap)
    (hn : (s.procs i).totalMappedRegion < maxRegions)
    (hat : ∀ k < maxRegions, regionAt m (s.procs i).mappedInfo k
      = regionAt s.mem (s.procs i).mappedInfo k) :
    freeRegionIndex m (s.procs i).mappedInfo
      = if LastZero s i then (s.procs i).totalMappedRegion - 1
        else (s.procs i).totalMappedRegion := by
  have h3 := hL.space.three
  by_cases hz : LastZero s i
  · rw [if_pos hz]
    apply freeRegionIndex_eq (by omega)
    · rw [hat _ (by omega)]
      exact hz
    · intro k hk
      rw [hat k (by omega)]
      exact hL.nonzero k (by omega)
  · rw [if_neg hz]
    apply freeRegionIndex_eq hn
    · rw [hat _ hn, hL.space.regions.table.blank _ (Nat.le_refl _) hn]
    · intro k hk
      rw [hat k (by omega)]
      by_cases hlast : k + 1 < (s.procs i).totalMappedRegion
      · exact hL.nonzero k hlast
      · have heq : k = (s.procs i).totalMappedRegion - 1 := by omega
        rw [heq]
        exact hz

-- ==== one segment's page

/-- The permissions the loader maps every segment with. -/
abbrev imagePerm : Nat := protToType (protWrite ||| protRead ||| protExec) true

/-- The page of a segment, mapped and not recorded yet. -/
structure Placed (cfg : Config) (i : Slot) (heap : Nat → Nat → Prop) (va pa : Nat)
    (s : Kernel) (own : Nat → Owner) (fl : List Nat)
    (s' : Kernel) (own' : Nat → Owner) (fl' : List Nat) : Prop where
  rest : s'.rest = s.rest
  pages : Heap s' own' fl'
  touches : Touches i s own s' own'
  space : Space cfg BelowStack s' own' i fun v p =>
    heap v p ∨ (v = va / pgSize ∧ p = pa)
  new : leaf s.mem (s.procs i).pagetable va = none
  page : PageIn s pa
  frame : own' pa = .frame i (va / pgSize)
  keep : ∀ p, own p ≠ .free → own' p = own p
  leaves : ∀ a, a < 2 ^ 39 → leaf s'.mem (s.procs i).pagetable a =
    if a / 4096 = va / 4096 then some (pa2pte pa ||| imagePerm ||| pteV)
    else leaf s.mem (s.procs i).pagetable a
  table : Agree s.mem s'.mem (s.procs i).mappedInfo
    ((s.procs i).mappedInfo + 4096)
  length : fl.length ≤ fl'.length + 3
  suffix : fl' <:+ fl

theorem wp_elfAllocMb {va size : Nat} {Q : Nat → Kernel → Prop}
    (hh : Heap s own fl) (hS : Space cfg BelowStack s own i heap)
    (hal : va % pgSize = 0) (hva : va < userStackTop - pgSize)
    (hroom : Room bad 4 fl)
    (hok : (size < pgSize ∧ leaf s.mem (s.procs i).pagetable va = none)
      ∨ ∀ e s', E e s')
    (hnext : ∀ pa s' own' fl', size < pgSize →
      Placed cfg i heap va pa s own fl s' own' fl' → Q pa s') :
    Wp bad E (elfAllocMb i va size) Q s := by
  unfold elfAllocMb
  rw [wp_ite]
  refine ⟨?_, ?_⟩
  · intro hbig
    have hE := hok.resolve_left fun h => Nat.not_lt.mpr hbig h.1
    simp only [panic, wp_halt]
    exact hE _ _
  intro hsize
  rw [wp_bind]
  apply wp_take (i := i) (fun _ => .frame i (va / pgSize))
    (fun _ => ⟨Owner.noConfusion, Or.inr rfl⟩) hh hroom
  intro pa s₁ own₁ fl₁ h₁ room₁
  have hpage : PageIn s₁ pa := tag_page (n := i) h₁.pages (by rw [h₁.new]; rfl)
  have hpos : pa ≠ 0 := Nat.ne_of_gt (hpage.pos h₁.pages)
  have hlt := hpage.lt h₁.pages
  rw [if_neg hpos, wp_bind]
  unfold memset
  have hw : Within s₁.mem (fill s₁.mem pa 0 pgSize) pa :=
    within_fill (Nat.le_refl _) (Nat.le_refl _)
  apply wp_onMem h₁.pages (by rw [h₁.new]; rfl) hw
  intro s₂ hr₂ hm₂ hh₂ ht₂
  have hproc : s₂.procs i = s.procs i := by rw [procs_eq hr₂, procs_eq h₁.rest]
  -- the fresh page is no part of the space yet
  have hother : ∀ p, p % pgSize = 0 → own p ≠ .free →
      Agree s.mem s₂.mem p (p + 4096) := by
    intro p hp hused
    rw [hm₂, ← h₁.mem]
    apply hw.agree hp hpage.aligned
    intro heq
    rw [heq] at hused
    exact hused h₁.was
  have hagree : ∀ p, (∃ path, own p = .table i path) ∨ own p = .regions i →
      Agree s.mem s₂.mem p (p + 4096) := by
    intro p hp
    have htag : (own p).tag = some i.val := by
      rcases hp with ⟨path, h⟩ | h
      · rw [h]; rfl
      · rw [h]; rfl
    exact hother p (tag_page hh htag).aligned (tag_used htag)
  have hS₂ : Space cfg BelowStack s₂ own₁ i heap := by
    apply hS.frame (SameSpace.of_eq hproc)
    · intro p hp
      apply h₁.keep
      rcases hp with h | h
      · exact tag_used h
      · rw [h]; exact Owner.noConfusion
    · exact hagree
    · exact fun _ _ h => h
  have hleaf : ∀ a, leaf s₂.mem (s.procs i).pagetable a
      = leaf s.mem (s.procs i).pagetable a := fun a =>
    leaf_congr hS.regions.tables fun path t ht => hagree t (Or.inl ⟨path, ht⟩)
  rw [wp_bind, wp_proc, hproc, wp_bind]
  have hT₂ := hS₂.regions.tables
  rw [hproc] at hT₂
  have hmax : va < maxVa := by
    simp only [userStackTop, pgSize, maxVa] at hva ⊢
    omega
  apply (wp_userVmMap hal (by decide) (by simp only [pgSize]; omega) hh₂ hT₂
    room₁ ?_).mono
  · intro _ s₃ hres
    obtain ⟨own₃, fl₃, hg, hm, _, hlen⟩ := hres
    rw [wp_pure]
    apply hnext pa s₃ own₃ fl₃ (Nat.not_le.mp hsize)
    have h39 : va < 2 ^ 39 := Nat.lt_trans hmax (by decide)
    have hg' := hg
    have hm' := hm
    rw [← hproc] at hg' hm'
    refine ⟨?_, hg.heap, ?_, ?_, ?_, ?_, ?_, ?_, ?_, ?_, ?_, ?_⟩
    · rw [hg.rest, hr₂, h₁.rest]
    · exact (h₁.touches.trans ht₂).trans (hg.touches hh₂)
    · exact hS₂.mapHeap hh₂ hg' hm' hpage.aligned (by omega) (by decide)
        (by decide) h₁.new
    · rw [← hleaf va]
      exact hm.unmapped va h39 (inPages_one.mpr rfl)
    · exact hh.free_page h₁.was
    · exact hg.keep_used h₁.new Owner.noConfusion
    · intro p hp
      exact hg.keep_used (h₁.keep p hp) hp
    · intro a ha
      rw [hm.one ha, hleaf a]
    · have hinfo := hS.regions.owner
      have hinfo₁ := h₁.kept hinfo Owner.noConfusion
      apply (hagree _ (Or.inr hinfo)).trans
      apply hg.agree
      · exact (tag_page (n := i) hh (by rw [hinfo]; rfl)).aligned
      · rw [hinfo₁]; exact Owner.noConfusion
      · intro path
        rw [hinfo₁]
        exact Owner.noConfusion
    · have : fl.length = fl₁.length + 1 := by rw [h₁.head]; rfl
      omega
    · obtain ⟨tk, htk, -⟩ := hg.taken
      rw [h₁.head, htk]
      exact List.suffix_append (pa :: tk) fl₃
  · rcases hok with ⟨_, hnone⟩ | hE
    · refine Or.inl ⟨hmax, ?_⟩
      rw [hleaf va]
      exact hnone
    · refine Or.inr ⟨?_, hE⟩
      simp only [maxVa, pgSize] at hmax ⊢
      omega

-- ==== one segment

/-- The segment fits its page, its bytes are in the file, and its flags
are ones the loader knows. -/
structure SegmentFits (f : HostFile) (ph : ElfProgHeader) : Prop where
  sizes : ph.filesz ≤ ph.memsz
  memsz_lt : ph.memsz < pgSize
  in_file : preadCount f ph.memsz ph.off = ph.memsz
  flags : ph.flags = segReadExec ∨ ph.flags = segReadWrite

/-- The type the loader gives a segment. -/
def ElfProgHeader.segment (ph : ElfProgHeader) : SegType :=
  if ph.flags = segReadExec then .code else .data

theorem within_pread {m : Mem} {pa size off : Nat} (hsize : size < pgSize) :
    Within m (fun x =>
      if pa ≤ x ∧ x < pa + preadCount f size off then
        f.getD (off + (x - pa)) 0
      else m x) pa := by
  intro x hx
  have hcount : preadCount f size off ≤ size := Nat.min_le_left ..
  simp only [pgSize] at hsize
  show (if pa ≤ x ∧ x < pa + preadCount f size off then _ else m x) = m x
  rw [if_neg (by omega)]

/-- One more segment is loaded. -/
structure Loaded (cfg : Config) (i : Slot) (heap : Nat → Nat → Prop)
    (ph : ElfProgHeader) (s : Kernel) (own : Nat → Owner) (fl : List Nat)
    (s' : Kernel) (own' : Nat → Owner) (fl' : List Nat) : Prop where
  pages : Heap s' own' fl'
  touches : Touches i s own s' own'
  loading : Loading cfg s' own' i fun v p =>
    heap v p ∨ LastZero s i
  total : (s'.procs i).totalMappedRegion
    = (s.procs i).totalMappedRegion + 1
  last : LastZero s' i → ph.vaddr = 0 ∨ LastZero s i
  entry : ¬ LastZero s i → regionAt s'.mem (s'.procs i).mappedInfo
    (s.procs i).totalMappedRegion = ⟨ph.vaddr, 1, ph.segment.word⟩
  length : fl.length ≤ fl'.length + 3
  suffix : fl' <:+ fl

theorem ElfProgHeader.segment_image (ph : ElfProgHeader) :
    ph.segment.word = SegType.code.word ∨ ph.segment.word = SegType.data.word := by
  unfold ElfProgHeader.segment
  by_cases h : ph.flags = segReadExec
  · rw [if_pos h]
    exact Or.inl rfl
  · rw [if_neg h]
    exact Or.inr rfl

theorem ElfProgHeader.segment_holds {own : Nat → Owner} {v p : Nat}
    (h : own p = .frame i v) : ph.segment.Holds i v (own p) := by
  unfold ElfProgHeader.segment
  by_cases hf : ph.flags = segReadExec
  · rw [if_pos hf]
    exact Or.inl h
  · rw [if_neg hf]
    exact h

section Record

variable {pa j : Nat} {s₁ s₂ : Kernel} {own₁ : Nat → Owner}

theorem Placed.regionAt (hp : Placed cfg i heap ph.vaddr pa s own fl s₁ own₁ fl')
    (hL : Loading cfg s own i heap)
    (hag₂ : ∀ p, (∃ path, own₁ p = .table i path) ∨ own₁ p = .regions i →
      Agree s₁.mem s₂.mem p (p + 4096)) : ∀ k < maxRegions,
    regionAt s₂.mem (s.procs i).mappedInfo k
      = Pke.regionAt s.mem (s.procs i).mappedInfo k := by
  intro k hk
  have hinfo : own₁ (s.procs i).mappedInfo = .regions i := by
    rw [hp.keep _ (by rw [hL.space.regions.owner]; exact Owner.noConfusion)]
    exact hL.space.regions.owner
  exact regionAt_agree (hp.table.trans (hag₂ _ (Or.inr hinfo))) hk

theorem Placed.regions (hp : Placed cfg i heap ph.vaddr pa s own fl s₁ own₁ fl')
    (hr₂ : s₂.rest = s₁.rest)
    (hag₂ : ∀ p, (∃ path, own₁ p = .table i path) ∨ own₁ p = .regions i →
      Agree s₁.mem s₂.mem p (p + 4096)) :
    Regions s₂.mem own₁ i (s.procs i).pagetable (s.procs i).mappedInfo
      (s.procs i).totalMappedRegion
      (heapLeaf cfg own₁ i fun v p =>
    heap v p ∨ (v = ph.vaddr / pgSize ∧ p = pa)) := by
  have hproc : s₂.procs i = s.procs i := by rw [procs_eq hr₂, procs_eq hp.rest]
  have hS₂ : Space cfg BelowStack s₂ own₁ i fun v p =>
    heap v p ∨ (v = ph.vaddr / pgSize ∧ p = pa) := by
    apply hp.space.frame (SameSpace.of_eq (by rw [procs_eq hr₂]))
    · exact fun _ _ => rfl
    · exact hag₂
    · exact fun _ _ h => h
  have hR := hS₂.regions
  rw [hproc] at hR
  exact hR

theorem Placed.leaf (hp : Placed cfg i heap ph.vaddr pa s own fl s₁ own₁ fl')
    (hag₂ : ∀ p, (∃ path, own₁ p = .table i path) ∨ own₁ p = .regions i →
      Agree s₁.mem s₂.mem p (p + 4096)) {a : Nat} (ha : a < 2 ^ 39) :
    leaf s₂.mem (s.procs i).pagetable a =
      if a / 4096 = ph.vaddr / 4096 then some (pa2pte pa ||| imagePerm ||| pteV)
      else Pke.leaf s.mem (s.procs i).pagetable a := by
  have hT₁ := hp.space.regions.tables
  rw [procs_eq hp.rest] at hT₁
  rw [← hp.leaves a ha]
  exact leaf_congr hT₁ fun path t ht => hag₂ t (Or.inl ⟨path, ht⟩)

/-- A page of a recorded region was mapped before the segment was
placed, so it is another page. -/
theorem Placed.apart (hp : Placed cfg i heap ph.vaddr pa s own fl s₁ own₁ fl')
    (hL : Loading cfg s own i heap) {k a : Nat} (hva : ph.vaddr < 2 ^ 39)
    (hk : k < (s.procs i).totalMappedRegion)
    (hc : (Pke.regionAt s.mem (s.procs i).mappedInfo k).Covers a) :
    a / 4096 ≠ ph.vaddr / 4096 := by
  intro hpage
  obtain ⟨seg, hseg⟩ := hL.space.regions.table.kind k hk
  obtain ⟨w, hw, _⟩ := hL.space.regions.mapped k hk seg hseg a hc
  have ha : a < 2 ^ 39 :=
    Nat.lt_trans (hL.space.regions.table.covers_lt hk hc) (by decide)
  rw [leaf_page hva ha hpage, hp.new] at hw
  cases hw

/-- Memory after the segment was recorded in entry `j`. -/
structure Entered (cfg : Config) (i : Slot) (heap : Nat → Nat → Prop) (ph : ElfProgHeader)
    (j pa : Nat) (s : Kernel) (own : Nat → Owner) (m : Mem) : Prop where
  image : 3 ≤ j
  le : j ≤ (s.procs i).totalMappedRegion
  lost : j < (s.procs i).totalMappedRegion → LastZero s i
  next : ¬ LastZero s i → j = (s.procs i).totalMappedRegion
  prev : LastZero s i → j + 1 = (s.procs i).totalMappedRegion
  regions : Regions m own i (s.procs i).pagetable (s.procs i).mappedInfo
    ((s.procs i).totalMappedRegion + 1)
    (heapLeaf cfg own i fun v p =>
    heap v p ∨ LastZero s i)
  entry : ∀ k, k < (s.procs i).totalMappedRegion + 1 →
    (k = j ∧ regionAt m (s.procs i).mappedInfo k
      = ⟨ph.vaddr, 1, ph.segment.word⟩) ∨
    (k ≠ j ∧ k < (s.procs i).totalMappedRegion ∧
      regionAt m (s.procs i).mappedInfo k
        = regionAt s.mem (s.procs i).mappedInfo k) ∨
    (k ≠ j ∧ k = (s.procs i).totalMappedRegion ∧
      regionAt m (s.procs i).mappedInfo k = ⟨0, 0, 0⟩)
  leaves : ∀ a, a < 2 ^ 39 → leaf m (s.procs i).pagetable a =
    if a / 4096 = ph.vaddr / 4096 then some (pa2pte pa ||| imagePerm ||| pteV)
    else leaf s.mem (s.procs i).pagetable a

theorem ElfProgHeader.segment_user (ph : ElfProgHeader) :
    ¬ (ph.segment = .context ∨ ph.segment = .system) := by
  unfold ElfProgHeader.segment
  by_cases hf : ph.flags = segReadExec
  · rw [if_pos hf]
    exact nofun
  · rw [if_neg hf]
    exact nofun

theorem Placed.enter (hp : Placed cfg i heap ph.vaddr pa s own fl s₁ own₁ fl')
    (hL : Loading cfg s own i heap) (hh : Heap s own fl)
    (hn : (s.procs i).totalMappedRegion < maxRegions)
    (hal : ph.vaddr % pgSize = 0) (hva : ph.vaddr < userStackTop - pgSize)
    (hh₂ : Heap s₂ own₁ fl') (hr₂ : s₂.rest = s₁.rest)
    (hag₂ : ∀ p, (∃ path, own₁ p = .table i path) ∨ own₁ p = .regions i →
      Agree s₁.mem s₂.mem p (p + 4096))
    (hj : j = freeRegionIndex s₂.mem (s.procs i).mappedInfo) :
    Entered cfg i heap ph j pa s own₁ (regionStore s₂.mem (s.procs i).mappedInfo j
      ph.vaddr 1 ph.segment.word) := by
  have h3 := hL.space.three
  have hR₂ := hp.regions hr₂ hag₂
  have hat := hp.regionAt hL hag₂
  rw [hL.index hn hat] at hj
  simp only [userStackTop, pgSize] at hva
  have hv39 : ph.vaddr < 2 ^ 39 := by omega
  have hprev : LastZero s i → j + 1 = (s.procs i).totalMappedRegion := by
    intro hz
    rw [if_pos hz] at hj
    omega
  have hnext : ¬ LastZero s i → j = (s.procs i).totalMappedRegion := by
    intro hz
    rw [if_neg hz] at hj
    exact hj
  have hlost : j < (s.procs i).totalMappedRegion → LastZero s i := by
    intro hlt
    by_contra hz
    exact absurd (hnext hz) (Nat.ne_of_lt hlt)
  have himage : 3 ≤ j := by
    by_cases hz : LastZero s i
    · have := hL.space.lastZero hz
      have := hprev hz
      omega
    · rw [hnext hz]
      exact h3
  have hjn : j ≤ (s.procs i).totalMappedRegion := by
    by_cases hz : LastZero s i
    · have := hprev hz
      omega
    · rw [hnext hz]
  have hinfoal := (tag_page (n := i) hh₂ (by rw [hR₂.owner]; rfl)).aligned
  refine ⟨himage, hjn, hlost, hnext, hprev, ?_, ?_, ?_⟩
  · have hpalt : pa < 2 ^ 64 := Nat.lt_trans (hp.page.lt hh) (by decide)
    apply hR₂.record _ hn hjn hal
    · simp only [pgSize, maxVa]
      omega
    · intro k hk hkj a hc hin
      rw [hat k (by omega)] at hc
      exact hp.apart hL hv39 hk hc (inPages_one.mp hin)
    · intro a hin
      have hpage := inPages_one.mp hin
      refine ⟨pa2pte pa ||| imagePerm ||| pteV, ?_, ?_⟩
      · rw [hp.leaf hag₂ (by omega), if_pos hpage]
      · have hv : a / pgSize = ph.vaddr / pgSize := hpage
        rw [hv]
        apply regionLeaf_entry hp.page.aligned hpalt (by decide) (by decide)
        · exact ElfProgHeader.segment_holds hp.frame
        · exact fun hseg => absurd hseg ph.segment_user
        · exact fun _ => by decide
    · intro a w ha hw he hin
      rcases he with (⟨hv | hv, ho⟩ | hstray) | ⟨hlt, hc⟩
      · exact Or.inl ⟨Or.inl hv, ho⟩
      · exact absurd (inPages_one.mpr hv.1) hin
      · exact Or.inr hstray
      · -- the page of the entry overwritten is lost
        rw [hat j (by omega)] at hc
        rw [hp.leaf hag₂ ha, if_neg (hp.apart hL hv39 hlt hc)] at hw
        have hown := hL.fresh j himage hlt a w hc hw
        refine Or.inl ⟨Or.inr (hlost hlt), ?_, hL.space.imageLeaf himage hlt hc hw⟩
        rw [hp.keep _ (by rw [hown]; exact Owner.noConfusion)]
        exact hown
    · intro p hpp
      rcases hpp with ⟨path, h⟩ | rfl
      · exact hh₂.table_aligned path p h
      · exact hinfoal
  · intro k hk
    rcases hR₂.table.entry j ph.segment
      (by omega : ph.vaddr < 2 ^ 64) (by decide : 1 < 2 ^ 32) hn hk with
      h | ⟨hkj, hkn, he⟩ | h
    · exact Or.inl h
    · refine Or.inr (Or.inl ⟨hkj, hkn, ?_⟩)
      rw [he, hat k (by omega)]
    · exact Or.inr (Or.inr h)
  · intro a ha
    rw [← hp.leaf hag₂ ha]
    apply leaf_congr hR₂.tables
    intro path t ht
    apply (within_regionStore (by omega)).agree (hh₂.table_aligned path t ht)
      hinfoal
    intro heq
    rw [heq, hR₂.owner] at ht
    cases ht

/-- Recording the segment whose page was just placed. -/
theorem Loading.record (hL : Loading cfg s own i heap) (hh : Heap s own fl)
    (hal : ph.vaddr % pgSize = 0) (hva : ph.vaddr < userStackTop - pgSize)
    (hp : Placed cfg i heap ph.vaddr pa s own fl s₁ own₁ fl')
    (hen : Entered cfg i heap ph j pa s own₁ s'.mem)
    (hproc : s'.procs i = { s.procs i with
      totalMappedRegion := (s.procs i).totalMappedRegion + 1 })
    (hh' : Heap s' own₁ fl') (ht' : Touches i s own s' own₁) :
    Loaded cfg i heap ph s own fl s' own₁ fl' := by
  have h3 := hL.space.three
  have hj3 := hen.image
  have hjn := hen.le
  have hlost := hen.lost
  have hentry := hen.entry
  have hleaf := hen.leaves
  simp only [userStackTop, pgSize] at hva
  have hv39 : ph.vaddr < 2 ^ 39 := by omega
  have hpte : pte2pa (pa2pte pa ||| imagePerm ||| pteV) = pa :=
    entry_pa hp.page.aligned (Nat.lt_trans (hp.page.lt hh) (by decide))
      (by decide)
  have hfixed : ∀ k < 3, regionAt s'.mem (s.procs i).mappedInfo k
      = regionAt s.mem (s.procs i).mappedInfo k := by
    intro k hk
    rcases hentry k (by omega) with ⟨hkj, _⟩ | ⟨_, _, h⟩ | ⟨_, hkn, _⟩
    · omega
    · exact h
    · omega
  have hspace : Space cfg BelowStack s' own₁ i fun v p =>
    heap v p ∨ LastZero s i := by
    constructor
    case regions => rw [hproc]; exact hen.regions
    case kstack =>
      obtain ⟨k, hk, hkown⟩ := hL.space.kstack
      rw [hproc]
      refine ⟨k, hk, ?_⟩
      rw [hp.keep k (by rw [hkown]; exact Owner.noConfusion)]
      exact hkown
    case three =>
      rw [hproc]
      exact Nat.le_succ_of_le h3
    case stack => rw [hproc, hfixed 0 (by decide)]; exact hL.space.stack
    case context => rw [hproc, hfixed 1 (by decide)]; exact hL.space.context
    case system => rw [hproc, hfixed 2 (by decide)]; exact hL.space.system
    case image =>
      intro k hk3 hk
      rw [hproc] at hk ⊢
      rcases hentry k hk with ⟨_, he⟩ | ⟨_, hkn, he⟩ | ⟨_, _, he⟩
      · rw [he]
        refine ⟨ph.segment_image, ?_⟩
        show ph.vaddr + 1 * pgSize ≤ userStackTop - pgSize
        simp only [userStackTop, pgSize] at hal ⊢
        omega
      · rw [he]
        exact hL.space.image k hk3 hkn
      · rw [he]
        exact ⟨Or.inl rfl, Nat.zero_le _⟩
  have hlast : LastZero s' i → ph.vaddr = 0 ∨ LastZero s i := by
    intro hz'
    unfold LastZero at hz'
    rw [hproc] at hz'
    simp only [Nat.add_sub_cancel] at hz'
    rcases hentry _ (Nat.lt_succ_self _) with ⟨_, he⟩ | ⟨_, hkn, _⟩ | ⟨hkj, _, _⟩
    · rw [he] at hz'
      exact Or.inl hz'
    · exact absurd hkn (Nat.lt_irrefl _)
    · exact Or.inr (hlost (by omega))
  refine ⟨hh', ht', ⟨hspace, ?_, ?_, ?_⟩, ?_, hlast, ?_, ?_, ?_⟩
  · intro k hk
    rw [hproc] at hk ⊢
    rcases hentry k (by simp only at hk; omega) with ⟨hkj, he⟩ | ⟨hkj, hkn, he⟩ | ⟨_, hkn, _⟩
    · -- page 0 is taken once the last entry has address 0
      rw [he]
      intro hzero
      have hz := hlost (by simp only at hk; omega)
      have hv0 : ph.vaddr = 0 := hzero
      have hnew := hp.new
      rw [hv0] at hnew
      exact hL.occupied hz hnew
    · rw [he]
      by_cases hlt : k + 1 < (s.procs i).totalMappedRegion
      · exact hL.nonzero k hlt
      · intro hzero
        have heq : k = (s.procs i).totalMappedRegion - 1 := by omega
        have hz : LastZero s i := by
          unfold LastZero
          rw [← heq]
          exact hzero
        have := hen.prev hz
        omega
    · simp only at hk
      omega
  · intro hz'
    rw [hproc, hleaf 0 (by decide)]
    by_cases hpage : 0 / 4096 = ph.vaddr / 4096
    · rw [if_pos hpage]
      exact Option.some_ne_none _
    · rw [if_neg hpage]
      rcases hlast hz' with hv0 | hz
      · rw [hv0] at hpage
        exact absurd rfl hpage
      · exact hL.occupied hz
  · intro k hk3 hk a w hc hw
    rw [hproc] at hk hc hw
    rcases hentry k hk with ⟨_, he⟩ | ⟨_, hkn, he⟩ | ⟨_, _, he⟩
    · rw [he] at hc
      have hpage : a / 4096 = ph.vaddr / 4096 := inPages_one.mp hc
      rw [hleaf a (by omega), if_pos hpage] at hw
      have hv : a / pgSize = ph.vaddr / pgSize := hpage
      rw [← Option.some.inj hw, hpte, hv]
      exact hp.frame
    · rw [he] at hc
      have ha : a < 2 ^ 39 :=
        Nat.lt_trans (hL.space.regions.table.covers_lt hkn hc) (by decide)
      rw [hleaf a ha, if_neg (hp.apart hL hv39 hkn hc)] at hw
      have hown := hL.fresh k hk3 hkn a w hc hw
      rw [hp.keep _ (by rw [hown]; exact Owner.noConfusion)]
      exact hown
    · rw [he] at hc
      exact absurd hc not_covers_zero
  · rw [hproc]
  · intro hz
    rw [hproc]
    rcases hentry _ (Nat.lt_succ_self _) with ⟨_, h⟩ | ⟨hkj, _⟩ | ⟨hkj, _⟩
    · exact h
    · exact absurd (hen.next hz).symm hkj
    · exact absurd (hen.next hz).symm hkj
  · exact hp.length
  · exact hp.suffix

end Record

/-- The body of the loop of `elf_load`. -/
theorem wp_loadSegment (hh : Heap s own fl) (hL : Loading cfg s own i heap)
    (hn : (s.procs i).totalMappedRegion < maxRegions)
    (hal : ph.vaddr % pgSize = 0) (hva : ph.vaddr < userStackTop - pgSize)
    (hroom : Room bad 4 fl)
    (hok : (SegmentFits f ph ∧ leaf s.mem (s.procs i).pagetable ph.vaddr = none)
      ∨ ∀ e s', E e s') :
    Wp bad E (loadSegment f i ph) (fun st s' =>
      (st ≠ .ok ∧ ∀ e s', E e s') ∨ (st = .ok ∧ ∃ own' fl',
        Loaded cfg i heap ph s own fl s' own' fl')) s := by
  unfold loadSegment
  rw [wp_ite]
  refine ⟨?_, ?_⟩
  · intro hsz
    rw [wp_pure]
    refine Or.inl ⟨nofun, hok.resolve_left ?_⟩
    intro h
    exact absurd hsz (Nat.not_lt.mpr h.1.sizes)
  intro _
  rw [wp_ite]
  refine ⟨?_, ?_⟩
  · intro hwrap
    rw [wp_pure]
    refine Or.inl ⟨nofun, hok.resolve_left ?_⟩
    intro h
    have hlt := h.1.memsz_lt
    unfold u64 at hwrap
    simp only [userStackTop, pgSize] at hva hlt
    omega
  intro _
  rw [wp_bind]
  apply wp_elfAllocMb hh hL.space hal hva hroom
  · exact hok.imp_left fun h => ⟨h.1.memsz_lt, h.2⟩
  intro pa s₁ own₁ fl₁ hsize hp
  -- the bytes of the segment go to its page
  rw [wp_bind]
  unfold preadInto
  rw [wp_bind]
  have hpal := hp.page.aligned
  have hw : Within s₁.mem (fun x =>
      if pa ≤ x ∧ x < pa + preadCount f ph.memsz ph.off then
        f.getD (ph.off + (x - pa)) 0
      else s₁.mem x) pa := within_pread hsize
  have htag : (own₁ pa).tag = some i.val := by
    rw [hp.frame]
    rfl
  apply wp_onMem hp.pages htag hw
  intro s₂ hr₂ hm₂ hh₂ ht₂
  have hag₂ : ∀ p, (∃ path, own₁ p = .table i path) ∨ own₁ p = .regions i →
      Agree s₁.mem s₂.mem p (p + 4096) := by
    intro p hpp
    rw [hm₂]
    have hpt : (own₁ p).tag = some i.val := by
      rcases hpp with ⟨path, h⟩ | h
      · rw [h]; rfl
      · rw [h]; rfl
    apply hw.agree (tag_page hp.pages hpt).aligned hpal
    intro heq
    rw [heq, hp.frame] at hpp
    rcases hpp with ⟨path, h⟩ | h
    · cases h
    · cases h
  have hproc : s₂.procs i = s.procs i := by rw [procs_eq hr₂, procs_eq hp.rest]
  rw [wp_pure, wp_ite]
  refine ⟨?_, ?_⟩
  · intro hshort
    rw [wp_pure]
    refine Or.inl ⟨nofun, hok.resolve_left ?_⟩
    intro h
    exact hshort h.1.in_file
  intro _
  rw [wp_bind, wp_proc, hproc, wp_bind, wp_get]
  have hen := hp.enter hL hh hn hal hva hh₂ hr₂ hag₂ rfl
  generalize freeRegionIndex s₂.mem (s.procs i).mappedInfo = j at hen ⊢
  have hjlt : j < maxRegions := Nat.lt_of_le_of_lt hen.le hn
  have hinfo : (own₁ (s.procs i).mappedInfo).tag = some i.val := by
    rw [hen.regions.owner]
    rfl
  have hinfoal := (tag_page hh₂ hinfo).aligned
  have hfinish : ∀ seg : SegType, seg = ph.segment → Wp bad E (do
      setProc i fun q => { q with totalMappedRegion := q.totalMappedRegion + 1 }
      pure ElfStatus.ok) (fun st s' =>
      (st ≠ .ok ∧ ∀ e s', E e s') ∨ (st = .ok ∧ ∃ own' fl',
        Loaded cfg i heap ph s own fl s' own' fl'))
      { s₂ with
        mem := (regionStore s₂.mem (s.procs i).mappedInfo j ph.vaddr 1
          seg.word) } := by
    intro seg hseg
    have hws : Within s₂.mem (regionStore s₂.mem (s.procs i).mappedInfo j
        ph.vaddr 1 seg.word) (s.procs i).mappedInfo :=
      within_regionStore hjlt
    rw [wp_bind]
    apply wp_setProc (hh₂.within hinfoal (tag_used hinfo) hws)
    intro s₃ hp₃ hm₃ hh₃ ht₃
    rw [wp_pure]
    refine Or.inr ⟨rfl, own₁, fl₁, ?_⟩
    apply hL.record (j := j) hh hal hva hp _ _ hh₃
    · exact ((hp.touches.trans ht₂).trans
        (touches_within hinfoal hinfo hws)).trans ht₃
    · rw [hm₃, hseg]
      exact hen
    · rw [hp₃]
      show { s₂.procs i with totalMappedRegion :=
        (s₂.procs i).totalMappedRegion + 1 } = _
      rw [hproc]
  simp only [sd, sw, onMem, wp_bind, wp_modify]
  rw [wp_ite]
  refine ⟨?_, ?_⟩
  · intro hflags
    have hseg : SegType.code = ph.segment := by
      unfold ElfProgHeader.segment
      rw [if_pos hflags]
    rw [wp_bind, wp_modify]
    exact hfinish .code hseg
  · intro hcode
    rw [wp_ite]
    refine ⟨?_, ?_⟩
    · intro hflags
      have hseg : SegType.data = ph.segment := by
        unfold ElfProgHeader.segment
        rw [if_neg hcode]
      rw [wp_bind, wp_modify]
      exact hfinish .data hseg
    · intro hdata
      simp only [panic, wp_bind, wp_halt]
      have hE := hok.resolve_left fun h => h.1.flags.elim hcode hdata
      exact hE _ _

-- ==== a whole image

/-- The loadable segments among `n` program headers from `off` on. -/
def loadHeaders (f : HostFile) : Nat → Nat → List ElfProgHeader
  | 0, _ => []
  | n + 1, off =>
      if (progHeader f (sext32 off)).type = elfProgLoad then
        progHeader f (sext32 off) :: loadHeaders f n (off + phdrSize)
      else loadHeaders f n (off + phdrSize)

/-- The loadable segments of a file. -/
def segments (f : HostFile) : List ElfProgHeader :=
  loadHeaders f (elfInit f).2.phnum (elfInit f).2.phoff

/-- Page-aligned and below the user stack. -/
def ElfProgHeader.Below (ph : ElfProgHeader) : Prop :=
  ph.vaddr % pgSize = 0 ∧ ph.vaddr < userStackTop - pgSize

/-- Nothing is loaded after a segment at address 0. -/
def Holeless : List ElfProgHeader → Prop
  | [] => True
  | ph :: t => (ph.vaddr = 0 → t = []) ∧ Holeless t

/-- The loop of `elf_load`, where a halt is tolerated. `H` admits images
that lose the page of a segment. -/
theorem wp_loadLoop (hE : ∀ e s', E e s') (H : Prop) :
    ∀ n off s own fl heap, Heap s own fl → Loading cfg s own i heap →
      (∀ ph ∈ loadHeaders f n off, ph.Below) →
      (s.procs i).totalMappedRegion + (loadHeaders f n off).length
        ≤ maxRegions →
      ((LastZero s i → loadHeaders f n off = []) ∧
        Holeless (loadHeaders f n off)) ∨ H →
      Room bad (3 * (loadHeaders f n off).length + 1) fl →
      Wp bad E (loadLoop f i n off) (fun st s' => st = .ok → ∃ own' fl',
        Heap s' own' fl' ∧ Touches i s own s' own' ∧
        Loading cfg s' own' i (fun v p => heap v p ∨ H)) s := by
  intro n
  induction n with
  | zero =>
      intro off s own fl heap hh hL _ _ _ _
      unfold loadLoop
      rw [wp_pure]
      intro _
      refine ⟨own, fl, hh, Touches.refl i s own, ?_⟩
      exact hL.mono fun _ _ => Or.inl
  | succ n ih =>
      intro off s own fl heap hh hL hgood hcount hhole hroom
      unfold loadLoop
      rw [wp_ite]
      refine ⟨?_, ?_⟩
      · intro _
        rw [wp_pure]
        exact nofun
      intro _
      simp only [loadHeaders] at hgood hcount hhole hroom
      show Wp bad E (if (progHeader f (sext32 off)).type ≠ elfProgLoad then _
        else _) _ s
      rw [wp_ite]
      refine ⟨?_, ?_⟩
      · intro hskip
        rw [if_neg hskip] at hgood hcount hhole hroom
        exact ih (off + phdrSize) s own fl heap hh hL hgood hcount hhole hroom
      intro hload
      rw [if_pos (not_not.mp hload)] at hgood hcount hhole hroom
      generalize progHeader f (sext32 off) = ph at hgood hcount hhole hroom ⊢
      rw [List.length_cons] at hcount hroom
      have hbelow := hgood ph (List.mem_cons_self ..)
      rw [wp_bind]
      apply (wp_loadSegment hh hL (by omega) hbelow.1 hbelow.2
        (hroom.less (by omega)) (Or.inr hE)).mono
      intro st s₁ hres
      rcases hres with ⟨hne, _⟩ | ⟨rfl, own₁, fl₁, h₁⟩
      · cases st with
        | ok => exact absurd rfl hne
        | eio => exact (wp_pure _).mpr nofun
        | enomem => exact (wp_pure _).mpr nofun
        | notelf => exact (wp_pure _).mpr nofun
        | err => exact (wp_pure _).mpr nofun
      -- a page is lost only where that is admitted
      have hlost : LastZero s i → H := by
        intro hz
        rcases hhole with h | h
        · exact absurd (h.1 hz) (List.cons_ne_nil _ _)
        · exact h
      have hlen := h₁.length
      apply (ih (off + phdrSize) s₁ own₁ fl₁ _ h₁.pages h₁.loading
        (fun q hq => hgood q (List.mem_cons_of_mem _ hq))
        (by rw [h₁.total]; omega) _ (hroom.less (by omega))).mono
      · intro st s₂ hres hst
        obtain ⟨own₂, fl₂, hh₂, ht₂, hL₂⟩ := hres hst
        refine ⟨own₂, fl₂, hh₂, h₁.touches.trans ht₂, ?_⟩
        apply hL₂.mono
        intro v p hv
        rcases hv with (h | h) | h
        · exact Or.inl h
        · exact Or.inr (hlost h)
        · exact Or.inr h
      · rcases hhole with h | h
        · refine Or.inl ⟨?_, h.2.2⟩
          intro hz
          rcases h₁.last hz with h0 | hz'
          · exact h.2.1 h0
          · exact absurd (h.1 hz') (List.cons_ne_nil _ _)
        · exact Or.inr h

/-- A fresh space is one an image can be loaded into. -/
theorem Space.loading (hS : Space cfg BelowStack s own i heap)
    (htotal : (s.procs i).totalMappedRegion = 3) (hh : Heap s own fl) :
    Loading cfg s own i heap := by
  have htrap := cfg.trap_base
  have hlast : ¬ LastZero s i := by
    intro hz
    have := hS.lastZero hz
    omega
  refine ⟨hS, ?_, fun hz => absurd hz hlast, ?_⟩
  · intro k hk
    rw [htotal] at hk
    have hcase : k = 0 ∨ k = 1 := by omega
    rcases hcase with rfl | rfl
    · rw [hS.stack]
      decide
    · rw [hS.context]
      exact Nat.ne_of_gt ((tag_page (n := i) hh
        (by rw [hS.trapframe]; rfl)).pos hh)
  · intro k h3 hk
    omega

/-- Counting a host file leaves memory and processes. -/
theorem Space.files {P : MappedRegion → Prop} (hS : Space cfg P s own i heap)
    (n : Fin (maxFiles + 1)) :
    Space cfg P { s with hostFiles := n } own i heap :=
  hS.frame (SameSpace.of_eq rfl) (fun _ _ => rfl)
    (fun p _ => Agree.refl s.mem p _) fun _ _ h => h

theorem Heap.files (hh : Heap s own fl) (n : Fin (maxFiles + 1)) :
    Heap { s with hostFiles := n } own fl :=
  hh.congr rfl rfl rfl rfl

theorem touches_files (n : Fin (maxFiles + 1)) :
    Touches i s own { s with hostFiles := n } own :=
  ⟨rfl, fun _ _ _ => rfl, fun p _ _ _ => Agree.refl s.mem p _,
    fun _ h => h.imp id Or.inr⟩

/-- Opening the image counts one more host file, if there is room. -/
theorem wp_openImage {Q : Unit → Kernel → Prop}
    (hfull : (s.hostFiles : Nat) < maxFiles ∨ ∀ e s', E e s')
    (hok : ∀ n : Fin (maxFiles + 1), (n : Nat) = s.hostFiles + 1 →
      Q () { s with hostFiles := n }) : Wp bad E openImage Q s := by
  unfold openImage
  rw [wp_bind, wp_get]
  split
  · rw [wp_modify]
    exact hok _ rfl
  · next hno =>
    simp only [panic, wp_halt]
    exact hfull.resolve_left hno _ _

/-- Loading an image that is open, where a halt is tolerated. -/
theorem wp_loadImage (hE : ∀ e s', E e s') (H : Prop) (hh : Heap s own fl)
    (hL : Loading cfg s own i heap) (hgood : ∀ ph ∈ segments f, ph.Below)
    (hcount : (s.procs i).totalMappedRegion + (segments f).length ≤ maxRegions)
    (hhole : (¬ LastZero s i ∧ Holeless (segments f)) ∨ H)
    (hroom : Room bad (3 * (segments f).length + 1) fl) :
    Wp bad E (loadImage f i) (fun _ s' => ∃ own' fl', Heap s' own' fl' ∧
      Touches i s own s' own' ∧
      Space cfg BelowStack s' own' i (fun v p => heap v p ∨ H)) s := by
  unfold loadImage
  show Wp bad E (if (elfInit f).1 ≠ .ok then _ else _) _ s
  rw [wp_ite]
  refine ⟨?_, ?_⟩
  · intro _
    simp only [panic, wp_halt]
    exact hE _ _
  intro _
  rw [wp_bind]
  unfold elfLoad
  apply (wp_loadLoop hE H _ _ s own fl heap hh hL hgood hcount
    (hhole.imp_left fun h => ⟨fun hz => absurd hz h.1, h.2⟩) hroom).mono
  intro st s₁ hres
  rw [wp_ite]
  refine ⟨?_, ?_⟩
  · intro _
    simp only [panic, wp_halt]
    exact hE _ _
  intro hst
  obtain ⟨own₁, fl₁, hh₁, ht₁, hL₁⟩ := hres (not_not.mp hst)
  rw [wp_bind, wp_proc]
  have htf := hL₁.space.trapframe
  unfold sd
  have hw : Within s₁.mem (store s₁.mem 8 ((s₁.procs i).trapframe + tfEpc)
      (elfInit f).2.entry) (s₁.procs i).trapframe :=
    within_store (by omega) (by simp only [tfEpc]; omega)
  apply wp_onMem hh₁ (by rw [htf]; rfl) hw
  intro s₂ hr₂ hm₂ hh₂ ht₂
  refine ⟨own₁, fl₁, hh₂, ht₁.trans ht₂, ?_⟩
  apply hL₁.space.writeFrame hh₁ (Or.inl htf) hr₂
  rw [hm₂]
  exact hw

/-- `load_bincode_from_host_elf`, where a halt is tolerated. -/
theorem wp_loadBincode (hE : ∀ e s', E e s') (H : Prop) (hh : Heap s own fl)
    (hL : Loading cfg s own i heap) (hgood : ∀ ph ∈ segments f, ph.Below)
    (hcount : (s.procs i).totalMappedRegion + (segments f).length ≤ maxRegions)
    (hhole : (¬ LastZero s i ∧ Holeless (segments f)) ∨ H)
    (hroom : Room bad (3 * (segments f).length + 1) fl) :
    Wp bad E (loadBincode f i) (fun _ s' => ∃ own' fl', Heap s' own' fl' ∧
      Touches i s own s' own' ∧
      Space cfg BelowStack s' own' i (fun v p => heap v p ∨ H)) s := by
  unfold loadBincode
  rw [wp_bind]
  refine wp_openImage (Or.inr hE) fun n _ => ?_
  have hL' : Loading cfg { s with hostFiles := n } own i heap :=
    ⟨hL.space.files n, hL.nonzero, hL.occupied, hL.fresh⟩
  refine (wp_loadImage hE H (hh.files n) hL' hgood hcount hhole hroom).mono
    fun _ s' hres => ?_
  obtain ⟨own', fl', hh', ht, hS⟩ := hres
  exact ⟨own', fl', hh', (touches_files n).trans ht, hS⟩

-- ==== one segment only

/-- The file is an image with one program header, `ph`, for a segment
the loader can load. -/
structure OneSegment (f : HostFile) (ph : ElfProgHeader) : Prop where
  header : (elfInit f).1 = .ok
  count : (elfInit f).2.phnum = 1
  phdr : preadCount f phdrSize (sext32 (elfInit f).2.phoff) = phdrSize
  this : progHeader f (sext32 (elfInit f).2.phoff) = ph
  load : ph.type = elfProgLoad
  fits : SegmentFits f ph
  below : ph.Below

theorem OneSegment.segments {ph : ElfProgHeader} (hone : OneSegment f ph) :
    segments f = [ph] := by
  unfold Pke.segments
  rw [hone.count]
  show (if (progHeader f (sext32 (elfInit f).2.phoff)).type = elfProgLoad
    then _ else _) = _
  rw [hone.this, if_pos hone.load]
  rfl

/-- Below the stack only the image is recorded. -/
theorem Space.low {heap : Nat → Nat → Prop}
    (hS : Space cfg BelowStack s own i heap) (hh : Heap s own fl)
    (hr : Ranges cfg s) {k va : Nat} (hva : va < userStackTop - pgSize)
    (hc : (regionAt s.mem (s.procs i).mappedInfo k).Covers va) : 3 ≤ k := by
  simp only [userStackTop, pgSize] at hva
  have htf := hr.frame (tag_page (n := i) hh (by rw [hS.trapframe]; rfl))
  have htrap := cfg.trap_base
  simp only [kernBase] at htrap
  by_contra hlt
  have hcase : k = 0 ∨ k = 1 ∨ k = 2 := by omega
  rcases hcase with rfl | rfl | rfl
  · have := (covers_one hS.stack).mp hc
    simp only [userStackTop, pgSize] at this
    omega
  · have := (covers_one hS.context).mp hc
    omega
  · have := (covers_one hS.system).mp hc
    omega

/-- Where nothing is unrecorded, a page no region covers is not mapped. -/
theorem Space.unmapped (hS : Space cfg P s own i fun _ _ => False) {va : Nat}
    (hva : va < 2 ^ 39)
    (hstray : cfg.tableFits = false → va / pgSize ≠ (kernBase + pgSize) / pgSize)
    (hno : ∀ k < (s.procs i).totalMappedRegion,
      ¬ (regionAt s.mem (s.procs i).mappedInfo k).Covers va) :
    leaf s.mem (s.procs i).pagetable va = none := by
  cases hw : leaf s.mem (s.procs i).pagetable va with
  | none => rfl
  | some w =>
      rcases hS.regions.leaves va w hva hw with ⟨k, hk, hc⟩ | ⟨hv, _⟩ | hs
      · exact absurd hc (hno k hk)
      · exact hv.elim
      · exact absurd hs.page (hstray hs.overlong)

/-- Below the stack a fresh space is empty. -/
theorem Space.vacant (hS : Space cfg BelowStack s own i fun _ _ => False)
    (hh : Heap s own fl) (hr : Ranges cfg s)
    (htotal : (s.procs i).totalMappedRegion = 3) {va : Nat}
    (hva : va < userStackTop - pgSize) :
    leaf s.mem (s.procs i).pagetable va = none := by
  refine hS.unmapped ?_ (fun _ => ?_) fun k hk hc => ?_
  · simp only [userStackTop, pgSize] at hva
    omega
  · simp only [userStackTop, kernBase, pgSize] at hva ⊢
    omega
  · have h3 := hS.low hh hr hva hc
    omega

/-- A fresh space with the one segment of an image in it. -/
structure LoadedOne (cfg : Config) (i : Slot) (ph : ElfProgHeader)
    (s : Kernel) (own : Nat → Owner) (fl : List Nat) (s' : Kernel)
    (own' : Nat → Owner) (fl' : List Nat) : Prop where
  pages : Heap s' own' fl'
  touches : Touches i s own s' own'
  space : Space cfg BelowStack s' own' i fun _ _ => False
  total : (s'.procs i).totalMappedRegion = 4
  entry : regionAt s'.mem (s'.procs i).mappedInfo 3
    = ⟨ph.vaddr, 1, ph.segment.word⟩
  length : fl.length ≤ fl'.length + 3
  suffix : fl' <:+ fl

/-- An image with one segment, once it is open, loads into a fresh space,
if four pages are left. -/
theorem wp_loadImageOne (hone : OneSegment f ph) (hh : Heap s own fl)
    (hr : Ranges cfg s) (hS : Space cfg BelowStack s own i fun _ _ => False)
    (htotal : (s.procs i).totalMappedRegion = 3) (hroom : Room bad 4 fl) :
    Wp bad E (loadImage f i) (fun _ s' => ∃ own' fl',
      LoadedOne cfg i ph s own fl s' own' fl') s := by
  have hL := hS.loading htotal hh
  have hlast : ¬ LastZero s i := by
    intro hz
    have := hS.lastZero hz
    omega
  obtain ⟨hheader, hcount, hphdr, hthis, hload, hfits, hbelow⟩ := hone
  unfold loadImage
  generalize elfInit f = r at hheader hcount hphdr hthis ⊢
  obtain ⟨st, hdr⟩ := r
  obtain rfl : st = .ok := hheader
  simp only [ne_eq, not_true_eq_false, if_false]
  rw [wp_bind]
  unfold elfLoad
  rw [show hdr.phnum = 1 from hcount]
  unfold loadLoop
  rw [if_neg (not_not.mpr hphdr)]
  show Wp bad E (if (progHeader f (sext32 hdr.phoff)).type
    ≠ elfProgLoad then _ else _) _ s
  rw [show progHeader f (sext32 hdr.phoff) = ph from hthis,
    if_neg (not_not.mpr hload), wp_bind]
  apply (wp_loadSegment hh hL (by rw [htotal]; decide) hbelow.1
    hbelow.2 hroom
    (Or.inl ⟨hfits, hS.vacant hh hr htotal hbelow.2⟩)).mono
  intro st s₁ hres
  rcases hres with ⟨hne, hE⟩ | ⟨rfl, own₁, fl₁, h₁⟩
  · -- a status other than ok ends in a panic, which is tolerated here
    have hpanic : ∀ st : ElfStatus, st ≠ .ok → Wp bad E (pure st : K ElfStatus)
        (fun a s' => Wp bad E (if ¬ a = .ok then
            panic "Fail on loading elf.\n"
          else do
            let p ← proc i
            sd (p.trapframe + tfEpc) hdr.entry) (fun _ s' => ∃ own' fl',
              LoadedOne cfg i ph s own fl s' own' fl') s') s₁ := by
      intro st hst
      rw [wp_pure, if_pos hst]
      simp only [panic, wp_halt]
      exact hE _ _
    cases st with
    | ok => exact absurd rfl hne
    | eio => exact hpanic _ hne
    | enomem => exact hpanic _ hne
    | notelf => exact hpanic _ hne
    | err => exact hpanic _ hne
  unfold loadLoop
  rw [wp_pure, if_neg (not_not.mpr rfl), wp_bind, wp_proc]
  have hS₁ : Space cfg BelowStack s₁ own₁ i fun _ _ => False :=
    h₁.loading.space.mono fun _ _ h => h.elim id fun hz => hlast hz
  have htf := hS₁.trapframe
  unfold sd
  have hw : Within s₁.mem (store s₁.mem 8 ((s₁.procs i).trapframe + tfEpc)
      hdr.entry) (s₁.procs i).trapframe :=
    within_store (by omega) (by simp only [tfEpc]; omega)
  apply wp_onMem h₁.pages (by rw [htf]; rfl) hw
  intro s₂ hr₂ hm₂ hh₂ ht₂
  rw [← hm₂] at hw
  have hproc : s₂.procs i = s₁.procs i := by rw [procs_eq hr₂]
  refine ⟨own₁, fl₁, hh₂, h₁.touches.trans ht₂,
    hS₁.writeFrame h₁.pages (Or.inl htf) hr₂ hw, ?_, ?_, h₁.length, h₁.suffix⟩
  · rw [hproc, h₁.total, htotal]
  · have hentry := h₁.entry hlast
    rw [htotal] at hentry
    have hinfo := hS₁.regions.owner
    rw [hproc, ← hentry]
    apply regionAt_agree _ (by decide)
    apply hw.agree (tag_page (n := i) h₁.pages (by rw [hinfo]; rfl)).aligned
      (tag_page (n := i) h₁.pages (by rw [htf]; rfl)).aligned
    intro heq
    rw [heq, htf] at hinfo
    cases hinfo

/-- An image with one segment loads into a fresh space, if four pages and
an entry for a host file are left. -/
theorem wp_loadOne (hone : OneSegment f ph) (hh : Heap s own fl)
    (hr : Ranges cfg s) (hS : Space cfg BelowStack s own i fun _ _ => False)
    (htotal : (s.procs i).totalMappedRegion = 3) (hroom : Room bad 4 fl)
    (hfull : (s.hostFiles : Nat) < maxFiles ∨ ∀ e s', E e s') :
    Wp bad E (loadBincode f i) (fun _ s' => (s'.hostFiles : Nat) = s.hostFiles + 1 ∧
      ∃ own' fl', LoadedOne cfg i ph s own fl s' own' fl') s := by
  unfold loadBincode
  rw [wp_bind]
  refine wp_openImage hfull fun n hn => ?_
  refine ((leaves_loadImage hostFiles_blind f i).wp
    (wp_loadImageOne hone (hh.files n)
      (hr.congr (touches_files n : Touches i s own _ own).apart) (hS.files n) htotal
      hroom)).mono fun _ s' hres => ?_
  obtain ⟨⟨own', fl', hl⟩, hfiles⟩ := hres
  refine ⟨(congrArg Fin.val hfiles).trans hn, own', fl', ?_⟩
  exact { hl with touches := (touches_files n).trans hl.touches }

end Pke
