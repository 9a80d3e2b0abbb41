/-
Fork duplicates the recorded address space, in the words of the kernel.

`ForkOutcome` (Spawn.lean) tells fork in terms of owners and leaves. Here
it is read back in terms of what the kernel itself can observe: what
`lookup_pa` finds in either page table, the bytes of the frames, the two
region tables as lists, the parent's pages, and the ready queue.

The parent is any process whose space is in order (`Space`): its
recorded regions are mapped, page-aligned and pairwise disjoint, one of
them is the stack page. Its image may lie anywhere, as long as it keeps
clear of the page that becomes the child's trapframe, which is the first
page on the free list.

# The number of files

`files_create` of the child stores the number of its files behind the page
it takes for the table (FileTable.lean). Where that is harmless (`Aside`),
fork duplicates. Where it is a frame of the parent with something else in
it (`Overwrites`), the parent is not what it was. What is left open lies
between: frames of third processes, tables and trapframes, and a frame
that holds this number already.

The list boot leaves is in order, and fork takes the page behind the file
table itself, as its last table. A process gets it out of order with pages
of its own: it takes eleven for its heap and gives back the first ten
(`Hoard`). Fork takes those ten, and the file table is the page below the
eleventh (`exists_overwrites`).
-/
import Pke.Proofs.Ownership
import Pke.Proofs.Scarcity

namespace Pke

open ByteMem Traced

variable {cfg : Config} {P : MappedRegion → Prop}
variable {bad : Event → Prop} {E : Halt → Kernel → Prop}
variable {s s' : Kernel} {own own' : Nat → Owner} {fl fl' : List Nat}
variable {a c i j : Slot} {q : List Slot}
variable {heap : Slot → Nat → Nat → Prop}

-- ==== the statement

/-- `lookup_pa` finds frame `pa` for `va` in the page table of process
`i`. -/
def Translates (s : Kernel) (i : Slot) (va pa : Nat) : Prop :=
  pa ≠ 0 ∧ Returns (lookupPa (s.procs i).pagetable va)
    (fun r s' => r = pa ∧ s' = s) s

/-- The recorded regions of a process, in order. -/
def regionList (s : Kernel) (i : Slot) : List MappedRegion :=
  (List.range (s.procs i).totalMappedRegion).map
    (regionAt s.mem (s.procs i).mappedInfo)

/-- The region is code or data. -/
def MappedRegion.isImage (r : MappedRegion) : Bool :=
  r.segType == SegType.code.word || r.segType == SegType.data.word

/-- The regions every process has: stack, trapframe and trap section. -/
def ownRegions (cfg : Config) (s : Kernel) (i : Slot) : List MappedRegion :=
  [⟨userStackTop - pgSize, 1, SegType.stack.word⟩,
    ⟨(s.procs i).trapframe, 1, SegType.context.word⟩,
    ⟨cfg.trapSecStart, 1, SegType.system.word⟩]

/-- Process `c` in `s'` is the duplicate of process `a` in `s`, which is
as it was, and it is the last in the queue. -/
structure DuplicatedSpace (cfg : Config) (a c : Slot) (q : List Slot)
    (s s' : Kernel) : Prop where
  code : ∀ r ∈ regionList s a, r.segType = SegType.code.word →
    ∀ va, r.Covers va → ∃ pa, Translates s a va pa ∧ Translates s' c va pa
  data : ∀ r ∈ regionList s a,
    r.segType = SegType.data.word ∨ r.segType = SegType.stack.word →
    ∀ va, r.Covers va → ∃ pa pa', Translates s a va pa ∧
      Translates s' c va pa' ∧ pa' ≠ pa ∧
      (∀ j, InUse s' j → j ≠ c → ¬ Uses s' j pa') ∧
      ∀ x < pgSize, s'.mem (pa' + x) = s.mem (pa + x)
  trapframe : ∀ x < tfSize, s'.mem ((s'.procs c).trapframe + x)
    = if tfA0 ≤ x ∧ x < tfA0 + 8 then 0
      else s.mem ((s.procs a).trapframe + x)
  regions : regionList s' c
    = ownRegions cfg s' c ++ (regionList s a).filter MappedRegion.isImage
  slot : SameSpace (s.procs a) (s'.procs a)
  kept : ∀ p, Uses s a p → Agree s.mem s'.mem p (p + pgSize)
  ready : (s'.procs c).status = .ready ∧ ReadyQueue s' (q ++ [c])

-- ==== the reading

/-- A readable leaf is what `lookup_pa` finds. -/
theorem Space.translates {heap : Nat → Nat → Prop} {va w : Nat}
    (hS : Space cfg P s own i heap) (hh : Heap s own fl) (hva : va < maxVa)
    (hw : leaf s.mem (s.procs i).pagetable va = some w) (hr : Readable w)
    (hpos : pte2pa w ≠ 0) : Translates s i va (pte2pa w) := by
  refine ⟨hpos, (wp_lookupPa hh hS.regions.tables hva).mpr ?_⟩
  rw [hw, leafPa_readable hr]
  exact ⟨rfl, rfl⟩

/-- A page somebody owns has an address. -/
theorem Heap.pos (hh : Heap s own fl) {p : Nat} (hp : own p ≠ .held) :
    p ≠ 0 := Nat.ne_of_gt ((hh.page p hp).pos hh)

/-- A leaf of the parent in a recorded region, and that of the child. -/
theorem ForkOutcome.pair
    (h : ForkOutcome cfg P a c (InUse s) heap q s own fl s' own' fl')
    (hK : KInv cfg P s own fl (InUse s) heap) (ha : InUse s a)
    {r : MappedRegion} {seg : SegType} {va : Nat}
    (hmem : r ∈ regionList s a) (hseg : r.segType = seg.word)
    (hctx : seg ≠ .context) (hsys : seg ≠ .system) (hc : r.Covers va) :
    ∃ w w', Translates s a va (pte2pa w) ∧ Translates s' c va (pte2pa w') ∧
      RegionLeaf own a seg (va / pgSize) w ∧
      Duplicate own' c seg (va / pgSize) s.mem w s'.mem w' := by
  have hS := hK.space a ha
  have hS' := h.inv.space c (Or.inr rfl)
  obtain ⟨k, hk, rfl⟩ := List.mem_map.mp hmem
  rw [List.mem_range] at hk
  obtain ⟨w, hw, hl⟩ := hS.regions.mapped k hk seg hseg va hc
  obtain ⟨w', hw', hd⟩ := h.spawned.dup k hk seg hseg hctx hsys va w hc hw
  have hva := hS.regions.table.covers_lt hk hc
  -- either way the frame has an owner
  have hheld : ∀ {own : Nat → Owner} {i : Slot} {w : Nat},
      RegionLeaf own i seg (va / pgSize) w → own (pte2pa w) ≠ .held := by
    intro own i w hl heq
    have howner := hl.owner
    rw [heq] at howner
    cases seg with
    | code => exact howner.elim Owner.noConfusion Owner.noConfusion
    | data => exact Owner.noConfusion howner
    | stack => exact Owner.noConfusion howner
    | context => exact hctx rfl
    | system => exact hsys rfl
  exact ⟨w, w', hS.translates hK.pages hva hw hl.readable
      (hK.pages.pos (hheld hl)),
    hS'.translates h.inv.pages hva hw' hd.region.readable
      (h.inv.pages.pos (hheld hd.region)), hl, hd⟩

/-- The child's copy of a page is used by nobody else. -/
theorem KInv.private_frame {built : Slot → Prop} {p v : Nat}
    (hK : KInv cfg P s own fl built heap) (hown : own p = .frame c v)
    (hj : built j) (hjc : j ≠ c) : ¬ Uses s j p := by
  have hS := hK.space j hj
  have hne : ∀ o, own p = o → o.tag = some j.val → False := by
    intro o ho htag
    rw [← ho, hown] at htag
    exact hjc (Fin.ext (Option.some.inj htag).symm)
  intro hu
  cases hu with
  | trapframe => exact hne _ hS.trapframe rfl
  | kstack top =>
      obtain ⟨k, hk, hkown⟩ := hS.kstack
      obtain rfl : p = k := by omega
      exact hne _ hkown rfl
  | mappedInfo => exact hne _ hS.regions.owner rfl
  | table len node => exact hne _ (hS.regions.tables _ _ len node) rfl
  | leaf low entry =>
      rcases hS.leafFrame low entry with h | ⟨h, _⟩ | htrap | hstray
      · exact hne _ h rfl
      · rw [hown] at h
        exact Owner.noConfusion h
      · rw [htrap, hK.trap_held] at hown
        exact Owner.noConfusion hown
      · rw [hstray.pa, hK.pages.zero_held] at hown
        exact Owner.noConfusion hown

/-- What a process uses is a page, and not free. -/
theorem KInv.used_page {built : Slot → Prop} {p : Nat}
    (hK : KInv cfg P s own fl built heap) (hi : built i) (hu : Uses s i p) :
    p % pgSize = 0 ∧ own p ≠ .free := by
  have hS := hK.space i hi
  have htagged : ∀ {o : Owner}, own p = o → o.tag = some i.val →
      p % pgSize = 0 ∧ own p ≠ .free := by
    intro o ho htag
    rw [← ho] at htag
    exact ⟨(tag_page hK.pages htag).aligned, tag_used htag⟩
  cases hu with
  | trapframe => exact htagged hS.trapframe rfl
  | kstack top =>
      obtain ⟨k, hk, hkown⟩ := hS.kstack
      obtain rfl : p = k := by omega
      exact htagged hkown rfl
  | mappedInfo => exact htagged hS.regions.owner rfl
  | table len node => exact htagged (hS.regions.tables _ _ len node) rfl
  | leaf low entry =>
      refine ⟨pte2pa_aligned _, ?_⟩
      rcases hS.leafFrame low entry with h | ⟨h, _⟩ | htrap | hstray
      · rw [h]
        exact Owner.noConfusion
      · rw [h]
        exact Owner.noConfusion
      · rw [htrap, hK.trap_held]
        exact Owner.noConfusion
      · rw [hstray.pa, hK.pages.zero_held]
        exact Owner.noConfusion

/-- Of the parent's regions all but the first three are image. -/
theorem Space.imageRegions {heap : Nat → Nat → Prop}
    (hS : Space cfg P s own i heap) :
    (regionList s i).filter MappedRegion.isImage
      = (List.range ((s.procs i).totalMappedRegion - 3)).map fun k =>
        regionAt s.mem (s.procs i).mappedInfo (3 + k) := by
  obtain ⟨n, hn⟩ := Nat.exists_eq_add_of_le hS.three
  have himage : ∀ k < n,
      (regionAt s.mem (s.procs i).mappedInfo (3 + k)).isImage = true := by
    intro k hk
    have h := (hS.image (3 + k) (by omega) (by omega)).1
    unfold MappedRegion.isImage
    rcases h with h | h
    · rw [h]; rfl
    · rw [h]; rfl
  unfold regionList
  rw [hn, Nat.add_sub_cancel_left, List.range_add, List.map_append,
    List.filter_append, List.map_map]
  have hfirst : ((List.range 3).map (regionAt s.mem (s.procs i).mappedInfo)).filter
      MappedRegion.isImage = [] := by
    show List.filter _ [_, _, _] = []
    rw [hS.stack, hS.context, hS.system]
    rfl
  rw [hfirst, List.nil_append]
  apply List.filter_eq_self.mpr
  intro r hr
  obtain ⟨k, hk, rfl⟩ := List.mem_map.mp hr
  exact himage k (List.mem_range.mp hk)

theorem Space.regionList {heap : Nat → Nat → Prop}
    (hS : Space cfg P s own i heap) :
    regionList s i = ownRegions cfg s i
      ++ (List.range ((s.procs i).totalMappedRegion - 3)).map fun k =>
        regionAt s.mem (s.procs i).mappedInfo (3 + k) := by
  obtain ⟨n, hn⟩ := Nat.exists_eq_add_of_le hS.three
  unfold Pke.regionList
  rw [hn, Nat.add_sub_cancel_left, List.range_add, List.map_append,
    List.map_map]
  congr 1
  show [_, _, _] = _
  rw [hS.stack, hS.context, hS.system]
  rfl

theorem ForkOutcome.regionList
    (h : ForkOutcome cfg P a c (InUse s) heap q s own fl s' own' fl')
    (hK : KInv cfg P s own fl (InUse s) heap) (ha : InUse s a) :
    regionList s' c = ownRegions cfg s' c
      ++ (Pke.regionList s a).filter MappedRegion.isImage := by
  have hS' := h.inv.space c (Or.inr rfl)
  rw [hS'.regionList, (hK.space a ha).imageRegions, h.spawned.total]
  congr 1
  apply List.map_congr_left
  intro k hk
  rw [List.mem_range] at hk
  exact h.spawned.copied (3 + k) (by omega) (by omega)

theorem ForkOutcome.duplicated
    (h : ForkOutcome cfg P a c (InUse s) heap q s own fl s' own' fl')
    (hK : KInv cfg P s own fl (InUse s) heap) (ha : InUse s a)
    (hac : a ≠ c) : DuplicatedSpace cfg a c q s s' where
  code r hr hseg va hc := by
    obtain ⟨w, w', ht, ht', _, hd⟩ :=
      h.pair hK ha hr hseg nofun nofun hc
    refine ⟨pte2pa w, ht, ?_⟩
    rw [hd.same.1] at ht'
    exact ht'
  data r hr hseg va hc := by
    have hcopy : ∃ w w', Translates s a va (pte2pa w) ∧
        Translates s' c va (pte2pa w') ∧
        own (pte2pa w) = .frame a (va / pgSize) ∧
        own' (pte2pa w') = .frame c (va / pgSize) ∧
        ∀ x < 4096, s'.mem (pte2pa w' + x) = s.mem (pte2pa w + x) := by
      rcases hseg with hseg | hseg
      · obtain ⟨w, w', ht, ht', hl, hd⟩ :=
          h.pair hK ha hr hseg nofun nofun hc
        exact ⟨w, w', ht, ht', hl.owner, hd.region.owner, hd.same⟩
      · obtain ⟨w, w', ht, ht', hl, hd⟩ :=
          h.pair hK ha hr hseg nofun nofun hc
        exact ⟨w, w', ht, ht', hl.owner, hd.region.owner, hd.same⟩
    obtain ⟨w, w', ht, ht', hown, hown', hsame⟩ := hcopy
    refine ⟨pte2pa w, pte2pa w', ht, ht', ?_, ?_, hsame⟩
    · intro heq
      have hkeep := h.spawned.keep (pte2pa w)
        (by rw [hown]; exact Owner.noConfusion)
      rw [← heq, hown'] at hkeep
      rcases shareCode_cases a (codePage s a) own (pte2pa w') with
        ⟨hcode, _⟩ | ⟨hsame, _⟩
      · rw [hcode] at hkeep
        exact Owner.noConfusion hkeep
      · rw [hsame, heq, hown] at hkeep
        exact hac (Fin.ext (Owner.frame.inj hkeep).1.symm)
    · intro j hj hjc
      refine h.inv.private_frame hown' (Or.inl ?_) hjc
      unfold InUse at hj ⊢
      rw [h.status, if_neg hjc] at hj
      exact hj
  trapframe := h.spawned.context
  regions := h.regionList hK ha
  slot := h.spawned.parent
  kept p hp := by
    obtain ⟨hal, hused⟩ := hK.used_page ha hp
    exact h.spawned.same p hal hused
  ready := by
    refine ⟨?_, h.queue⟩
    rw [h.status, if_pos rfl]

-- ==== fork

/-- The page behind the file table of the child is a frame of the parent,
and something else than the number of files is there. -/
structure Overwrites (cfg : Config) (s : Kernel) (own : Nat → Owner)
    (fl : List Nat) (a : Slot) (p : Nat) : Prop where
  overlong : cfg.tableFits = false
  page : filesPage cfg fl = some p
  uses : Uses s a (p + pgSize)
  frame : ∃ v, own (p + pgSize) = .frame a v
  other : load s.mem 4 (p + FileTable.nfileOff) ≠ s.hostFiles

/-- A fork of the parent with the number of files in one of its frames
leaves the parent changed. -/
theorem ForkOutcome.overwritten {p : Nat} (hw : Overwrites cfg s own fl a p)
    (h : ForkOutcome cfg P a c (InUse s) heap q (struck cfg s p) own fl s' own' fl')
    (hal : p % pgSize = 0) : ¬ DuplicatedSpace cfg a c q s s' := by
  intro hd
  obtain ⟨v, hown⟩ := hw.frame
  have hoff : p + FileTable.nfileOff = p + pgSize + 8 := rfl
  have hkept := hd.kept _ hw.uses
  have hsame := h.spawned.same (p + pgSize)
    (by simp only [pgSize] at hal ⊢; omega)
    (by rw [hown]; exact Owner.noConfusion)
  have hstored : load (struck cfg s p).mem 4 (p + FileTable.nfileOff)
      = s.hostFiles := by
    unfold struck counted
    rw [hw.overlong, if_neg Bool.false_ne_true, load_store]
    exact Nat.mod_eq_of_lt (Nat.lt_trans (hostFiles_lt s) (by decide))
  refine hw.other (Eq.trans ?_ hstored)
  rw [hoff, ← load_agree (hkept.mono (Nat.le_add_right _ 8)
      (by simp only [pgSize]; omega)),
    ← load_agree (hsame.mono (Nat.le_add_right _ 8) (by omega))]

/-- `do_fork` where the number of files goes to a frame of the parent. -/
theorem wp_forkOverwritten {p : Nat} (hK : KInv cfg P s own fl (InUse s) heap)
    (ha : InUse s a) (hslot : freeSlot s = some c) (hq : ReadyQueue s q)
    (hlive : ∀ i ∈ q, InUse s i)
    (hclear : ∀ p ∈ fl.head?, ∀ k, 3 ≤ k →
      k < (s.procs a).totalMappedRegion →
      ¬ (regionAt s.mem (s.procs a).mappedInfo k).Covers p)
    (hstray : cfg.tableFits = false → ∀ k, 3 ≤ k →
      k < (s.procs a).totalMappedRegion →
      ¬ (regionAt s.mem (s.procs a).mappedInfo k).Covers (kernBase + pgSize))
    (hw : Overwrites cfg s own fl a p) (hroom : Room bad (3 * recorded s a + 13) fl) :
    Wp bad E (doFork cfg a) (fun _ s' => ¬ DuplicatedSpace cfg a c q s s') s := by
  have hfree : ¬ InUse s c := fun h => h (freeSlot_status hslot)
  have hcq : c ∉ q := fun hmem => hfree (hlive c hmem)
  obtain ⟨v, hown⟩ := hw.frame
  apply (wp_forkStruck hK ha hslot hfree hq hcq hclear hstray hw.page hown hroom).mono
  intro _ s' hres
  obtain ⟨own', fl', ho⟩ := hres
  exact ho.overwritten hw
    (hK.pages.pool.page p (List.mem_of_getElem? hw.page)).aligned

-- ==== a run that gets there

/-- A store of user code to a page it may write. -/
theorem wp_userStore_mapped {va w : Nat} {b : UInt8}
    (hS : Sys cfg heap s own fl q c) (hmax : va < maxVa)
    (hw : leaf s.mem (s.procs c).pagetable va = some w) (hu : UserWritable w) :
    Wp bad E (userStore va b) (fun _ s' => s' = { s with
      mem := store s.mem 1 (pte2pa w + va % pgSize) b.toNat }) s := by
  unfold userStore
  rw [wp_bind]
  apply wp_theCurrent hS.running.current
  rw [wp_bind, wp_proc, wp_ite]
  refine ⟨fun hva => absurd hmax (Nat.not_lt.mpr hva), fun _ => ?_⟩
  rw [wp_bind, wp_pageWalk_false hmax]
  unfold walkAddr
  cases ht : tableAt s.mem (s.procs c).pagetable (vpath va) with
  | none =>
      rw [leaf_none ht] at hw
      cases hw
  | some t =>
      have hh := hS.inv.pages
      have hpos := (hh.table_page ((hS.inv.space c hS.current).regions.tables _ t
        (vpath_lt va) ht)).pos hh
      have hne : t + 8 * (px 0 va : Nat) ≠ 0 := by omega
      rw [leaf_eq ht] at hw
      unfold validEntry at hw
      split at hw
      case isFalse => cases hw
      case isTrue hvalid =>
        obtain rfl := Option.some.inj hw
        simp only [if_neg hne, wp_bind, ld, wp_get, wp_pure]
        rw [if_pos ⟨hvalid, hu.1, hu.2⟩]
        unfold onMem
        rw [wp_modify]
        rfl

/-- The `j`-th page of the heap. -/
def heapPage (j : Nat) : Nat := userFreeAddressStart + j * pgSize

theorem heapPage_div (j : Nat) : heapPage j / 4096 = 1024 + j := by
  simp only [heapPage, userFreeAddressStart, pgSize]
  omega

theorem heapPage_aligned (j : Nat) : heapPage j % pgSize = 0 := by
  simp only [heapPage, userFreeAddressStart, pgSize]
  omega

theorem heapPage_lt {j : Nat} (hj : j < 512) : heapPage j < 0x600000 := by
  simp only [heapPage, userFreeAddressStart, pgSize]
  omega

/-- Where one page of the heap is mapped, no table is missing for the
next. -/
theorem tablesMissing_heap {m : Mem} {root j k : Nat} (hj : j < 512) (hk : k < 512)
    (hw : leaf m root (heapPage j) ≠ none) :
    tablesMissing m root (heapPage k) = 0 := by
  have hpx : ∀ i < 512, px 2 (heapPage i) = 0 ∧ px 1 (heapPage i) = 2 := by
    intro i hi
    refine ⟨Fin.ext ?_, Fin.ext ?_⟩
    all_goals
      rw [px_val]
      simp only [heapPage, userFreeAddressStart, pgSize]
      omega
  have hpath : vpath (heapPage k) = [0] ++ [2] ∧ vpath (heapPage j) = [0] ++ [2] := by
    unfold vpath
    rw [(hpx k hk).1, (hpx k hk).2, (hpx j hj).1, (hpx j hj).2]
    exact ⟨rfl, rfl⟩
  have htwo : tableAt m root ([0] ++ [2]) ≠ none := by
    intro hnone
    apply hw
    unfold leaf Radix.slot
    rw [hpath.2]
    unfold tableAt at hnone
    rw [hnone]
    rfl
  have hone : tableAt m root [0] ≠ none := by
    intro hnone
    apply htwo
    unfold tableAt at hnone ⊢
    rw [Radix.node_append, hnone]
    rfl
  unfold tablesMissing
  rw [hpath.1, (hpx k hk).1, if_neg hone, if_neg htwo]

/-- Slot 0 of the small machine, alone, has taken `n` pages for its heap
and given back the first `k`. Those are the front of the free list; behind
them is the list as it was, which goes on right below the last page
taken. -/
structure Hoard (k n : Nat) (h : List (Entry Kernel Op)) (s : Kernel)
    (rest : List Nat) : Prop where
  run : PlainRun (tinyMachine 0x10000) .code (31900 + (100 - 4 * n)) 16 h s
    bootTable [] 0
  unloaded : ∀ e ∈ h, e.op.loads = false
  list : ∃ back, FreeList s (back ++ rest) ∧ back.length = k ∧
    ∀ p ∈ back, 0x80200000 ≤ p
  descending : Descending rest
  ufree : s.gUfreePage = heapPage n
  mapped : ∀ j, k ≤ j → j < n → ∃ w, UserWritable w ∧ 0x80200000 ≤ pte2pa w ∧
    leaf s.mem (s.procs 0).pagetable (heapPage j) = some w
  vacant : ∀ j, n ≤ j → j < 512 →
    leaf s.mem (s.procs 0).pagetable (heapPage j) = none
  last : 2 ≤ n → ∃ w p, rest.head? = some p ∧ pte2pa w = p + pgSize ∧
    leaf s.mem (s.procs 0).pagetable (heapPage (n - 1)) = some w

theorem hoard_boot : ∃ s rest, Hoard 0 0 [] s rest := by
  obtain ⟨s, hA, -, hufree, hvac⟩ := plainRun_boot tinyImage_low (by decide)
  obtain ⟨heap, own, fl, hP⟩ := hA.plain
  refine ⟨s, fl, ⟨hA.run, hA.ordered, ⟨heap, own, fl, hP.sys, hP.image, hP.room,
    fun h => absurd h (by decide)⟩, fun _ => nofun, hA.table⟩, nofun,
    ⟨[], hP.sys.inv.pages.pool.chain, rfl, nofun⟩, hP.order (by decide), hufree,
    fun j _ hj => absurd hj (Nat.not_lt_zero j), fun j _ hj => ?_,
    fun h => absurd h (by decide)⟩
  refine (hvac _ (Nat.lt_trans (heapPage_lt hj) (by decide)) ?_).new
  show heapPage j / 4096 ≠ 0x10000 / 4096
  rw [heapPage_div]
  omega

/-- The list is that of the plain state. -/
theorem Hoard.plain {k n : Nat} {h : List (Entry Kernel Op)} {rest : List Nat}
    (hH : Hoard k n h s rest) : ∃ heap own back, Plain (tinyMachine 0x10000) .code
      (31900 + (100 - 4 * n)) 16 s heap own (back ++ rest) [] 0 ∧
      back.length = k ∧ ∀ p ∈ back, 0x80200000 ≤ p := by
  obtain ⟨heap, own, fl, hP⟩ := hH.run.plain
  obtain ⟨back, hlist, hback⟩ := hH.list
  obtain rfl := hP.sys.inv.pages.pool.chain.unique hlist
  exact ⟨heap, own, back, hP, hback⟩

/-- The first page of a long descending list is a high one. -/
theorem Descending.high {p : Nat} (hd : Descending fl) (hp : fl.head? = some p)
    (hlen : 512 < fl.length) (hlow : ∀ q ∈ fl, dramBase ≤ q) : 0x80200000 ≤ p := by
  have hq := List.getElem?_eq_getElem hlen
  have hzero := hd.above hq (Nat.le_refl 512)
  have hbase := hlow _ (List.getElem_mem hlen)
  rw [Nat.sub_self, ← List.head?_eq_getElem?, hp] at hzero
  have hp := Option.some.inj hzero
  simp only [dramBase, pgSize] at hbase hp
  omega

/-- A heap page, in a plain state: it is the front of the list, and the
tables missing come after it. -/
structure TookFront (c : Slot) (s : Kernel) (fl : List Nat) (s' : Kernel)
    (fl' : List Nat) : Prop where
  list : FreeList s' fl'
  suffix : fl' <:+ fl
  length : fl.tail.length
    = tablesMissing s.mem (s.procs c).pagetable s.gUfreePage + fl'.length
  ufree : s'.gUfreePage = u64 (s.gUfreePage + pgSize)
  page : ∃ pa own, fl.head? = some pa ∧ NewPage c s.gUfreePage pa s own s'

theorem Plain.take {seg : SegType} {n k : Nat}
    (hP : Plain cfg seg (n + 4) k s heap own fl q c)
    (hnew : Vacant s c s.gUfreePage) :
    Returns (step cfg .allocate) (fun _ s' =>
      (∃ heap' own' fl', Plain cfg seg n k s' heap' own' fl' q c) ∧
      ∃ fl', TookFront c s fl s' fl') s := by
  have hroom := hP.room
  have hcount := tablesMissing_le s.mem (s.procs c).pagetable s.gUfreePage
  simp only [step, wp_bind, wp_pure]
  have hfront : Wp (fun _ => False) (fun _ _ => True) sysUserAllocatePage _ s :=
    wp_allocateFront hP.sys (Or.inl ⟨hnew.below, hnew.new⟩)
    (Or.inl (by rw [List.length_tail]; omega))
  refine ((wp_allocateSpace hP.sys (Or.inl ⟨hnew.below, hnew.new⟩)
    (Or.inl (by omega))).also hfront).mono fun va s' hres => ?_
  obtain ⟨⟨pa, own', fl', rfl, hhead, hS', -, hpage, hufree, hspent⟩, -, -, -, -,
    ⟨fl₂, hfl₂, hlen⟩, -⟩ := hres
  obtain rfl := hfl₂.unique hS'.inv.pages.pool.chain
  exact ⟨⟨_, own', fl₂, Plain.newPage { hP with room := by omega } hS' hpage hspent⟩,
    fl₂, hfl₂, hspent.suffix, hlen, hufree, pa, own, hhead, hpage⟩

/-- A page given back leaves the state plain. -/
theorem Plain.freed {seg : SegType} {n k va w : Nat} (hk : 8 < k)
    (hP : Plain cfg seg n k s heap own fl q c)
    (hf : FreedHeap cfg heap c va w q s own fl s' own') :
    Plain cfg seg n k s' (lessHeap heap c va) own' (pte2pa w :: fl) q c where
  sys := hf.sys
  image i hu := by
    unfold InUse at hu
    rw [hf.procs] at hu
    obtain ⟨hown, hal⟩ := hP.regionsPage hu
    refine hP.image_eq hu (by rw [hf.procs]) (hf.agree _ hal ?_ fun path => ?_)
    · intro heq
      rw [heq, hf.frame] at hown
      cases hown
    · rw [hown]
      exact Owner.noConfusion
  room := Nat.le_succ_of_le hP.room
  order hk' := absurd hk' (Nat.not_le.mpr hk)

/-- One page more. -/
theorem Hoard.take {n : Nat} {h : List (Entry Kernel Op)} {rest : List Nat}
    (hH : Hoard 0 n h s rest) (hn : n < 11) :
    ∃ s' rest', Hoard 0 (n + 1) (⟨.allocate, s, s'⟩ :: h) s' rest' := by
  have hnew : Vacant s 0 s.gUfreePage := by
    rw [hH.ufree]
    exact ⟨Nat.lt_trans (heapPage_lt (by omega)) (by decide),
      hH.vacant n (Nat.le_refl n) (by omega)⟩
  obtain ⟨heap, own, back, hP, hback, -⟩ := hH.plain
  obtain rfl := List.eq_nil_of_length_eq_zero hback
  rw [List.nil_append] at hP
  have hroom := hP.room
  have hret : ∀ heap own fl, Plain (tinyMachine 0x10000) .code
      (31900 + (100 - 4 * n)) 16 s heap own fl [] 0 →
      Returns (step (tinyMachine 0x10000) .allocate) (fun _ s' =>
        (∃ heap' own' fl', Plain (tinyMachine 0x10000) .code
          (31900 + (100 - 4 * (n + 1))) 16 s' heap' own' fl' [] 0) ∧
        ∃ fl', TookFront 0 s rest s' fl') s := by
    intro heap' own' fl hP'
    obtain rfl := hP'.sys.inv.pages.pool.chain.unique hP.sys.inv.pages.pool.chain
    exact Plain.take { hP' with room := by omega } hnew
  obtain ⟨s', hA', -, rest', hT⟩ := hH.run.next .allocate trivial
    (fun h => absurd h (by decide)) (show 4 ≤ _ by omega) hret fun s' hrow => by
      rw [show s'.row = s.row from hrow]
      exact hH.run.table
  obtain ⟨pa, _, hhead, hpage⟩ := hT.page
  have hufree : s'.gUfreePage = heapPage (n + 1) := by
    rw [hT.ufree, hH.ufree]
    unfold u64
    simp only [heapPage, userFreeAddressStart, pgSize]
    omega
  have hhigh : 0x80200000 ≤ pa := by
    refine hH.descending.high hhead (by omega) fun p hp => ?_
    have hin := hP.sys.inv.ranges.frame (hP.sys.inv.pages.pool.page p hp)
    have htrap := (tinyMachine 0x10000).trap_base
    simp only [kernBase, dramBase] at htrap ⊢
    omega
  have hother : ∀ j < 512, j ≠ n →
      leaf s'.mem (s'.procs 0).pagetable (heapPage j)
        = leaf s.mem (s.procs 0).pagetable (heapPage j) := by
    intro j hj hne
    rw [hH.ufree] at hpage
    refine hpage.others _ (Nat.lt_trans (heapPage_lt hj) (by decide)) ?_
    rw [heapPage_div, heapPage_div]
    omega
  obtain ⟨w, hw, hpa, huser⟩ := hpage.leaf
  rw [hH.ufree] at hw
  refine ⟨s', rest', hA', List.forall_mem_cons.mpr ⟨rfl, hH.unloaded⟩,
    ⟨[], hT.list, rfl, nofun⟩, hH.descending.suffix hT.suffix, hufree,
    fun j _ hj => ?_, fun j hlo hj => ?_, fun h2 => ?_⟩
  · by_cases hjn : j = n
    · rw [hjn]
      exact ⟨w, huser, hpa ▸ hhigh, hw⟩
    · rw [hother j (by omega) hjn]
      exact hH.mapped j (Nat.zero_le j) (by omega)
  · rw [hother j hj (by omega)]
    exact hH.vacant j (by omega) hj
  -- with a page before it, no table was taken
  · obtain ⟨w₀, -, -, hw₀⟩ := hH.mapped 0 (Nat.le_refl 0) (by omega)
    have hmissing := tablesMissing_heap (k := n) (by decide : 0 < 512) (by omega)
      (by rw [hw₀]; exact nofun)
    have hlen' := hT.length
    rw [hH.ufree, hmissing, Nat.zero_add] at hlen'
    have hrest : rest' = rest.tail :=
      (List.suffix_of_suffix_length_le hT.suffix (List.tail_suffix rest)
        (Nat.le_of_eq hlen'.symm)).eq_of_length hlen'.symm
    have hone := List.getElem?_eq_getElem (show 1 < rest.length by omega)
    have habove := hH.descending.above hone (Nat.le_refl 1)
    refine ⟨w, rest[1], ?_, ?_, hw⟩
    · rw [hrest, List.head?_eq_getElem?, List.getElem?_tail]
      exact hone
    · rw [Nat.sub_self, ← List.head?_eq_getElem?, hhead, Nat.one_mul] at habove
      rw [hpa]
      exact Option.some.inj habove

/-- One page less. -/
theorem Hoard.giveBack {k : Nat} {h : List (Entry Kernel Op)} {rest : List Nat}
    (hH : Hoard k 11 h s rest) (hk : k < 10) :
    ∃ s', Hoard (k + 1) 11 (⟨.free (heapPage k), s, s'⟩ :: h) s' rest := by
  obtain ⟨w, huser, hhigh, hw⟩ := hH.mapped k (Nat.le_refl k) (by omega)
  obtain ⟨heap, own, back, hP, hback, hfront⟩ := hH.plain
  have hlow := heapPage_lt (show k < 512 by omega)
  have hbelow : heapPage k < maxVa := Nat.lt_trans hlow (by decide)
  have hword : heapPage k < 2 ^ 64 := Nat.lt_trans hlow (by decide)
  have hno : Unrecorded s (heapPage k) :=
    hP.sys.unrecorded (hP.image 0 hP.sys.current) (Nat.le_add_right ..)
      (Nat.lt_trans hlow (by decide))
  have hret : ∀ heap own fl, Plain (tinyMachine 0x10000) .code
      (31900 + (100 - 4 * 11)) 16 s heap own fl [] 0 →
      Returns (step (tinyMachine 0x10000) (.free (heapPage k))) (fun _ s' =>
        (∃ heap' own' fl', Plain (tinyMachine 0x10000) .code
          (31900 + (100 - 4 * 11)) 16 s' heap' own' fl' [] 0) ∧
        ∃ heap own own', FreedHeap (tinyMachine 0x10000) heap 0 (heapPage k) w []
          s own (back ++ rest) s' own') s := by
    intro heap' own₀ fl hP'
    obtain rfl := hP'.sys.inv.pages.pool.chain.unique hP.sys.inv.pages.pool.chain
    simp only [step, wp_bind, wp_pure]
    refine (wp_freeSpace hP'.sys (Or.inl ⟨heapPage_aligned k, hbelow, w, hw, huser⟩)
      hword (hno 0 hP'.sys.running.current)).mono fun _ s' hres => ?_
    obtain ⟨-, hbig⟩ | ⟨w', own', hf⟩ := hres
    · exact absurd hbelow (Nat.not_lt.mpr hbig)
    · obtain rfl := Option.some.inj (hw.symm.trans hf.mapped)
      exact ⟨⟨_, own', _, hP'.freed (by decide) hf⟩, heap', own₀, own', hf⟩
  obtain ⟨s', hA', -, _, _, own', hf⟩ := hH.run.next
    (.free (heapPage k)) ⟨hword, hno⟩
    (fun h => absurd h (by decide)) (Nat.zero_le _) hret fun s' hrow => by
      rw [show s'.row = s.row from hrow]
      exact hH.run.table
  have hother : ∀ j < 512, j ≠ k →
      leaf s'.mem (s'.procs 0).pagetable (heapPage j)
        = leaf s.mem (s.procs 0).pagetable (heapPage j) := by
    intro j hj hne
    refine hf.others _ (Nat.lt_trans (heapPage_lt hj) (by decide)) ?_
    rw [heapPage_div, heapPage_div]
    omega
  refine ⟨s', hA', List.forall_mem_cons.mpr ⟨rfl, hH.unloaded⟩,
    ⟨pte2pa w :: back, hf.sys.inv.pages.pool.chain, by rw [List.length_cons, hback],
      List.forall_mem_cons.mpr ⟨hhigh, hfront⟩⟩, hH.descending,
    hf.ufree.trans hH.ufree, fun j hlo hj => ?_, fun j hlo hj => ?_, fun h2 => ?_⟩
  · rw [hother j (by omega) (by omega)]
    exact hH.mapped j (by omega) hj
  · rw [hother j hj (by omega)]
    exact hH.vacant j hlo hj
  · rw [hother _ (by decide) (by omega)]
    exact hH.last h2

/-- Eleven pages taken, and ten of them given back. -/
theorem hoard_eleven : ∃ h s rest, Hoard 10 11 h s rest := by
  have htake : ∀ n ≤ 11, ∃ h s rest, Hoard 0 n h s rest := by
    intro n hn
    induction n with
    | zero =>
        obtain ⟨s, rest, hH⟩ := hoard_boot
        exact ⟨[], s, rest, hH⟩
    | succ n ih =>
        obtain ⟨h, s, rest, hH⟩ := ih (by omega)
        obtain ⟨s', rest', hH'⟩ := hH.take hn
        exact ⟨_, s', rest', hH'⟩
  have hback : ∀ k ≤ 10, ∃ h s rest, Hoard k 11 h s rest := by
    intro k hk
    induction k with
    | zero => exact htake 11 (Nat.le_refl 11)
    | succ k ih =>
        obtain ⟨h, s, rest, hH⟩ := ih (by omega)
        obtain ⟨s', hH'⟩ := hH.giveBack hk
        exact ⟨_, s', rest, hH'⟩
  exact hback 10 (Nat.le_refl 10)

/-- A store of user code leaves the tables alone. -/
theorem Idle.leaf_eq (hi : Idle own s s') (hS : Sys cfg heap s own fl q c) (va : Nat) :
    leaf s'.mem (s'.procs c).pagetable va = leaf s.mem (s.procs c).pagetable va := by
  rw [(SameSpace.of_fixed (hi.fixed c)).pagetable]
  refine leaf_congr (hS.inv.space c hS.current).regions.tables fun path t ht => ?_
  refine hi.agree t (hS.inv.pages.table_aligned path t ht) ?_ ?_
  · intro j v
    rw [ht]
    exact Owner.noConfusion
  · rw [ht]
    exact Owner.noConfusion

/-- Eleven pages taken and ten given back, the process writes to the one
it has left: the next file table is the page below it. -/
theorem exists_overwrites : ∃ h s heap own fl p,
    KernelRun anyEvent (tinyMachine 0x10000) anyOp h s ∧
      Sys (tinyMachine 0x10000) heap s own fl [] 0 ∧ freeSlot s = some 1 ∧
      3 * recorded s 0 + 13 ≤ fl.length ∧
      Overwrites (tinyMachine 0x10000) s own fl 0 p := by
  obtain ⟨h, s, rest, hH⟩ := hoard_eleven
  obtain ⟨w, huser, -, hw⟩ := hH.mapped 10 (Nat.le_refl 10) (by decide)
  obtain ⟨w', p, hp, hpa, hw'⟩ := hH.last (by decide)
  obtain rfl := Option.some.inj (hw.symm.trans hw')
  obtain ⟨heap, own, back, hP, hback, hfront⟩ := hH.plain
  have hoff : (heapPage 10 + 8) / 4096 = heapPage 10 / 4096 := by decide
  have hw8 : leaf s.mem (s.procs 0).pagetable (heapPage 10 + 8) = some w := by
    rw [leaf_page (by decide) (by decide) hoff]
    exact hw
  have hret : ∀ heap own fl, Plain (tinyMachine 0x10000) .code
      (31900 + (100 - 4 * 11)) 16 s heap own fl [] 0 →
      Returns (step (tinyMachine 0x10000) (.store (heapPage 10 + 8) 255))
        (fun _ s' => (∃ heap' own' fl', Plain (tinyMachine 0x10000) .code
          (31900 + (100 - 4 * 11)) 16 s' heap' own' fl' [] 0) ∧
        (∃ heap own, Plain (tinyMachine 0x10000) .code (31900 + (100 - 4 * 11)) 16 s'
          heap own (back ++ rest) [] 0) ∧
        leaf s'.mem (s'.procs 0).pagetable (heapPage 10) = some w ∧
        s'.mem (p + pgSize + 8) = 255) s := by
    intro heap' own' fl hP'
    obtain rfl := hP'.sys.inv.pages.pool.chain.unique hP.sys.inv.pages.pool.chain
    refine ((wp_storeSpace hP'.sys).also (wp_userStore_mapped hP'.sys (by decide) hw8
      huser)).mono fun _ s' hres => ?_
    obtain ⟨⟨hidle, hS', -⟩, hs'⟩ := hres
    refine ⟨⟨_, _, _, hP'.idle hidle hS'⟩, ⟨_, _, hP'.idle hidle hS'⟩,
      (hidle.leaf_eq hP'.sys _).trans hw, ?_⟩
    have hmod : (heapPage 10 + 8) % pgSize = 8 := by decide
    have hbyte : ∀ (b : UInt8) (a : Nat), store s.mem 1 a b.toNat a = b := by
      intro b a
      unfold store
      rw [if_pos ⟨Nat.le_refl a, Nat.lt_succ_self a⟩, Nat.sub_self, Nat.pow_zero,
        Nat.div_one, UInt8.ofNat_toNat]
    have hm : s'.mem = store s.mem 1 (pte2pa w + (heapPage 10 + 8) % pgSize)
        (255 : UInt8).toNat := by rw [hs']
    rw [hm, hpa, hmod, hbyte]
  obtain ⟨s', hA', -, ⟨heap', own', hP'⟩, hleaf, hbyte⟩ := hH.run.next
    (.store (heapPage 10 + 8) 255) trivial
    (fun h => absurd h (by decide)) (Nat.zero_le _) hret fun s' hrow => by
      rw [show s'.row = s.row from hrow]
      exact hH.run.table
  have hfiles : (s'.hostFiles : Nat) = 4 := by
    rw [hA'.run.files, List.countP_eq_zero.mpr]
    rintro e (_ | ⟨_, he⟩)
    · exact Bool.false_ne_true
    · rw [hH.unloaded e he]
      exact Bool.false_ne_true
  refine ⟨_, s', heap', own', _, p, hA'.any, hP'.sys, hA'.freeSlot.trans (by decide),
    ?_, rfl, ?_, ?_, ⟨heapPage 10 / pgSize, ?_⟩, ?_⟩
  · rw [(hP'.image 0 hP'.sys.current).recorded]
    exact Nat.le_trans (by decide) hP'.room
  · have hlen : back.length = tableCount (tinyMachine 0x10000)
        ((back ++ rest).headD 0) + 5 := by
      rw [hback]
      obtain ⟨b, back', rfl⟩ := List.exists_cons_of_length_pos
        (show 0 < back.length by omega)
      have hlo := hfront b (List.mem_cons_self ..)
      have hhi := hP'.sys.inv.ranges.frame
        (hP'.sys.inv.pages.pool.page b (List.mem_cons_self ..))
      unfold tableCount
      rw [if_neg]
      intro hpx
      have hval := congrArg Fin.val hpx
      rw [px_val, px_val] at hval
      change 0x80002000 / 2 ^ 21 % 512 = b / 2 ^ 21 % 512 at hval
      omega
    unfold filesPage
    rw [← hlen, List.getElem?_append_right (Nat.le_refl _), Nat.sub_self,
      ← List.head?_eq_getElem?]
    exact hp
  · rw [← hpa]
    exact .leaf (by decide) hleaf
  · rcases (hP'.sys.inv.space 0 hP'.sys.current).regions.leaves _ w (by decide) hleaf
      with ⟨k, hk, hc⟩ | hheap
    · exact absurd hc (hP'.sys.unrecorded (hP'.image 0 hP'.sys.current) (by decide)
        (by decide) 0 hP'.sys.running.current k hk)
    · rw [← hpa]
      exact (hheap.of_user huser.1).2.1
  · rw [hfiles, show p + FileTable.nfileOff = p + pgSize + 8 from rfl]
    unfold load
    rw [hbyte]
    show 255 + 256 * _ ≠ 4
    omega

/-- Fork duplicates the space of the parent where the number of files is
stored aside: whenever three pages are free for every recorded page, and 13
more, and otherwise unless an allocation fails. Where it is stored over a
frame of the parent, fork does not. -/
theorem fork_duplicates_space (hK : KInv cfg P s own fl (InUse s) heap)
    (ha : InUse s a) (hslot : freeSlot s = some c) (hq : ReadyQueue s q)
    (hlive : ∀ i ∈ q, InUse s i)
    (hclear : ∀ p ∈ fl.head?, ∀ k, 3 ≤ k →
      k < (s.procs a).totalMappedRegion →
      ¬ (regionAt s.mem (s.procs a).mappedInfo k).Covers p)
    (hstray : cfg.tableFits = false → ∀ k, 3 ≤ k →
      k < (s.procs a).totalMappedRegion →
      ¬ (regionAt s.mem (s.procs a).mappedInfo k).Covers (kernBase + pgSize)) :
    (Aside cfg s.hostFiles fl →
      (3 * recorded s a + 13 ≤ fl.length →
        Returns (doFork cfg a) (fun _ s' => DuplicatedSpace cfg a c q s s') s) ∧
      Wp outOfPages (fun _ _ => False) (doFork cfg a)
        (fun _ s' => DuplicatedSpace cfg a c q s s') s) ∧
    ∀ p, Overwrites cfg s own fl a p →
      (3 * recorded s a + 13 ≤ fl.length →
        Returns (doFork cfg a) (fun _ s' => ¬ DuplicatedSpace cfg a c q s s') s) ∧
      Wp outOfPages (fun _ _ => False) (doFork cfg a)
        (fun _ s' => ¬ DuplicatedSpace cfg a c q s s') s := by
  have hfree : ¬ InUse s c := fun h => h (freeSlot_status hslot)
  have hcq : c ∉ q := fun hmem => hfree (hlive c hmem)
  have hac : a ≠ c := by
    intro heq
    rw [heq] at ha
    exact hfree ha
  -- the list is long enough, or a failed allocation is excused
  have hrooms : ∀ {X : Kernel → Prop},
      (∀ bad : Event → Prop, Room bad (3 * recorded s a + 13) fl →
        Wp bad (fun _ _ => False) (doFork cfg a) (fun _ s' => X s') s) →
      (3 * recorded s a + 13 ≤ fl.length →
        Returns (doFork cfg a) (fun _ s' => X s') s) ∧
      Wp outOfPages (fun _ _ => False) (doFork cfg a) (fun _ s' => X s') s :=
    fun hfork => ⟨fun hlen => hfork _ (Or.inl hlen), hfork outOfPages (Or.inr rfl)⟩
  refine ⟨fun haside => hrooms fun bad hroom => ?_,
    fun p hw => hrooms fun bad hroom => ?_⟩
  · apply (wp_forkProcess hK ha hslot hfree hq hcq hclear hstray haside hroom).mono
    intro _ s' hres
    obtain ⟨own', fl', ho⟩ := hres
    exact ho.duplicated hK ha hac
  · exact wp_forkOverwritten hK ha hslot hq hlive hclear hstray hw hroom

/-- The first fork on the small machine. -/
theorem fork_duplicates_space_first : ∃ s,
    KernelRun anyEvent (tinyMachine 0x10000) anyOp [] s ∧
    Returns (doFork (tinyMachine 0x10000) 0)
      (fun _ s' => DuplicatedSpace (tinyMachine 0x10000) 0 1 [] s s') s := by
  obtain ⟨s, own, fl, hrun, hb, hone⟩ :=
    smallMachine_run (C := anyOp) tinyImage_low
  have hK := hb.sys.inv
  refine ⟨s, hrun, ((fork_duplicates_space hK hb.sys.current hb.freeSlot
    hb.sys.running.queued.chain (fun _ h => absurd h List.not_mem_nil)
    (fun p hp _ => hK.clear hb.sys.current
      (hK.pages.pool.page p (List.mem_of_mem_head? hp)))
    fun _ _ => hK.clear_stray hb.sys.current).1 hone.aside).1 ?_⟩
  have hlen := hone.length
  rw [smallMachine_pool] at hlen
  rw [(hone.image (hK.space 0 hb.sys.current) (by decide)).recorded]
  omega

/-- A process takes eleven heap pages, gives back the first ten, writes to
the last one and forks: the number of files goes to the page it wrote. -/
theorem fork_overwrites_parent : ∃ h s fl,
    KernelRun anyEvent (tinyMachine 0x10000) anyOp h s ∧ s.current = some 0 ∧
    freeSlot s = some 1 ∧ ReadyQueue s [] ∧ FreeList s fl ∧
    3 * recorded s 0 + 13 ≤ fl.length ∧
    Returns (doFork (tinyMachine 0x10000) 0)
      (fun _ s' => ¬ DuplicatedSpace (tinyMachine 0x10000) 0 1 [] s s') s := by
  obtain ⟨h, s, heap, own, fl, p, hrun, hS, hslot, hlen, hw⟩ := exists_overwrites
  have hK := hS.inv
  exact ⟨h, s, fl, hrun, hS.running.current, hslot, hS.running.queued.chain,
    hK.pages.pool.chain, hlen, wp_forkOverwritten hK hS.current hslot
      hS.running.queued.chain (fun _ h => absurd h List.not_mem_nil)
      (fun p hp _ => hK.clear hS.current
        (hK.pages.pool.page p (List.mem_of_mem_head? hp)))
      (fun _ _ => hK.clear_stray hS.current) hw (Or.inl hlen)⟩

end Pke
