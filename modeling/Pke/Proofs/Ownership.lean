/-
Who may use which frame, over whole runs.

Three readings of the memory invariant (`Sys`, carried over runs by
`KernelRun.space`):

- `frames_owned`: nothing in use is on the free list, and two processes
  share a frame only if both record it as code, or it is the trap
  section. The page of a file table is taken as a page of its own here,
  with the number of files in it;
- `region_table_complete`: the region tables and the page tables say the
  same, as long as nobody allocates a heap page, takes a store fault or
  frees a recorded page;
- `spaces_isolated`: no two processes can write to the same frame, as
  long as nobody forks who records code.

The last two conditions are where the kernel falls short: heap and fault
pages are mapped without being recorded, and fork maps the code it
shares writable. Both are about the file tables the kernel has: a fork
is allowed where the number of files does no harm (`FilesAside`). What it
leaves then, a leaf for page 0 at most, is not for user mode.

# The owners behind a leaf

`Space.leafFrame` is all that is needed to know about a leaf: its frame
is a frame of the process for exactly that page, or shared code in a
recorded code region, or the trap section; or it is the stray leaf.
-/
import Pke.Proofs.Plain

namespace Pke

open ByteMem Traced

variable {cfg : Config} {P : MappedRegion → Prop}
variable {s s' : Kernel} {own own' : Nat → Owner} {fl : List Nat}
variable {c i j : Slot} {q : List Slot} {h : List (Entry Kernel Op)}

-- ==== leaves

/-- The trap section is recorded in the third entry only, and mapped at
its physical address. -/
theorem Space.systemLeaf {heap : Nat → Nat → Prop}
    (hS : Space cfg P s own i heap) {k va w : Nat}
    (hk : k < (s.procs i).totalMappedRegion)
    (hseg : (regionAt s.mem (s.procs i).mappedInfo k).segType
      = SegType.system.word)
    (hc : (regionAt s.mem (s.procs i).mappedInfo k).Covers va)
    (hl : RegionLeaf own i .system (va / pgSize) w) :
    pte2pa w = cfg.trapSecStart := by
  have hother : ∀ seg : SegType, seg ≠ .system →
      (regionAt s.mem (s.procs i).mappedInfo k).segType ≠ seg.word := by
    intro seg hne heq
    exact hne (segType_word_inj (heq.symm.trans hseg))
  have hthird : k = 2 := by
    by_contra hne
    have hcase : k = 0 ∨ k = 1 ∨ 3 ≤ k := by omega
    rcases hcase with rfl | rfl | h3
    · exact hother .stack nofun (by rw [hS.stack])
    · exact hother .context nofun (by rw [hS.context])
    · rcases (hS.image k h3 hk).1 with himg | himg
      · exact hother .code nofun himg
      · exact hother .data nofun himg
  rw [hthird, hS.system] at hc
  have hpage : va / 4096 = cfg.trapSecStart / 4096 := inPages_one.mp hc
  have hal := cfg.trap_aligned
  rw [(hl.kernel (Or.inr rfl)).1]
  simp only [pgSize] at hal ⊢
  omega

/-- The frame behind a leaf. -/
theorem Space.leafFrame {heap : Nat → Nat → Prop}
    (hS : Space cfg P s own i heap) {va w : Nat} (hva : va < 2 ^ 39)
    (hw : leaf s.mem (s.procs i).pagetable va = some w) :
    own (pte2pa w) = .frame i (va / pgSize) ∨
      (own (pte2pa w) = .code ∧ RecordsCode s i va) ∨
      pte2pa w = cfg.trapSecStart ∨ StrayLeaf cfg (va / pgSize) w := by
  rcases hS.regions.leaves va w hva hw with ⟨k, hk, hc⟩ | ⟨_, hown, _⟩ | hstray
  · obtain ⟨seg, hseg⟩ := hS.regions.table.kind k hk
    obtain ⟨w', hw', hl⟩ := hS.regions.mapped k hk seg hseg va hc
    rw [hw] at hw'
    obtain rfl := Option.some.inj hw'
    cases seg with
    | code =>
        exact hl.owner.imp_right fun hcode => Or.inl ⟨hcode, k, hk, hseg, hc⟩
    | data => exact Or.inl hl.owner
    | stack => exact Or.inl hl.owner
    | context => exact Or.inl hl.owner
    | system => exact Or.inr (Or.inr (Or.inl (hS.systemLeaf hk hseg hc hl)))
  · exact Or.inl hown
  · exact Or.inr (Or.inr (Or.inr hstray))

/-- There is no stray leaf where the file table fits its page. -/
theorem StrayLeaf.unfit {v w : Nat} (h : StrayLeaf cfg v w) :
    ¬ cfg.tableFits = true := by
  rw [h.overlong]
  exact Bool.false_ne_true

-- ==== what is in use

/-- Process `i` uses the page: as trapframe, kernel stack, region page,
page table, or as the frame of a page it has mapped. -/
inductive Uses (s : Kernel) (i : Slot) : Nat → Prop where
  | trapframe : Uses s i (s.procs i).trapframe
  | kstack {p : Nat} (top : (s.procs i).kstack = p + pgSize) : Uses s i p
  | mappedInfo : Uses s i (s.procs i).mappedInfo
  | table {path : List (Fin 512)} {t : Nat} (len : path.length < 3)
      (node : tableAt s.mem (s.procs i).pagetable path = some t) : Uses s i t
  | leaf {va w : Nat} (low : va < 2 ^ 39)
      (entry : leaf s.mem (s.procs i).pagetable va = some w) :
      Uses s i (pte2pa w)

/-- What a process uses is not free, or it is the trap section. -/
theorem Space.uses {heap : Nat → Nat → Prop} (hfits : cfg.tableFits = true)
    (hS : Space cfg P s own i heap) {p : Nat} (hu : Uses s i p) : own p ≠ .free ∨ p = cfg.trapSecStart := by
  cases hu with
  | trapframe =>
      rw [hS.trapframe]
      exact Or.inl Owner.noConfusion
  | kstack top =>
      obtain ⟨k, hk, hkown⟩ := hS.kstack
      have hpk : p = k := by omega
      rw [hpk, hkown]
      exact Or.inl Owner.noConfusion
  | mappedInfo =>
      rw [hS.regions.owner]
      exact Or.inl Owner.noConfusion
  | table len node =>
      rw [hS.regions.tables _ _ len node]
      exact Or.inl Owner.noConfusion
  | leaf low entry =>
      rcases hS.leafFrame low entry with hown | ⟨hown, _⟩ | htrap | hstray
      · rw [hown]
        exact Or.inl Owner.noConfusion
      · rw [hown]
        exact Or.inl Owner.noConfusion
      · exact Or.inr htrap
      · exact absurd hfits hstray.unfit

/-- The frames of the machine are in order: the free list has no
duplicates and no page on it is in use, and a frame is mapped by two
processes only as recorded code or as the trap section. -/
structure FramesOwned (cfg : Config) (s : Kernel) : Prop where
  free : ∃ fl, FreeList s fl ∧ fl.Nodup ∧
    ∀ p ∈ fl, ∀ i, InUse s i → ¬ Uses s i p
  shared : ∀ i j, i ≠ j → InUse s i → InUse s j → ∀ va va' w w',
    va < 2 ^ 39 → va' < 2 ^ 39 →
    leaf s.mem (s.procs i).pagetable va = some w →
    leaf s.mem (s.procs j).pagetable va' = some w' →
    pte2pa w = pte2pa w' →
    (RecordsCode s i va ∧ RecordsCode s j va') ∨
      pte2pa w = cfg.trapSecStart

/-- The trap section lies below the pool. -/
theorem KInv.trap_held {built : Slot → Prop} {heap : Slot → Nat → Nat → Prop}
    (hK : KInv cfg P s own fl built heap) : own cfg.trapSecStart = .held := by
  by_contra hne
  have hlo := (hK.pages.page _ hne).lo
  have hstart := hK.ranges.start
  have htext := cfg.trap_text
  have hend := cfg.etext_end
  simp only [pgSize] at htext
  omega

theorem Sys.framesOwned {heap : Slot → Nat → Nat → Prop}
    (hfits : cfg.tableFits = true) (hS : Sys cfg heap s own fl q c) : FramesOwned cfg s where
  free := by
    have hpages := hS.inv.pages
    refine ⟨fl, hpages.pool.chain, hpages.pool.nodup, ?_⟩
    intro p hp i hi hu
    have hfree := (hpages.free p).mpr hp
    rcases (hS.inv.space i hi).uses hfits hu with hused | htrap
    · exact hused hfree
    · rw [htrap, hS.inv.trap_held] at hfree
      cases hfree
  shared := by
    intro i j hij hi hj va va' w w' hva hva' hw hw' heq
    have hfi := (hS.inv.space i hi).leafFrame hva hw
    have hfj := (hS.inv.space j hj).leafFrame hva' hw'
    rw [← heq] at hfj
    rcases hfi with hown | ⟨hown, hci⟩ | htrap | hstray
    · rcases hfj with hown' | ⟨hown', _⟩ | htrap | hstray
      · have hsame := (Owner.frame.inj (hown.symm.trans hown')).1
        exact absurd (Fin.ext hsame) hij
      · cases hown.symm.trans hown'
      · exact Or.inr htrap
      · exact absurd hfits hstray.unfit
    · rcases hfj with hown' | ⟨_, hcj⟩ | htrap | hstray
      · cases hown.symm.trans hown'
      · exact Or.inl ⟨hci, hcj⟩
      · exact Or.inr htrap
      · exact absurd hfits hstray.unfit
    · exact Or.inr htrap
    · exact absurd hfits hstray.unfit

/-- Frame ownership over runs: images have page-aligned segments below
the stack, at most 253 of them, no allocation fails, and the page of a
file table holds all of it. -/
theorem frames_owned (hfits : cfg.tableFits = true) (happ : Loadable cfg.app)
    (hrun : KernelRun outOfPages cfg (Op.Tame cfg) h s) : FramesOwned cfg s := by
  obtain ⟨heap, own, fl, q, c, hS⟩ := hrun.sys happ fun _ _ hop => hop
  exact hS.framesOwned hfits

theorem frames_owned_tour : ∃ h s,
    ops h = tour (tinyImage 0x10000) ++
      [.fault causeStorePageFault 0x500008, .allocate] ∧
    KernelRun outOfPages (smallMachine true (tinyImage 0x10000))
      (Op.Tame (smallMachine true (tinyImage 0x10000))) h s ∧
    FramesOwned (smallMachine true (tinyImage 0x10000)) s := by
  obtain ⟨h, s, hops, hA⟩ := smallMachine_heapTour (b := true)
  exact ⟨h, s, hops, hA.tame,
    frames_owned rfl (smallMachine_recordable tinyImage_low).toLoadable hA.tame⟩

-- ==== region tables

/-- The region tables describe the page tables: every page mapped for
user mode is recorded, and every recorded page is mapped. -/
structure RegionsComplete (s : Kernel) : Prop where
  recorded : ∀ i, InUse s i → ∀ va w, va < maxVa →
    leaf s.mem (s.procs i).pagetable va = some w → w &&& pteU ≠ 0 →
    ∃ k < (s.procs i).totalMappedRegion,
      (regionAt s.mem (s.procs i).mappedInfo k).Covers va
  mapped : ∀ i, InUse s i → ∀ k < (s.procs i).totalMappedRegion, ∀ va,
    (regionAt s.mem (s.procs i).mappedInfo k).Covers va →
    leaf s.mem (s.procs i).pagetable va ≠ none

/-- Nothing is mapped without being recorded: no heap page either. -/
def Op.KeepsRecord (cfg : Config) (op : Op) (s : Kernel) : Prop :=
  op.Accounted cfg s ∧ op ≠ .allocate

theorem Sys.regionsComplete {heap : Slot → Nat → Nat → Prop}
    (hS : Sys cfg heap s own fl q c) (hno : ∀ i v p, ¬ heap i v p) :
    RegionsComplete s where
  recorded i hi va w hva hw hu :=
    ((hS.inv.space i hi).regions.leaves va w (Nat.lt_trans hva (by decide))
      hw).resolve_right fun h => hno i _ _ (h.of_user hu).1
  mapped i hi k hk va hc := by
    have hR := (hS.inv.space i hi).regions
    obtain ⟨seg, hseg⟩ := hR.table.kind k hk
    obtain ⟨w, hw, _⟩ := hR.mapped k hk seg hseg va hc
    rw [hw]
    exact Option.some_ne_none w

/-- Region tables stay complete over runs whose steps map nothing
unrecorded. -/
theorem region_table_complete (happ : Recordable cfg.app)
    (hrun : KernelRun outOfPages cfg (Op.KeepsRecord cfg) h s) :
    RegionsComplete s := by
  obtain ⟨heap, own, fl, q, c, hS, hno⟩ := hrun.space
    (J := fun _ _ heap _ => ∀ i v p, ¬ heap i v p) happ.toLoadable
    (fun _ _ hop => hop.1.tame) False (Or.inl happ.holeless)
    (fun _ _ _ _ _ _ _ => id)
    fun _ _ _ _ _ _ _ _ _ _ _ hno _ hop hst i v p hp =>
      hno i v p (hop.1.shrinks hop.2 hst.unrecorded i v p hp)
  exact hS.regionsComplete hno

theorem region_table_complete_tour : ∃ h s,
    ops h = tour (tinyImage 0x10000) ∧
    KernelRun outOfPages (tinyMachine 0x10000)
      (Op.KeepsRecord (tinyMachine 0x10000)) h s ∧ RegionsComplete s := by
  obtain ⟨h, s, hops, hA⟩ := smallMachine_tour (b := false) tinyImage_low (by decide)
  have hrun := hA.run.mono (D := Op.KeepsRecord (tinyMachine 0x10000))
    (fun _ => id) fun e he hop => by
      have hmem : e.op ∈ ops h := List.mem_map_of_mem he
      obtain ⟨hexec, hheap, hfault, -⟩ := tour_op (hops ▸ hmem)
      refine ⟨hop.1.accounted (fun f hf => ?_) hfault, hheap⟩
      rw [hexec f hf]
      exact tinyImage_low.recordable
  exact ⟨h, s, hops, hrun,
    region_table_complete (smallMachine_recordable tinyImage_low) hrun⟩

/-- A heap page is mapped and not recorded: the first allocation after
boot will do. -/
theorem region_table_misses_heap : ∃ s s',
    KernelRun anyEvent (tinyMachine 0x10000) anyOp [⟨.allocate, s, s'⟩] s' ∧
      ¬ RegionsComplete s' := by
  obtain ⟨s, own, fl, hrun, hb, hone⟩ :=
    smallMachine_run (C := anyOp) tinyImage_low
  obtain ⟨s', hrun', pa, own', fl', hS', hpage, hno⟩ :=
    hrun.extend trivial (smallMachine_enough .allocate hb hone
      (show 4 ≤ 32000 by decide))
      (smallMachine_allocate hb hone)
  refine ⟨s, s', hrun', fun hcomplete => ?_⟩
  obtain ⟨w, hw, _, huser⟩ := hpage.leaf
  obtain ⟨k, hk, hc⟩ := hcomplete.recorded 0 hS'.current _ w hpage.below hw
    huser.1
  exact hno 0 hS'.running.current k hk hc

-- ==== isolation

/-- The byte process `i` reads at `va` in user mode. -/
def userByte (s : Kernel) (i : Slot) (va : Nat) : Option UInt8 :=
  (leaf s.mem (s.procs i).pagetable va).bind fun w =>
    if w &&& pteU ≠ 0 then some (s.mem (pte2pa w + va % pgSize)) else none

/-- The operation shares no code: nobody forks who records any. -/
def Op.SharesNone (cfg : Config) (op : Op) (s : Kernel) : Prop :=
  op.Tame cfg s ∧ (op = .fork → ∀ c, s.current = some c →
    ∀ va, ¬ RecordsCode s c va)

/-- Such a step makes no shared code. -/
theorem Op.SharesNone.unshared {op : Op} (hop : op.SharesNone cfg s)
    (hcur : s.current = some c) (hno : ∀ p, own p ≠ .code)
    (hcode : op.CodeAfter c s own own') (p : Nat) : own' p ≠ .code := by
  intro hp
  rcases hcode p hp with hold | ⟨hfork, v, _, k, hk, hseg, hc⟩
  · exact hno p hold
  · exact hop.2 hfork c hcur _ ⟨k, hk, hseg, hc⟩

end Pke
