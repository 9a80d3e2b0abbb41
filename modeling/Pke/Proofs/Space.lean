/-
Address spaces, and the invariant of the whole kernel.

`Space` is everything that holds of one process in use: its region table
describes its page table (`Regions`), the first three entries are the
ones every process starts with, and its kernel stack and region page are
its own. `KInv` says this of every slot in `built`, and that no page is
owned by a slot outside it.

# Working on one process

Everything the kernel does to memory it does on behalf of one slot.
`Touches i` is that footprint: only pages of slot `i` and free pages
change content or owner, and a page that stops being free goes to slot
`i` or out of sight. The spaces of all other slots survive anything with
that footprint (`Space.congr`), so an operation on slot `i` has to
account for slot `i` alone (`KInv.touches`).
-/
import Pke.Proofs.Regions
import Pke.Model.Boot

namespace Pke

open ByteMem Traced

/-- The slot a page belongs to. -/
def Owner.tag : Owner → Option Nat
  | .table i _ => some i
  | .frame i _ => some i
  | .kstack i => some i
  | .regions i => some i
  | .free => none
  | .held => none
  | .code => none

/-- The state without memory, free list, page accounts, the count of
host files and slot `i`. -/
def Kernel.apart (i : Slot) (s : Kernel) : Kernel :=
  { s.rest with
    procs := Function.update s.procs i blankProcess
    hostFiles := ⟨0, Nat.succ_pos _⟩ }

/-- Only slot `i` and its pages, or free pages, changed. -/
structure Touches (i : Slot) (s : Kernel) (own : Nat → Owner)
    (s' : Kernel) (own' : Nat → Owner) : Prop where
  apart : s'.apart i = s.apart i
  keep : ∀ p, own p ≠ .free → (own p).tag ≠ some i.val → own' p = own p
  agree : ∀ p, p % pgSize = 0 → own p ≠ .free → (own p).tag ≠ some i.val →
    Agree s.mem s'.mem p (p + 4096)
  yield : ∀ p, own p = .free ∨ (own p).tag = some i.val →
    own' p = .free ∨ own' p = .held ∨ (own' p).tag = some i.val

/-- What the number of files of a new process looks like where it falls
into a page table: a leaf for page 0, not for user mode. -/
structure StrayLeaf (cfg : Config) (v w : Nat) : Prop where
  overlong : cfg.tableFits = false
  page : v = (kernBase + pgSize) / pgSize
  small : w < 1024
  kernel : w &&& pteU = 0

/-- Leaves nobody recorded: at the pages and with the frames of `heap`,
frames of the process and for user mode, or the stray one. -/
def heapLeaf (cfg : Config) (own : Nat → Owner) (i : Slot)
    (heap : Nat → Nat → Prop) (v w : Nat) : Prop :=
  (heap v (pte2pa w) ∧ own (pte2pa w) = .frame i v ∧ UserWritable w) ∨
    StrayLeaf cfg v w

/-- Process `i` and its address space are in order; the regions of its
image have the property `P`. -/
structure Space (cfg : Config) (P : MappedRegion → Prop) (s : Kernel) (own : Nat → Owner) (i : Slot)
    (heap : Nat → Nat → Prop) : Prop where
  regions : Regions s.mem own i (s.procs i).pagetable (s.procs i).mappedInfo
    (s.procs i).totalMappedRegion (heapLeaf cfg own i heap)
  kstack : ∃ k, (s.procs i).kstack = k + pgSize ∧ own k = .kstack i
  three : 3 ≤ (s.procs i).totalMappedRegion
  stack : regionAt s.mem (s.procs i).mappedInfo 0
    = ⟨userStackTop - pgSize, 1, SegType.stack.word⟩
  context : regionAt s.mem (s.procs i).mappedInfo 1
    = ⟨(s.procs i).trapframe, 1, SegType.context.word⟩
  system : regionAt s.mem (s.procs i).mappedInfo 2
    = ⟨cfg.trapSecStart, 1, SegType.system.word⟩
  image : ∀ k, 3 ≤ k → k < (s.procs i).totalMappedRegion →
    ((regionAt s.mem (s.procs i).mappedInfo k).segType = SegType.code.word ∨
      (regionAt s.mem (s.procs i).mappedInfo k).segType = SegType.data.word) ∧
    P (regionAt s.mem (s.procs i).mappedInfo k)

/-- The addresses of a run: the trap section lies below the pool, the
pool below the top of memory. -/
structure Ranges (cfg : Config) (s : Kernel) : Prop where
  start : cfg.kernelEnd ≤ s.freeMemStartAddr
  stop : s.freeMemEndAddr ≤ physTop

/-- The invariant of the kernel: the page bookkeeping is in order, so is
every process built, and pages belong to built processes only. -/
structure KInv (cfg : Config) (P : MappedRegion → Prop) (s : Kernel) (own : Nat → Owner)
    (fl : List Nat) (built : Slot → Prop) (heap : Slot → Nat → Nat → Prop) :
    Prop where
  pages : Heap s own fl
  ranges : Ranges cfg s
  space : ∀ i, built i → Space cfg P s own i (heap i)
  tagged : ∀ p i, (own p).tag = some i → ∃ j : Slot, j.val = i ∧ built j

variable {cfg : Config} {P : MappedRegion → Prop} {s s' s₁ s₂ s₃ : Kernel}
variable {own own' own₁ own₂ own₃ : Nat → Owner} {fl fl' : List Nat}
variable {i j : Slot} {heap heap' : Nat → Nat → Prop}

theorem StrayLeaf.pa {v w : Nat} (h : StrayLeaf cfg v w) : pte2pa w = 0 := by
  unfold pte2pa
  rw [Nat.shiftRight_eq_div_pow, Nat.div_eq_of_lt (by exact h.small)]
  rfl

/-- A leaf for user mode is not the stray one. -/
theorem heapLeaf.of_user {v w : Nat} (h : heapLeaf cfg own i heap v w)
    (hu : w &&& pteU ≠ 0) :
    heap v (pte2pa w) ∧ own (pte2pa w) = .frame i v ∧ UserWritable w :=
  h.resolve_right fun hs => hu hs.kernel

-- ==== footprints

theorem apart_of_rest (hr : s'.rest = s.rest) : s'.apart i = s.apart i := by
  unfold Kernel.apart
  rw [hr, procs_eq hr]

theorem procs_of_apart (h : s'.apart i = s.apart i) (hj : j ≠ i) :
    s'.procs j = s.procs j := by
  have hp := congrArg (fun k => k.procs j) h
  unfold Kernel.apart at hp
  simp only [Function.update_of_ne hj] at hp
  exact hp

theorem start_of_apart (h : s'.apart i = s.apart i) :
    s'.freeMemStartAddr = s.freeMemStartAddr := by
  show (s'.apart i).freeMemStartAddr = (s.apart i).freeMemStartAddr
  rw [h]

theorem stop_of_apart (h : s'.apart i = s.apart i) :
    s'.freeMemEndAddr = s.freeMemEndAddr := by
  show (s'.apart i).freeMemEndAddr = (s.apart i).freeMemEndAddr
  rw [h]

theorem Ranges.congr (hr : Ranges cfg s) (h : s'.apart i = s.apart i) :
    Ranges cfg s' where
  start := by rw [start_of_apart h]; exact hr.start
  stop := by rw [stop_of_apart h]; exact hr.stop

theorem Touches.refl (i : Slot) (s : Kernel) (own : Nat → Owner) :
    Touches i s own s own where
  apart := rfl
  keep _ _ _ := rfl
  agree p _ _ _ := Agree.refl s.mem p (p + 4096)
  yield _ h := h.imp id Or.inr

theorem Touches.trans (h₁ : Touches i s₁ own₁ s₂ own₂)
    (h₂ : Touches i s₂ own₂ s₃ own₃) : Touches i s₁ own₁ s₃ own₃ where
  apart := h₂.apart.trans h₁.apart
  keep p hp ht := by
    have h := h₁.keep p hp ht
    rw [h₂.keep p (by rw [h]; exact hp) (by rw [h]; exact ht), h]
  agree p hal hp ht := by
    have h := h₁.keep p hp ht
    apply (h₁.agree p hal hp ht).trans
    apply h₂.agree p hal
    · rw [h]; exact hp
    · rw [h]; exact ht
  yield p hp := by
    rcases h₁.yield p hp with h | h | h
    · exact h₂.yield p (Or.inl h)
    · -- a page out of sight stays there
      rw [h₂.keep p (by rw [h]; exact Owner.noConfusion)
        (by rw [h]; exact nofun)]
      exact Or.inr (Or.inl h)
    · exact h₂.yield p (Or.inr h)

/-- A write inside a page of the slot. -/
theorem touches_within {q : Nat} {m' : Mem} (hq : q % pgSize = 0)
    (htag : (own q).tag = some i.val) (hw : Within s.mem m' q) :
    Touches i s own { s with mem := m' } own where
  apart := rfl
  keep _ _ _ := rfl
  agree p hal _ ht := by
    apply hw.agree hal hq
    intro hpq
    rw [hpq] at ht
    exact ht htag
  yield _ h := h.imp id Or.inr

/-- Taking a page for the slot. -/
theorem touches_alloc {p : Nat} {o : Owner} (hr : s'.rest = s.rest)
    (hm : s'.mem = s.mem) (hfree : own p = .free)
    (ho : o = .held ∨ o.tag = some i.val) :
    Touches i s own s' (Function.update own p o) where
  apart := apart_of_rest hr
  keep q hq _ := by
    rw [Function.update_of_ne]
    intro hqp
    rw [hqp] at hq
    exact hq hfree
  agree q _ _ _ := by
    rw [hm]
    exact Agree.refl s.mem q (q + 4096)
  yield q hq := by
    by_cases hqp : q = p
    · rw [hqp, Function.update_self]
      exact Or.inr ho
    · rw [Function.update_of_ne hqp]
      exact hq.imp id Or.inr

/-- Giving a page of the slot back. -/
theorem touches_free {p : Nat} (hr : s'.rest = s.rest)
    (hal : p % pgSize = 0) (hw : Within s.mem s'.mem p)
    (htag : (own p).tag = some i.val) :
    Touches i s own s' (Function.update own p .free) where
  apart := apart_of_rest hr
  keep q _ ht := by
    rw [Function.update_of_ne]
    intro hqp
    rw [hqp] at ht
    exact ht htag
  agree q hq _ ht := by
    apply hw.agree hq hal
    intro hqp
    rw [hqp] at ht
    exact ht htag
  yield q hq := by
    by_cases hqp : q = p
    · rw [hqp, Function.update_self]
      exact Or.inl rfl
    · rw [Function.update_of_ne hqp]
      exact hq.imp id Or.inr

/-- Writing to the slot itself. -/
theorem touches_setProc {p : Process} :
    Touches i s own { s with procs := Function.update s.procs i p } own where
  apart := by
    unfold Kernel.apart Kernel.rest
    simp only [Function.update_idem]
  keep _ _ _ := rfl
  agree p _ _ _ := Agree.refl s.mem p (p + 4096)
  yield _ h := h.imp id Or.inr

/-- Relabelling pages of the slot. -/
theorem touches_relabel
    (hkeep : ∀ p, (own p).tag ≠ some i.val → own' p = own p)
    (hyield : ∀ p, (own p).tag = some i.val →
      own' p = .held ∨ (own' p).tag = some i.val) :
    Touches i s own s own' where
  apart := rfl
  keep p _ ht := hkeep p ht
  agree p _ _ _ := Agree.refl s.mem p (p + 4096)
  yield p hp := by
    rcases hp with h | h
    · rw [hkeep p (by rw [h]; exact nofun)]
      exact Or.inl h
    · exact Or.inr (hyield p h)

theorem Grown.touches {root : Nat} {N : List (Fin 512) → Prop}
    (hg : Grown i root N s own fl s' own' fl') (hh : Heap s own fl) :
    Touches i s own s' own' where
  apart := apart_of_rest hg.rest
  keep p hp _ := hg.keep p hp
  agree p hal hp ht := by
    apply hg.agree p hal hp
    intro path hpath
    rw [hpath] at ht
    exact ht rfl
  yield p hp := by
    rcases hp with h | h
    · -- a page that was free is still free, or a table of the tree now
      obtain ⟨tk, hfl, htk⟩ := hg.taken
      have hmem : p ∈ tk ++ fl' := by
        rw [← hfl]
        exact (hh.free p).mp h
      rcases List.mem_append.mp hmem with hp | hp
      · obtain ⟨path, _, hlen, ht⟩ := htk p hp
        rw [hg.tables path p hlen ht]
        exact Or.inr (Or.inr rfl)
      · exact Or.inl ((hg.heap.free p).mpr hp)
    · rw [hg.keep p (by intro hf; rw [hf] at h; cases h)]
      exact Or.inr (Or.inr h)

-- ==== other slots

theorem Touches.tag_ne (ht : Touches i s own s' own') {p k : Nat}
    (hp : (own p).tag = some k) (hk : k ≠ i.val) : own' p = own p := by
  apply ht.keep
  · intro hf
    rw [hf] at hp
    cases hp
  · rw [hp]
    intro heq
    exact hk (Option.some.inj heq)

/-- The fields of a process that its space depends on are the same. -/
structure SameSpace (p p' : Process) : Prop where
  kstack : p'.kstack = p.kstack
  pagetable : p'.pagetable = p.pagetable
  trapframe : p'.trapframe = p.trapframe
  mappedInfo : p'.mappedInfo = p.mappedInfo
  total : p'.totalMappedRegion = p.totalMappedRegion

theorem SameSpace.of_eq {p p' : Process} (h : p' = p) : SameSpace p p' := by
  rw [h]
  exact ⟨rfl, rfl, rfl, rfl, rfl⟩

/-- A space depends on those fields, the content of its tables and its
region page, and the owners of its pages. -/
theorem Space.frame (hS : Space cfg P s own i heap)
    (hproc : SameSpace (s.procs i) (s'.procs i))
    (hown : ∀ p, (own p).tag = some i.val ∨ own p = .code → own' p = own p)
    (hag : ∀ p, (∃ path, own p = .table i path) ∨ own p = .regions i →
      Agree s.mem s'.mem p (p + 4096))
    (hheap : ∀ v p, heap v p → heap' v p) : Space cfg P s' own' i heap' := by
  have htag : ∀ p o, own p = o → o.tag = some i.val → own' p = o := by
    intro p o hp ho
    rw [← hp]
    apply hown
    rw [hp]
    exact Or.inl ho
  have hframe : ∀ p, (∃ u, own p = .frame i u) ∨ own p = .code →
      own' p = own p := by
    intro p hp
    apply hown
    apply hp.imp_left
    intro hu
    obtain ⟨u, hu⟩ := hu
    rw [hu]
    rfl
  have hinfo := hag _ (Or.inr hS.regions.owner)
  have hat : ∀ k < maxRegions,
      regionAt s'.mem (s.procs i).mappedInfo k
        = regionAt s.mem (s.procs i).mappedInfo k :=
    fun k hk => regionAt_agree hinfo hk
  have hn := hS.regions.table.count
  constructor
  case regions =>
    rw [hproc.pagetable, hproc.mappedInfo, hproc.total]
    apply hS.regions.congr hframe
    · intro path t ht
      exact ⟨htag t _ ht rfl, hag t (Or.inl ⟨path, ht⟩)⟩
    · exact ⟨htag _ _ hS.regions.owner rfl, hinfo⟩
    · intro v w hv
      exact hv.imp_left fun h => ⟨hheap v _ h.1, htag _ _ h.2.1 rfl, h.2.2⟩
  case kstack =>
    obtain ⟨k, hk, hkown⟩ := hS.kstack
    rw [hproc.kstack]
    exact ⟨k, hk, htag k _ hkown rfl⟩
  case three => rw [hproc.total]; exact hS.three
  case stack => rw [hproc.mappedInfo, hat 0 (by decide)]; exact hS.stack
  case context =>
    rw [hproc.mappedInfo, hproc.trapframe, hat 1 (by decide)]
    exact hS.context
  case system => rw [hproc.mappedInfo, hat 2 (by decide)]; exact hS.system
  case image =>
    intro k h3 hk
    rw [hproc.total] at hk
    rw [hproc.mappedInfo, hat k (Nat.lt_of_lt_of_le hk hn)]
    exact hS.image k h3 hk

theorem Space.mono (hS : Space cfg P s own i heap)
    (hheap : ∀ v p, heap v p → heap' v p) : Space cfg P s own i heap' :=
  hS.frame (SameSpace.of_eq rfl) (fun _ _ => rfl)
    (fun p _ => Agree.refl s.mem p (p + 4096)) hheap

theorem tag_page (hh : Heap s own fl) {q n : Nat}
    (ht : (own q).tag = some n) : PageIn s q := by
  apply hh.page
  intro hq
  rw [hq] at ht
  cases ht

theorem tag_used {q n : Nat} (ht : (own q).tag = some n) : own q ≠ .free := by
  intro hq
  rw [hq] at ht
  cases ht

/-- The trapframe is mapped at its own address, for the kernel only. -/
theorem Space.contextLeaf (hS : Space cfg P s own i heap) :
    ∃ w, leaf s.mem (s.procs i).pagetable (s.procs i).trapframe = some w ∧
      pte2pa w = (s.procs i).trapframe ∧ w &&& pteU = 0 ∧
      own (s.procs i).trapframe
        = .frame i ((s.procs i).trapframe / pgSize) := by
  have h3 := hS.three
  have hal := hS.regions.table.aligned 1 (by omega)
  have hseg := congrArg MappedRegion.segType hS.context
  rw [hS.context] at hal
  have hal' : (s.procs i).trapframe % pgSize = 0 := hal
  obtain ⟨w, hw, hl⟩ := hS.regions.mapped 1 (by omega) .context hseg
    (s.procs i).trapframe (by rw [hS.context]; exact inPages_one.mpr rfl)
  have hpa : pte2pa w = (s.procs i).trapframe := by
    rw [(hl.kernel (Or.inl rfl)).1]
    simp only [pgSize] at hal' ⊢
    omega
  have hown := hl.owner
  rw [hpa] at hown
  exact ⟨w, hw, hpa, (hl.kernel (Or.inl rfl)).2, hown⟩

/-- The trapframe is a frame of the process. -/
theorem Space.trapframe (hS : Space cfg P s own i heap) :
    own (s.procs i).trapframe
      = .frame i ((s.procs i).trapframe / pgSize) := by
  obtain ⟨w, -, -, -, hown⟩ := hS.contextLeaf
  exact hown

/-- The pages of the image are for user mode. -/
theorem Space.imageLeaf (hS : Space cfg P s own i heap) {k va w : Nat}
    (h3 : 3 ≤ k) (hk : k < (s.procs i).totalMappedRegion)
    (hc : (regionAt s.mem (s.procs i).mappedInfo k).Covers va)
    (hw : leaf s.mem (s.procs i).pagetable va = some w) :
    UserWritable w := by
  have hleaf : ∀ seg : SegType, ¬ (seg = .context ∨ seg = .system) →
      (regionAt s.mem (s.procs i).mappedInfo k).segType = seg.word →
      UserWritable w := by
    intro seg huser hseg
    obtain ⟨w', hw', hl⟩ := hS.regions.mapped k hk seg hseg va hc
    rw [hw] at hw'
    obtain rfl := Option.some.inj hw'
    exact hl.user huser
  rcases (hS.image k h3 hk).1 with hseg | hseg
  · exact hleaf .code nofun hseg
  · exact hleaf .data nofun hseg

/-- Writing to a frame does not disturb the space. -/
theorem Space.writeFrame {p v : Nat} (hS : Space cfg P s own i heap)
    (hh : Heap s own fl) (hp : own p = .frame j v ∨ own p = .code)
    (hr : s'.rest = s.rest) (hw : Within s.mem s'.mem p) :
    Space cfg P s' own i heap := by
  have hpal : p % pgSize = 0 := by
    apply (hh.page p _).aligned
    rcases hp with h | h
    · rw [h]; exact Owner.noConfusion
    · rw [h]; exact Owner.noConfusion
  apply hS.frame (SameSpace.of_eq (by rw [procs_eq hr])) (fun _ _ => rfl)
  · intro q hq
    have htag : (own q).tag = some i.val := by
      rcases hq with ⟨path, h⟩ | h
      · rw [h]; rfl
      · rw [h]; rfl
    apply hw.agree (tag_page hh htag).aligned hpal
    intro heq
    rw [heq] at hq
    rcases hp with hp | hp
    · rw [hp] at hq
      rcases hq with ⟨path, h⟩ | h
      · cases h
      · cases h
    · rw [hp] at hq
      rcases hq with ⟨path, h⟩ | h
      · cases h
      · cases h
  · exact fun _ _ h => h

/-- The space of another slot survives. -/
theorem Space.congr (hS : Space cfg P s own j heap) (hh : Heap s own fl)
    (ht : Touches i s own s' own') (hij : j ≠ i) :
    Space cfg P s' own' j heap := by
  have hne : j.val ≠ i.val := fun h => hij (Fin.ext h)
  apply hS.frame (SameSpace.of_eq (procs_of_apart ht.apart hij))
  · intro p hp
    rcases hp with htag | hc
    · exact ht.tag_ne htag hne
    · apply ht.keep
      · rw [hc]; exact Owner.noConfusion
      · rw [hc]; exact nofun
  · intro p hp
    have htag : (own p).tag = some j.val := by
      rcases hp with ⟨path, h⟩ | h
      · rw [h]; rfl
      · rw [h]; rfl
    apply ht.agree p (tag_page hh htag).aligned (tag_used htag)
    rw [htag]
    exact fun h => hne (Option.some.inj h)
  · exact fun _ _ hv => hv

/-- An operation on slot `i` accounts for slot `i` alone. -/
theorem KInv.touches {built built' : Slot → Prop}
    {heap heap' : Slot → Nat → Nat → Prop} (hK : KInv cfg P s own fl built heap)
    (ht : Touches i s own s' own') (hh : Heap s' own' fl')
    (hself : built' i → Space cfg P s' own' i (heap' i))
    (hnone : ¬ built' i → ∀ p, (own' p).tag ≠ some i.val)
    (hother : ∀ j, j ≠ i → (built' j ↔ built j) ∧ heap' j = heap j) :
    KInv cfg P s' own' fl' built' heap' where
  pages := hh
  ranges := hK.ranges.congr ht.apart
  space j hj := by
    by_cases hji : j = i
    · rw [hji] at hj ⊢
      exact hself hj
    · obtain ⟨hb, hheap⟩ := hother j hji
      rw [hheap]
      exact (hK.space j (hb.mp hj)).congr hK.pages ht hji
  tagged p k hk := by
    by_cases hki : k = i.val
    · by_cases hb : built' i
      · exact ⟨i, hki.symm, hb⟩
      · rw [hki] at hk
        exact absurd hk (hnone hb p)
    · -- a page with another tag had it before
      have hold : own' p = own p := by
        by_cases hmine : own p = .free ∨ (own p).tag = some i.val
        · rcases ht.yield p hmine with h | h | h
          · rw [h] at hk; cases hk
          · rw [h] at hk; cases hk
          · rw [h] at hk
            exact absurd (Option.some.inj hk).symm hki
        · exact ht.keep p (fun h => hmine (Or.inl h)) fun h => hmine (Or.inr h)
      rw [hold] at hk
      obtain ⟨j, hj, hb⟩ := hK.tagged p k hk
      refine ⟨j, hj, ?_⟩
      have hji : j ≠ i := fun h => hki (by rw [← hj, h])
      exact (hother j hji).1.mpr hb

end Pke
