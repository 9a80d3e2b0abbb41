/-
Runs that cannot fail.

The step lemmas of Steps.lean hold in any calculus, total correctness
included, as long as there are pages enough. `Plain` is a state in which
this is plain to see: every process has one image of one page, of a known
type, a known number of pages is free, and all but the first few of the
free list descend page by page, as `pmm_init` made them. Fork, yield,
exit, wait, exec, allocation and a store fault lead from one such state to
the next; fork, exec and the heap are what uses pages up.

# The order of the list

A fork is tame if the page behind the new file table is the last of the
tables it takes (`Descending.aside`). On the list boot leaves that is so;
what is taken, is taken from the front, so it stays so; `do_wait` puts up
to seven pages in front, and the sixth to tenth page of a fork still come
from behind them. After two calls, or after an exec, nothing is known:
`k` counts the pages in front, and beyond eight the order is not claimed.

# Runs

`PlainRun.next` adds a step to a run of such a machine. It is how the
runs that exhibit a behaviour of the kernel are put together: from the
boot of the small machine of Boot.lean, step by step, with the process
table known after each. `smallMachine_tour` is one with everything in it:
two forks, an exec, an exit and a wait, with two processes left.
-/
import Pke.Proofs.Runs

namespace Pke

open ByteMem Traced

variable {E : Halt → Kernel → Prop} {bad : Event → Prop}
variable {cfg : Config} {C : Op → Kernel → Prop} {seg : SegType}
variable {s s' : Kernel} {own own' : Nat → Owner}
variable {heap : Slot → Nat → Nat → Prop}
variable {fl fl' : List Nat} {c i x : Slot} {q q' : List Slot} {n k : Nat}
variable {h : List (Entry Kernel Op)} {op : Op}

-- ==== plain states

/-- A recorded code region of process `i` covers `va`. -/
def RecordsCode (s : Kernel) (i : Slot) (va : Nat) : Prop :=
  ∃ k < (s.procs i).totalMappedRegion,
    (regionAt s.mem (s.procs i).mappedInfo k).segType = SegType.code.word ∧
    (regionAt s.mem (s.procs i).mappedInfo k).Covers va

/-- The process records four pages: the three every process starts with,
and one of an image below the heap, which is code only if `seg` is. -/
structure OneImage (seg : SegType) (s : Kernel) (i : Slot) : Prop where
  total : (s.procs i).totalMappedRegion = 4
  pages : ∀ k < 4, (regionAt s.mem (s.procs i).mappedInfo k).npages = 1
  kinds : ∀ k < 4, (regionAt s.mem (s.procs i).mappedInfo k).segType
    = SegType.code.word → seg = .code
  low : (regionAt s.mem (s.procs i).mappedInfo 3).va < userFreeAddressStart

theorem OneImage.recorded (ho : OneImage seg s i) : recorded s i = 4 := by
  unfold Pke.recorded
  rw [ho.total, pagesUpTo_succ, pagesUpTo_succ, pagesUpTo_succ, pagesUpTo_succ,
    ho.pages 0 (by decide), ho.pages 1 (by decide), ho.pages 2 (by decide),
    ho.pages 3 (by decide)]
  rfl

/-- A space with one image in it. -/
theorem Space.oneImage {P : MappedRegion → Prop} {heap : Nat → Nat → Prop} {va : Nat}
    (hS : Space cfg P s own i heap) (htotal : (s.procs i).totalMappedRegion = 4)
    (hentry : regionAt s.mem (s.procs i).mappedInfo 3 = ⟨va, 1, seg.word⟩)
    (hlow : va < userFreeAddressStart) : OneImage seg s i := by
  have hcases : ∀ k < 4, k = 0 ∨ k = 1 ∨ k = 2 ∨ k = 3 := by omega
  refine ⟨htotal, fun k hk => ?_, fun k hk hcode => ?_, by rw [hentry]; exact hlow⟩
  · rcases hcases k hk with rfl | rfl | rfl | rfl
    · rw [hS.stack]
    · rw [hS.context]
    · rw [hS.system]
    · rw [hentry]
  · rcases hcases k hk with rfl | rfl | rfl | rfl
    · rw [hS.stack] at hcode
      cases segType_word_inj (a := .stack) hcode
    · rw [hS.context] at hcode
      cases segType_word_inj (a := .context) hcode
    · rw [hS.system] at hcode
      cases segType_word_inj (a := .system) hcode
    · rw [hentry] at hcode
      exact segType_word_inj hcode

/-- The region tables read the same. -/
theorem OneImage.congr {j : Slot} (ho : OneImage seg s j)
    (htotal : (s'.procs i).totalMappedRegion = (s.procs j).totalMappedRegion)
    (hat : ∀ k < 4, (regionAt s'.mem (s'.procs i).mappedInfo k).npages
        = (regionAt s.mem (s.procs j).mappedInfo k).npages ∧
      (regionAt s'.mem (s'.procs i).mappedInfo k).segType
        = (regionAt s.mem (s.procs j).mappedInfo k).segType)
    (hva : (regionAt s'.mem (s'.procs i).mappedInfo 3).va
      = (regionAt s.mem (s.procs j).mappedInfo 3).va) :
    OneImage seg s' i where
  total := htotal.trans ho.total
  pages k hk := (hat k hk).1.trans (ho.pages k hk)
  kinds k hk hcode := ho.kinds k hk ((hat k hk).2.symm.trans hcode)
  low := by
    rw [hva]
    exact ho.low

/-- The heap is clear of what such a process records. -/
theorem Sys.unrecorded (hS : Sys cfg heap s own fl q c) (ho : OneImage seg s c)
    {va : Nat} (hlo : userFreeAddressStart ≤ va) (hhi : va < userStackTop - pgSize) :
    Unrecorded s va := by
  intro c' hcur k hk hc
  obtain rfl : c' = c := Option.some.inj (hcur.symm.trans hS.running.current)
  have hsp := hS.inv.space c' hS.current
  have htf := hS.inv.ranges.frame
    (tag_page (n := c') hS.inv.pages (by rw [hsp.trapframe]; rfl))
  have hbase := cfg.trap_base
  have hlow := ho.low
  have hpage : va / 4096
      = (regionAt s.mem (s.procs c').mappedInfo k).va / 4096 := by
    rw [ho.total] at hk
    unfold MappedRegion.Covers at hc
    rw [ho.pages k hk] at hc
    exact inPages_one.mp hc
  simp only [userFreeAddressStart, userStackTop, pgSize, kernBase] at *
  rw [ho.total] at hk
  obtain rfl | rfl | rfl | rfl : k = 0 ∨ k = 1 ∨ k = 2 ∨ k = 3 := by omega
  · rw [hsp.stack] at hpage
    simp only [userStackTop, pgSize] at hpage
    omega
  · rw [hsp.context] at hpage
    simp only at hpage
    omega
  · rw [hsp.system] at hpage
    simp only at hpage
    omega
  · omega

/-- `n` pages are free, all but the first `k` in descending order, and
every process has one image. -/
structure Plain (cfg : Config) (seg : SegType) (n k : Nat) (s : Kernel)
    (heap : Slot → Nat → Nat → Prop) (own : Nat → Owner)
    (fl : List Nat) (q : List Slot) (c : Slot) : Prop where
  sys : Sys cfg heap s own fl q c
  image : ∀ i, InUse s i → OneImage seg s i
  room : n ≤ fl.length
  order : k ≤ 8 → Descending (fl.drop k)

/-- The region table of a process is read in a page that is its own. -/
theorem Plain.image_eq (hP : Plain cfg seg n k s heap own fl q c) (hi : InUse s i)
    (hfixed : (s'.procs i).fixed = (s.procs i).fixed)
    (hag : Agree s.mem s'.mem (s.procs i).mappedInfo
      ((s.procs i).mappedInfo + 4096)) : OneImage seg s' i := by
  have hsame := SameSpace.of_fixed hfixed
  have hat : ∀ k < 4, regionAt s'.mem (s'.procs i).mappedInfo k
      = regionAt s.mem (s.procs i).mappedInfo k := by
    intro k hk
    rw [hsame.mappedInfo, regionAt_agree hag (Nat.lt_trans hk (by decide))]
  refine (hP.image i hi).congr hsame.total (fun k hk => ?_) ?_
  · rw [hat k hk]
    exact ⟨rfl, rfl⟩
  · rw [hat 3 (by decide)]

theorem Plain.regionsPage (hP : Plain cfg seg n k s heap own fl q c)
    (hi : InUse s i) :
    own (s.procs i).mappedInfo = .regions i ∧
      (s.procs i).mappedInfo % pgSize = 0 := by
  have hown := (hP.sys.inv.space i hi).regions.owner
  exact ⟨hown,
    (tag_page (n := i) hP.sys.inv.pages (by rw [hown]; rfl)).aligned⟩

/-- An operation on slot `j` leaves the region tables of the others
alone. -/
theorem Plain.others {j : Slot} (hP : Plain cfg seg n k s heap own fl q c)
    (ht : Touches j s own s' own') (hi : InUse s' i) (hij : i ≠ j) :
    OneImage seg s' i := by
  have hproc := procs_of_apart ht.apart hij
  have hu : InUse s i := by
    unfold InUse at hi ⊢
    rwa [hproc] at hi
  obtain ⟨hown, hal⟩ := hP.regionsPage hu
  refine hP.image_eq hu (by rw [hproc]) (ht.agree _ hal ?_ ?_)
  · rw [hown]; exact Owner.noConfusion
  · rw [hown]
    intro htag
    exact hij (Fin.val_injective (Option.some.inj htag))

/-- Nobody's space changed. -/
theorem Plain.idle {c' : Slot} (hP : Plain cfg seg n k s heap own fl q c)
    (hi : Idle own s s') (hS : Sys cfg heap s' own fl q' c') :
    Plain cfg seg n k s' heap own fl q' c' where
  sys := hS
  image i hu := by
    have hu' := (hi.inUse i).mp hu
    obtain ⟨hown, hal⟩ := hP.regionsPage hu'
    refine hP.image_eq hu' (hi.fixed i) (hi.agree _ hal ?_ ?_)
    · rw [hown]; exact fun _ _ => Owner.noConfusion
    · rw [hown]; exact Owner.noConfusion
  room := hP.room
  order := hP.order

/-- A fork of the four host files of boot is tame. -/
theorem Plain.aside (hP : Plain cfg seg n k s heap own fl q c) (hk : k ≤ 8)
    (hfiles : (s.hostFiles : Nat) = 4) : FilesAside cfg s := by
  intro fl' hfl'
  rw [hfl'.unique hP.sys.inv.pages.pool.chain, hfiles]
  exact (hP.order hk).aside hk (Or.inl rfl)

/-- Pages off the front leave the rest in order. -/
theorem Descending.spend (hd : Descending (fl.drop k)) (hs : fl' <:+ fl) :
    Descending (fl'.drop k) := by
  refine hd.suffix (List.suffix_of_suffix_length_le
    ((List.drop_suffix k fl').trans hs) (List.drop_suffix k fl) ?_)
  have hlen := hs.length_le
  rw [List.length_drop, List.length_drop]
  omega

-- ==== steps

theorem Plain.yield (hP : Plain cfg seg n k s heap own fl q c) :
    Wp bad E (step cfg .yield) (fun _ s' => ∃ h t, q ++ [c] = h :: t ∧
      Plain cfg seg n k s' heap own fl t h) s := by
  apply (wp_yieldSpace hP.sys).mono
  intro _ s' hres
  obtain ⟨hidle, h, t, hq, hS⟩ := hres
  exact ⟨h, t, hq, hP.idle hidle hS⟩

theorem Plain.exit {x : Slot} (hP : Plain cfg seg n k s heap own fl (x :: q) c) :
    Wp bad E (step cfg .exit) (fun _ s' => Plain cfg seg n k s' heap own fl q x) s := by
  apply (wp_exitSpace hP.sys fun hnil => absurd hnil nofun).mono
  intro _ s' hres
  obtain ⟨hidle, _, h, t, hq, hS⟩ := hres
  obtain ⟨rfl, rfl⟩ := List.cons.inj hq
  exact hP.idle hidle hS

theorem Plain.fork (hP : Plain cfg seg (n + 25) k s heap own fl q c)
    (haside : FilesAside cfg s) (hslot : freeSlot s = some x) :
    Wp bad E (step cfg .fork) (fun _ s' => ∃ heap' own' fl',
      Plain cfg seg n k s' heap' own' fl' (q ++ [x]) c) s := by
  have hrec := (hP.image c hP.sys.current).recorded
  have hroom := hP.room
  unfold recorded at hrec
  simp only [step, sysUserFork, wp_bind, wp_pure]
  apply wp_theCurrent hP.sys.running.current
  apply (wp_forkSpace hP.sys
    (fun hnone => absurd (hslot.symm.trans hnone) (Option.some_ne_none _))
    (haside fl hP.sys.inv.pages.pool.chain) (Or.inl (by omega))).mono
  intro _ s' hres
  obtain ⟨child, own', fl', hchild, ho, hS⟩ := hres
  rw [hslot] at hchild
  obtain rfl := Option.some.inj hchild
  have hlen := ho.length
  refine ⟨_, own', fl', hS, fun i hi => ?_, by omega,
    fun hk => (hP.order hk).spend ho.suffix⟩
  by_cases hix : i = x
  · -- the child records what its parent does
    subst hix
    have hpar := hP.sys.inv.space c hP.sys.current
    have hchild := hS.inv.space i hi
    have himage := hP.image c hP.sys.current
    have hthree := ho.spawned.copied 3 le_rfl (by rw [himage.total]; decide)
    refine himage.congr ho.spawned.total (fun k hk => ?_) (by rw [hthree])
    by_cases h3 : 3 ≤ k
    · rw [ho.spawned.copied k h3 (by rw [himage.total]; exact hk)]
      exact ⟨rfl, rfl⟩
    · obtain rfl | rfl | rfl : k = 0 ∨ k = 1 ∨ k = 2 := by omega
      · rw [hchild.stack, hpar.stack]
        exact ⟨rfl, rfl⟩
      · rw [hchild.context, hpar.context]
        exact ⟨rfl, rfl⟩
      · rw [hchild.system, hpar.system]
        exact ⟨rfl, rfl⟩
  · have hu : InUse s i := by
      have hst := ho.status i
      rw [if_neg hix] at hst
      unfold InUse at hi ⊢
      rwa [hst] at hi
    obtain ⟨hown, hal⟩ := hP.regionsPage hu
    refine hP.image_eq hu (ho.others i hix) (ho.spawned.same _ hal ?_)
    rw [hown]
    exact Owner.noConfusion

theorem Plain.wait (pid : Int) (hP : Plain cfg seg n k s heap own fl q c) :
    Wp bad E (step cfg (.wait pid)) (fun _ s' => ∃ own' fl',
      Plain cfg seg n (k + 7) s' heap own' fl' q c) s := by
  have hroom := hP.room
  simp only [step, wp_bind, wp_pure]
  apply (wp_waitSpace hP.sys).mono
  intro _ s' hres
  rcases hres with ⟨rfl, _⟩ | ⟨j, own', fl', hreap, _, hr⟩
  · refine ⟨own, fl, { hP with order := fun hk => ?_ }⟩
    rw [← List.drop_drop]
    exact (hP.order (by omega)).suffix (List.drop_suffix 7 _)
  · have hj : InUse s j := by
      unfold InUse
      rw [hr.zombie]
      decide
    obtain ⟨back, rfl, hlen⟩ := hr.back
    have hrec := (hP.image j hj).recorded
    unfold recorded at hrec
    refine ⟨own', _, hr.sys, fun i hi => ?_, ?_, fun hk => ?_⟩
    · have hij : i ≠ j := by
        intro hij
        rw [hij] at hi
        exact hi hr.free
      exact hP.others hr.touches hi hij
    · rw [List.length_append]
      omega
    · rw [List.drop_append, List.drop_eq_nil_of_le (by omega), List.nil_append]
      have hsplit : k + 7 - back.length = k + (7 - back.length) := by omega
      rw [hsplit, ← List.drop_drop]
      exact (hP.order (by omega)).suffix (List.drop_suffix _ _)

theorem Running.unique {c' : Slot} (hr : Running s q c)
    (hr' : Running s q' c') : q' = q ∧ c' = c :=
  ⟨hr'.queued.chain.unique hr.queued.chain,
    Option.some.inj (hr'.current.symm.trans hr.current)⟩

/-- A tick, within the time slice or at its end. -/
theorem Plain.tick (hP : Plain cfg seg n k s heap own fl q c) :
    Wp bad E (step cfg .tick) (fun _ s' => ∃ q' c',
      Plain cfg seg n k s' heap own fl q' c' ∧
      if (s.row c).ticks + 1 ≥ timeSliceLen then q ++ [c] = c' :: q'
      else q' = q ∧ c' = c) s := by
  have hboth : Wp bad E (timerTick cfg) _ s := ((wp_tickSpace hP.sys).and
    (wp_timerTick cfg hP.sys.running hP.sys.apart)).mono_halt
    fun _ _ he => he.1
  apply hboth.mono
  intro _ s' hres
  obtain ⟨⟨hidle, q', c', hS⟩, _, hrun⟩ := hres
  refine ⟨q', c', hP.idle hidle hS, ?_⟩
  split_ifs at hrun ⊢
  · obtain ⟨y, t, hq, hrun⟩ := hrun
    obtain ⟨rfl, rfl⟩ := hrun.unique hS.running
    exact hq
  · exact hrun.unique hS.running

/-- Exec of an image with one segment. -/
theorem Plain.exec {image : HostFile} {ph : ElfProgHeader}
    (hP : Plain cfg seg (n + 13) k s heap own fl q c) (hone : OneSegment image ph)
    (hseg : ph.segment = seg) (hlow : ph.vaddr < userFreeAddressStart)
    (hfull : (s.hostFiles : Nat) < maxFiles) :
    Wp bad E (step cfg (.exec image)) (fun _ s' => ∃ heap' own' fl',
      Plain cfg seg n 9 s' heap' own' fl' q c) s := by
  have hS := hP.sys
  have hroom := hP.room
  have hsp := hS.inv.space c hS.current
  simp only [step, execImage]
  rw [wp_bind]
  apply wp_theCurrent hS.running.current
  have hquiet : Quiet (do reallocProcess cfg c; loadBincode image c) :=
    (leaves_reallocProcess sched_blind cfg (sched_account c)).bind fun _ =>
      leaves_loadBincode sched_blind sched_files image c
  have hwp : Wp bad E (do reallocProcess cfg c; loadBincode image c)
      (fun _ s' => ∃ own' fl', Heap s' own' fl' ∧ Touches c s own s' own' ∧
        Space cfg BelowStack s' own' c (fun _ _ => False) ∧
        OneImage seg s' c ∧ n ≤ fl'.length) s := by
    rw [wp_bind]
    apply ((leaves_reallocProcess hostFiles_blind cfg (hostFiles_account c)).wp
      (wp_reallocProcess hS.inv.pages hS.inv.ranges hsp hsp.small
        (Or.inl (by omega)))).mono
    intro _ s₁ hres
    obtain ⟨⟨own₁, fl₁, hh₁, hsp₁, ht₁, htotal, hlen⟩, hfiles₁⟩ := hres
    apply (wp_loadOne hone hh₁ (hS.inv.ranges.congr ht₁.apart) hsp₁ htotal
      (Or.inl (by omega)) (Or.inl (by rw [hfiles₁]; exact hfull))).mono
    intro _ s₂ hres
    obtain ⟨-, own₂, fl₂, hl⟩ := hres
    have hlen₂ := hl.length
    exact ⟨own₂, fl₂, hl.pages, ht₁.trans hl.touches, hl.space,
      hl.space.oneImage hl.total (hseg ▸ hl.entry) hlow, by omega⟩
  apply (hquiet.wp hwp).mono
  intro _ s' hres
  obtain ⟨⟨own', fl', hh, ht, hsp', himage, hlen⟩, hv⟩ := hres
  refine ⟨_, own', fl', hS.touches ht hh hsp' hv, fun i hi => ?_, hlen,
    fun hk => absurd hk (by decide)⟩
  by_cases hic : i = c
  · rw [hic]
    exact himage
  · exact hP.others ht hi hic

/-- A page for the running process, unrecorded. -/
theorem Plain.newPage {heap' : Slot → Nat → Nat → Prop} {va pa : Nat}
    (hP : Plain cfg seg (n + 3) k s heap own fl q c)
    (hS : Sys cfg heap' s' own' fl' q c) (hnew : NewPage c va pa s own s')
    (hspent : Spent 3 fl fl') : Plain cfg seg n k s' heap' own' fl' q c := by
  have hroom := hP.room
  have hlen := hspent.length
  refine ⟨hS, fun i hi => ?_, by omega, fun hk => (hP.order hk).spend hspent.suffix⟩
  have hu : InUse s i := by
    unfold InUse at hi ⊢
    rwa [hnew.procs] at hi
  obtain ⟨hown, hal⟩ := hP.regionsPage hu
  refine hP.image_eq hu (by rw [hnew.procs]) (hnew.agree _ hal (Or.inl ?_) fun path => ?_)
  · rw [hown]; exact Owner.noConfusion
  · rw [hown]; exact Owner.noConfusion

/-- `va` is free to be mapped by process `i`. -/
structure Vacant (s : Kernel) (i : Slot) (va : Nat) : Prop where
  below : va < maxVa
  new : leaf s.mem (s.procs i).pagetable va = none

theorem Plain.allocate (hP : Plain cfg seg (n + 4) k s heap own fl q c)
    (hnew : Vacant s c s.gUfreePage) :
    Wp bad E (step cfg .allocate) (fun _ s' => ∃ pa heap' own' fl',
      Plain cfg seg n k s' heap' own' fl' q c ∧
      NewPage c s.gUfreePage pa s own s') s := by
  have hroom := hP.room
  simp only [step, wp_bind, wp_pure]
  refine (wp_allocateSpace hP.sys (Or.inl ⟨hnew.below, hnew.new⟩)
    (Or.inl (by omega))).mono fun va s' hres => ?_
  obtain ⟨pa, own', fl', rfl, _, hS', _, hpage, _, hspent⟩ := hres
  exact ⟨pa, _, own', fl', Plain.newPage { hP with room := by omega } hS' hpage hspent,
    hpage⟩

theorem Plain.fault {stval : Nat} (hP : Plain cfg seg (n + 4) k s heap own fl q c)
    (hnew : Vacant s c (roundDown stval pgSize)) (hword : stval < 2 ^ 64) :
    Wp bad E (step cfg (.fault causeStorePageFault stval)) (fun _ s' =>
      ∃ heap' own' fl', Plain cfg seg n k s' heap' own' fl' q c) s := by
  have hroom := hP.room
  refine (wp_faultSpace hP.sys (Or.inl ⟨hnew.below, hnew.new⟩) hword
    (Or.inl (by omega))).mono fun _ s' hres => ?_
  rcases hres with rfl | ⟨_, pa, own', fl', hS', _, hpage, _, hspent⟩
  · exact ⟨heap, own, fl, { hP with room := by omega }⟩
  · exact ⟨_, own', fl', Plain.newPage { hP with room := by omega } hS' hpage hspent⟩

-- ==== runs

/-- Status and parent of every slot. -/
abbrev Table := Slot → ProcStatus × Option Slot

/-- A tame operation of a process that records one image. -/
def Op.Plainly (cfg : Config) (seg : SegType) (op : Op) (s : Kernel) : Prop :=
  op.Tame cfg s ∧ ∀ c, s.current = some c → OneImage seg s c

/-- A run of a plain machine, with what is known of the state it ends
in: the process table, the queue and who runs. While the order of the
free list is claimed, nobody has called exec. -/
structure PlainRun (cfg : Config) (seg : SegType) (n k : Nat)
    (h : List (Entry Kernel Op)) (s : Kernel) (f : Table) (q : List Slot)
    (c : Slot) : Prop where
  run : KernelRun outOfPages cfg (Op.Plainly cfg seg) h s
  ordered : Ordered s q c
  plain : ∃ heap own fl, Plain cfg seg n k s heap own fl q c
  unloaded : k ≤ 8 → ∀ e ∈ h, e.op.loads = false
  table : ∀ i, ((s.row i).status, (s.row i).parent) = f i

variable {f : Table}

theorem PlainRun.status (hA : PlainRun cfg seg n k h s f q c) (i : Slot) :
    (s.row i).status = (f i).1 := congrArg Prod.fst (hA.table i)

theorem PlainRun.parent (hA : PlainRun cfg seg n k h s f q c) (i : Slot) :
    (s.row i).parent = (f i).2 := congrArg Prod.snd (hA.table i)

theorem PlainRun.current (hA : PlainRun cfg seg n k h s f q c) :
    s.current = some c := hA.ordered.running.current

theorem PlainRun.tame (hA : PlainRun cfg seg n k h s f q c) :
    KernelRun outOfPages cfg (Op.Tame cfg) h s :=
  hA.run.mono (fun _ => id) fun _ _ hop => hop.1

/-- As a run that tolerates every event, with any guard its steps
meet. -/
theorem PlainRun.guarded (hA : PlainRun cfg seg n k h s f q c)
    (hC : ∀ e ∈ h, C e.op e.pre) : KernelRun anyEvent cfg C h s :=
  hA.run.mono (fun _ => False.elim) fun e he _ => hC e he

theorem PlainRun.any (hA : PlainRun cfg seg n k h s f q c) :
    KernelRun anyEvent cfg anyOp h s := hA.guarded fun _ _ => trivial

/-- While nobody has called exec, the host files are those of boot. -/
theorem PlainRun.files (hA : PlainRun cfg seg n k h s f q c) (hk : k ≤ 8) :
    (s.hostFiles : Nat) = 4 := by
  rw [hA.run.files, List.countP_eq_zero.mpr fun e he => ?_]
  rw [hA.unloaded hk e he]
  exact Bool.false_ne_true

theorem PlainRun.aside (hA : PlainRun cfg seg n k h s f q c) (hk : k ≤ 8) :
    FilesAside cfg s := by
  obtain ⟨heap, own, fl, hP⟩ := hA.plain
  exact hP.aside hk (hA.files hk)

theorem table_update {r : Row}
    (hf : ∀ i, ((s.row i).status, (s.row i).parent) = f i)
    (hrow : s'.row = Function.update s.row x r) (i : Slot) :
    ((s'.row i).status, (s'.row i).parent)
      = Function.update f x (r.status, r.parent) i := by
  rw [hrow]
  by_cases hi : i = x
  · rw [hi, Function.update_self, Function.update_self]
  · rw [Function.update_of_ne hi, Function.update_of_ne hi, hf]

/-- A run goes on with a step that keeps the machine plain. -/
theorem PlainRun.next {n' k' : Nat} {c' : Slot} {g : Table}
    {X : Kernel → Prop} (hA : PlainRun cfg seg n k h s f q c) (op : Op)
    (htame : op.Tame cfg s) (hload : k' ≤ 8 → k ≤ 8 ∧ op.loads = false)
    (hpages : op.pages s ≤ n)
    (hret : ∀ heap own fl, Plain cfg seg n k s heap own fl q c →
      Returns (step cfg op) (fun _ s' => (∃ heap' own' fl',
        Plain cfg seg n' k' s' heap' own' fl' q' c') ∧ X s') s)
    (htable : ∀ s', op.Rows c s s' →
      ∀ i, ((s'.row i).status, (s'.row i).parent) = g i) :
    ∃ s', PlainRun cfg seg n' k' (⟨op, s, s'⟩ :: h) s' g q' c' ∧
      op.Rows c s s' ∧ X s' := by
  obtain ⟨heap, own, fl, hP⟩ := hA.plain
  have hboth : Returns (step cfg op) _ s :=
    ((hret heap own fl hP).and (hA.ordered.step op)).mono_halt fun _ _ he => he.1
  have henough : op.Enough s := ⟨fl, hP.sys.inv.pages.pool.chain,
    Nat.le_trans hpages hP.room⟩
  have hplain : op.Plainly cfg seg s := by
    refine ⟨htame, fun c₁ hc₁ => ?_⟩
    obtain rfl := Option.some.inj (hc₁.symm.trans hA.current)
    exact hP.image c₁ hP.sys.current
  obtain ⟨s', hrun, ⟨⟨heap', own', fl', hP'⟩, hX⟩, a, q'', c'', hst, ho⟩ :=
    hA.run.extend hplain henough hboth
  obtain ⟨rfl, rfl⟩ := hP'.sys.running.unique ho.running
  refine ⟨s', ⟨hrun, ho, ⟨heap', own', fl', hP'⟩, fun hk => ?_, htable s' hst.rows⟩,
    hst.rows, hX⟩
  rintro e (_ | ⟨_, he⟩)
  · exact (hload hk).2
  · exact hA.unloaded (hload hk).1 e he

theorem PlainRun.freeSlot (hA : PlainRun cfg seg n k h s f q c) :
    freeSlot s
      = (List.finRange nproc).find? (fun i => (f i).1 = .free) := by
  unfold Pke.freeSlot
  congr 1
  funext i
  rw [← hA.status i]
  rfl

/-- A fork, with the rows after it. -/
theorem PlainRun.forkRows (hA : PlainRun cfg seg (n + 25) k h s f q c)
    (hslot : (List.finRange nproc).find? (fun i => (f i).1 = .free)
      = some x) (hk : k ≤ 8) :
    ∃ s', PlainRun cfg seg n k (⟨.fork, s, s'⟩ :: h) s'
      (Function.update f x (.ready, some c)) (q ++ [x]) c ∧
      Op.Rows c s s' .fork := by
  have hfree : Pke.freeSlot s = some x := hA.freeSlot.trans hslot
  have haside := hA.aside hk
  have hpages : Op.pages s .fork ≤ n + 25 := by
    obtain ⟨heap, own, fl, hP⟩ := hA.plain
    have hrec := (hP.image c hP.sys.current).recorded
    unfold Op.pages
    rw [hA.current]
    show 3 * recorded s c + 13 ≤ n + 25
    omega
  obtain ⟨s', hA', hrow, -⟩ := hA.next .fork (X := fun _ => True) haside
    (fun hk => ⟨hk, rfl⟩) hpages
    (fun _ _ _ hP => (hP.fork haside hfree).mono fun _ _ hP' => ⟨hP', trivial⟩)
    fun s' hrow => by
      obtain ⟨y, hy, hrow⟩ : Op.Rows c s s' .fork := hrow
      rw [hfree] at hy
      obtain rfl := Option.some.inj hy
      exact table_update hA.table hrow
  exact ⟨s', hA', hrow⟩

theorem PlainRun.fork (hA : PlainRun cfg seg (n + 25) k h s f q c)
    (hslot : (List.finRange nproc).find? (fun i => (f i).1 = .free)
      = some x) (hk : k ≤ 8) :
    ∃ s', PlainRun cfg seg n k (⟨.fork, s, s'⟩ :: h) s'
      (Function.update f x (.ready, some c)) (q ++ [x]) c := by
  obtain ⟨s', hA', -⟩ := hA.forkRows hslot hk
  exact ⟨s', hA'⟩

/-- A step of the scheduler alone, or one the process table does not show. -/
theorem PlainRun.yield {y : Slot} {t : List Slot}
    (hA : PlainRun cfg seg n k h s f q c) (hq : q ++ [c] = y :: t) :
    ∃ s', PlainRun cfg seg n k (⟨.yield, s, s'⟩ :: h) s' f t y := by
  obtain ⟨s', hA', -⟩ := hA.next .yield (X := fun _ => True) trivial
    (fun hk => ⟨hk, rfl⟩) (Nat.zero_le n)
    (fun heap own fl hP => hP.yield.mono fun _ s' hres => by
      obtain ⟨y', t', hq', hP'⟩ := hres
      rw [hq] at hq'
      obtain ⟨rfl, rfl⟩ := List.cons.inj hq'
      exact ⟨⟨heap, own, fl, hP'⟩, trivial⟩)
    fun s' hrow => by
      rw [show s'.row = s.row from hrow]
      exact hA.table
  exact ⟨s', hA'⟩

theorem PlainRun.exit (hA : PlainRun cfg seg n k h s f (x :: q) c) :
    ∃ s', PlainRun cfg seg n k (⟨.exit, s, s'⟩ :: h) s'
      (Function.update f c (.zombie, (f c).2)) q x := by
  obtain ⟨s', hA', -⟩ := hA.next .exit (X := fun _ => True)
    (g := Function.update f c (.zombie, (f c).2)) trivial
    (fun hk => ⟨hk, rfl⟩) (Nat.zero_le n)
    (fun heap own fl hP => hP.exit.mono fun _ s' hP' => ⟨⟨heap, own, fl, hP'⟩, trivial⟩)
    fun s' hrow => by
      rw [← hA.parent c]
      exact table_update hA.table hrow
  exact ⟨s', hA'⟩

/-- Fewer pages, and the same table written differently. -/
theorem PlainRun.less {m : Nat} {f' : Table} (hA : PlainRun cfg seg n k h s f q c)
    (hn : m ≤ n) (hf : ∀ i, f i = f' i) : PlainRun cfg seg m k h s f' q c := by
  obtain ⟨heap, own, fl, hP⟩ := hA.plain
  exact ⟨hA.run, hA.ordered, ⟨heap, own, fl, { hP with room := Nat.le_trans hn hP.room }⟩,
    hA.unloaded, fun i => (hA.table i).trans (hf i)⟩

/-- Wait where there is one child to reap. -/
theorem PlainRun.wait (hA : PlainRun cfg seg n k h s f q c) (x : Slot)
    (hx : f x = (.zombie, some c))
    (honly : ∀ y, f y = (.zombie, some c) → y = x) :
    ∃ s', PlainRun cfg seg n (k + 7) (⟨.wait (-1), s, s'⟩ :: h) s'
      (Function.update f x (.free, none)) q c := by
  have hreap : Reapable s c (-1) x := by
    refine ⟨⟨?_, by omega⟩, ?_⟩
    · rw [hA.parent, hx]
    · rw [hA.status, hx]
  obtain ⟨s', hA', -⟩ := hA.next (.wait (-1)) (X := fun _ => True) trivial
    (fun hk => ⟨by omega, rfl⟩) (Nat.zero_le n)
    (fun heap _ _ hP => (hP.wait (-1)).mono fun _ s' hres => ⟨⟨heap, hres⟩, trivial⟩)
    fun s' hrow => by
      rcases hrow with ⟨_, hno⟩ | ⟨y, hy, hrow⟩
      · exact absurd hreap (hno x)
      · have hyx : y = x := by
          apply honly
          rw [← hA.table, hy.1.1, hy.2]
        subst hyx
        exact table_update hA.table hrow
  exact ⟨s', hA'⟩

/-- Only the ticks of the running process changed. -/
theorem table_ticks {t : Int}
    (hf : ∀ i, ((s.row i).status, (s.row i).parent) = f i)
    (hrow : s'.row = Function.update s.row c { s.row c with ticks := t }) (i : Slot) :
    ((s'.row i).status, (s'.row i).parent) = f i := by
  rw [table_update hf hrow]
  show Function.update f c ((s.row c).status, (s.row c).parent) i = f i
  rw [hf, Function.update_eq_self]

/-- A tick within the time slice. -/
theorem PlainRun.tick (hA : PlainRun cfg seg n k h s f q c)
    (hslice : (s.row c).ticks + 1 < timeSliceLen) :
    ∃ s', PlainRun cfg seg n k (⟨.tick, s, s'⟩ :: h) s' f q c ∧
      s'.row = Function.update s.row c
        { s.row c with ticks := (s.row c).ticks + 1 } := by
  obtain ⟨s', hA', hrow, -⟩ := hA.next .tick (X := fun _ => True) trivial
    (fun hk => ⟨hk, rfl⟩) (Nat.zero_le n)
    (fun heap own fl hP => hP.tick.mono fun _ s' hres => by
      obtain ⟨q', c', hP', hsame⟩ := hres
      rw [if_neg (not_le.mpr hslice)] at hsame
      rw [hsame.1, hsame.2] at hP'
      exact ⟨⟨heap, own, fl, hP'⟩, trivial⟩)
    fun s' hrow => table_ticks hA.table hrow
  have hrow : s'.row = Function.update s.row c (s.row c).tick := hrow
  refine ⟨s', hA', ?_⟩
  rw [hrow]
  unfold Row.tick
  rw [if_neg (not_le.mpr hslice)]

/-- The tick that ends it. -/
theorem PlainRun.lastTick {y : Slot} {t : List Slot}
    (hA : PlainRun cfg seg n k h s f q c)
    (hslice : (s.row c).ticks + 1 ≥ timeSliceLen) (hq : q ++ [c] = y :: t) :
    ∃ s', PlainRun cfg seg n k (⟨.tick, s, s'⟩ :: h) s' f t y ∧
      s'.row = Function.update s.row c { s.row c with ticks := 0 } := by
  obtain ⟨s', hA', hrow, -⟩ := hA.next .tick (X := fun _ => True) trivial
    (fun hk => ⟨hk, rfl⟩) (Nat.zero_le n)
    (fun heap own fl hP => hP.tick.mono fun _ s' hres => by
      obtain ⟨q', c', hP', hsame⟩ := hres
      rw [if_pos hslice, hq] at hsame
      obtain ⟨hy, ht⟩ := List.cons.inj hsame
      rw [← hy, ← ht] at hP'
      exact ⟨⟨heap, own, fl, hP'⟩, trivial⟩)
    fun s' hrow => table_ticks hA.table hrow
  have hrow : s'.row = Function.update s.row c (s.row c).tick := hrow
  refine ⟨s', hA', ?_⟩
  rw [hrow]
  unfold Row.tick
  rw [if_pos hslice]

theorem PlainRun.exec {image : HostFile} {ph : ElfProgHeader}
    (hA : PlainRun cfg seg (n + 13) k h s f q c) (hone : OneSegment image ph)
    (hseg : ph.segment = seg) (hlow : ph.vaddr < userFreeAddressStart)
    (hfew : h.length < 124) :
    ∃ s', PlainRun cfg seg n 9 (⟨.exec image, s, s'⟩ :: h) s' f q c ∧
      s'.row = Function.update s.row c { s.row c with ticks := 0 } := by
  have hpages : Op.pages s (.exec image) ≤ n + 13 := by
    show 3 * (segments image).length + 10 ≤ n + 13
    rw [hone.segments, List.length_singleton]
    omega
  have hfull : (s.hostFiles : Nat) < maxFiles := by
    have hle := List.countP_le_length (p := fun e : Entry Kernel Op => e.op.loads) (l := h)
    rw [hA.run.files]
    simp only [maxFiles]
    omega
  obtain ⟨s', hA', hrow, -⟩ := hA.next (.exec image) (X := fun _ => True)
    hone.recordable.toLoadable (fun hk => absurd hk (by decide)) hpages
    (fun _ _ _ hP => (hP.exec hone hseg hlow hfull).mono fun _ _ hP' => ⟨hP', trivial⟩)
    fun s' hrow => table_ticks hA.table hrow
  exact ⟨s', hA', hrow⟩

theorem PlainRun.allocate (hA : PlainRun cfg seg (n + 4) k h s f q c)
    (hnew : Vacant s c s.gUfreePage) :
    ∃ s', PlainRun cfg seg n k (⟨.allocate, s, s'⟩ :: h) s' f q c ∧
      ∀ va < maxVa, va / 4096 ≠ s.gUfreePage / 4096 → Vacant s c va →
        Vacant s' c va := by
  obtain ⟨s', hA', -, hkeep⟩ := hA.next .allocate
    (X := fun s' => ∀ va < maxVa, va / 4096 ≠ s.gUfreePage / 4096 → Vacant s c va →
      Vacant s' c va) trivial
    (fun hk => ⟨hk, rfl⟩) (Nat.le_add_left 4 n)
    (fun _ _ _ hP => (hP.allocate hnew).mono fun _ s' hres => by
      obtain ⟨pa, heap', own', fl', hP', hpage⟩ := hres
      refine ⟨⟨heap', own', fl', hP'⟩, fun va hva hne hvac => ⟨hva, ?_⟩⟩
      rw [hpage.others va (Nat.lt_trans hva (by decide)) hne]
      exact hvac.new)
    fun s' hrow => by
      rw [show s'.row = s.row from hrow]
      exact hA.table
  exact ⟨s', hA', hkeep⟩

theorem PlainRun.fault {stval : Nat} (hA : PlainRun cfg seg (n + 4) k h s f q c)
    (hnew : Vacant s c (roundDown stval pgSize)) (hword : stval < 2 ^ 64) :
    ∃ s', PlainRun cfg seg n k (⟨.fault causeStorePageFault stval, s, s'⟩ :: h) s'
      f q c := by
  obtain ⟨s', hA', -⟩ := hA.next (.fault causeStorePageFault stval)
    (X := fun _ => True) hword (fun hk => ⟨hk, rfl⟩) (Nat.le_add_left 4 n)
    (fun _ _ _ hP => (hP.fault hnew hword).mono fun _ _ hP' => ⟨hP', trivial⟩)
    fun s' hrow => by
      rw [show s'.row = s.row from hrow]
      exact hA.table
  exact ⟨s', hA'⟩

-- ==== the small machine

/-- The process table after boot. -/
def bootTable : Table := fun i => (if i = 0 then .ready else .free, none)

variable {b : Bool} {app : HostFile} {ph : ElfProgHeader}

theorem OneLoaded.image {heap : Nat → Nat → Prop}
    (hone : OneLoaded cfg ph s fl) (hS : Space cfg BelowStack s own 0 heap)
    (hlow : ph.vaddr < userFreeAddressStart) : OneImage ph.segment s 0 :=
  hS.oneImage hone.total hone.entry hlow

/-- The small machine, booted, with its memory. -/
theorem smallMachine_run (happ : OneSegment app ph) :
    ∃ s own fl, KernelRun bad (smallMachine b app) C [] s ∧
      Booted (smallMachine b app) (fun _ _ => False) s own fl ∧
      OneLoaded (smallMachine b app) ph s fl := by
  obtain ⟨s, hrun, own, fl, hb, hone⟩ :=
    KernelRun.boot (smallMachine_boots happ) (smallMachine_pages happ)
  exact ⟨s, own, fl, hrun, hb, hone⟩

theorem smallMachine_recordable (happ : OneSegment app ph) :
    Recordable (smallMachine b app).app := happ.recordable

theorem Booted.freeSlot {heap : Nat → Nat → Prop}
    (hb : Booted cfg heap s own fl) : freeSlot s = some 1 := by
  have hstatus : ∀ i, (s.procs i).status = (bootTable i).1 := by
    intro i
    by_cases hi : i = 0
    · rw [hi]
      exact hb.sys.running.ready
    · rw [hb.alone i hi]
      exact (if_neg hi).symm
  unfold Pke.freeSlot
  simp only [hstatus]
  decide

/-- At the start of the heap nothing is recorded, unless the application
is there. -/
theorem OneLoaded.unrecorded {ph : ElfProgHeader} {heap : Nat → Nat → Prop}
    (hone : OneLoaded cfg ph s fl) (hb : Booted cfg heap s own fl)
    (hne : userFreeAddressStart / 4096 ≠ ph.vaddr / 4096) :
    Unrecorded s s.gUfreePage := by
  intro c hcur k hk hc
  obtain rfl : c = 0 :=
    Option.some.inj (hcur.symm.trans hb.sys.running.current)
  rw [hb.ufree] at hc
  exact hne (hone.covers hb (by decide) hk hc)

/-- Nothing is mapped beside the segment and the first three regions. -/
theorem OneLoaded.unmapped {va : Nat} (hone : OneLoaded cfg ph s fl)
    (hb : Booted cfg (fun _ _ => False) s own fl)
    (hlow : va < userStackTop - pgSize) (hne : va / 4096 ≠ ph.vaddr / 4096) :
    leaf s.mem (s.procs 0).pagetable va = none := by
  refine (hb.sys.inv.space 0 hb.sys.current).unmapped
    (Nat.lt_trans hlow (by decide)) (fun _ => ?_) fun k hk hc => ?_
  · simp only [userStackTop, kernBase, pgSize] at hlow ⊢
    omega
  · exact hne (hone.covers hb hlow hk hc)

/-- The small machine has pages enough for any reasonable operation. -/
theorem smallMachine_enough (op : Op) {heap : Nat → Nat → Prop}
    (hb : Booted (smallMachine b app) heap s own fl)
    (hone : OneLoaded (smallMachine b app) ph s fl)
    (hle : op.pages s ≤ 32000) : op.Enough s := by
  refine ⟨fl, hb.sys.inv.pages.pool.chain, Nat.le_trans hle ?_⟩
  have hlen := hone.length
  rw [smallMachine_pool] at hlen
  omega

/-- The list is as boot left it. -/
theorem OneLoaded.aside (hone : OneLoaded cfg ph s fl) : Aside cfg s.hostFiles fl := by
  rw [hone.files]
  exact Descending.aside (k := 0) hone.descending (Nat.zero_le 8) (Or.inl rfl)

/-- The first allocation, on the small machine: the page is new, and not
recorded afterwards either. -/
theorem smallMachine_allocate
    (hb : Booted (tinyMachine 0x10000) (fun _ _ => False) s own fl)
    (hone : OneLoaded (tinyMachine 0x10000) (tinySegment 0x10000) s fl) :
    Wp bad E (step (tinyMachine 0x10000) .allocate) (fun _ s' =>
      ∃ pa own' fl', Sys (tinyMachine 0x10000)
        (moreHeap (fun _ _ _ => False) 0 s.gUfreePage pa) s' own' fl' [] 0 ∧
      NewPage 0 s.gUfreePage pa s own s' ∧
      Unrecorded s' s.gUfreePage) s := by
  have hlow : s.gUfreePage < maxVa := by
    rw [hb.ufree]
    decide
  have hno := hone.unrecorded hb (by decide)
  have hnew : leaf s.mem (s.procs 0).pagetable s.gUfreePage = none := by
    rw [hb.ufree]
    exact hone.unmapped hb (by decide) (by decide)
  have hroom : Room bad 4 fl := by
    have hlen := hone.length
    rw [smallMachine_pool] at hlen
    exact Or.inl (by omega)
  simp only [step, wp_bind, wp_pure]
  refine (wp_allocateSpace hb.sys (Or.inl ⟨hlow, hnew⟩) hroom).mono ?_
  intro va s' hres
  obtain ⟨pa, own', fl', rfl, _, hS', _, hpage, _⟩ := hres
  refine ⟨pa, own', fl', hS', hpage, fun c hcur k hk => ?_⟩
  obtain rfl : c = 0 := Option.some.inj (hcur.symm.trans hS'.running.current)
  rw [hpage.procs] at hk
  rw [hpage.regionAt hb.sys hk]
  exact hno 0 hb.sys.running.current k hk

/-- The small machine, booted. -/
theorem plainRun_boot (happ : OneSegment app ph)
    (hlow : ph.vaddr < userFreeAddressStart) :
    ∃ s, PlainRun (smallMachine b app) ph.segment 32000 0 [] s bootTable [] 0 ∧
      (s.row 0).ticks = 0 ∧ s.gUfreePage = userFreeAddressStart ∧
      ∀ va < userStackTop - pgSize, va / 4096 ≠ ph.vaddr / 4096 → Vacant s 0 va := by
  have hboth : Returns (sStart (smallMachine b app)) _
      (smallMachine b app).init :=
    ((smallMachine_boots happ).and ordered_boot).mono_halt fun _ _ he => he.1
  obtain ⟨s, hrun, ⟨own, fl, hb, hone⟩, ho, hticks, hrow⟩ :=
    KernelRun.boot (C := Op.Plainly (smallMachine b app) ph.segment) hboth
      (smallMachine_pages happ)
  refine ⟨s, ⟨hrun, ho, ⟨_, own, fl, hb.sys, ?_, ?_, fun _ => hone.descending⟩,
    fun _ _ he => absurd he List.not_mem_nil, ?_⟩, hticks, hb.ufree, ?_⟩
  · intro i hi
    have hi0 : i = 0 := by
      by_contra hne
      exact hi (hb.alone i hne)
    subst hi0
    exact hone.image (hb.sys.inv.space 0 hi) hlow
  · have hlen := hone.length
    rw [smallMachine_pool] at hlen
    omega
  · intro i
    exact congrArg (fun r => (r.status, r.parent)) (hrow i)
  · intro va hlow hne
    exact ⟨Nat.lt_trans hlow (by decide), hone.unmapped hb hlow hne⟩

-- ==== a run with everything in it

/-- Two forks, an exec and an exit by the first child, and a wait for it;
the last operation first. -/
def tour (image : HostFile) : List Op :=
  [.wait (-1), .yield, .exit, .exec image, .yield, .fork, .fork]

/-- The process table after it: slot 0 and its second child. -/
def tourTable : Table := fun i =>
  if i = 0 then (.ready, none) else if i = 2 then (.ready, some 0) else (.free, none)

/-- The operations of a history. -/
abbrev ops (h : List (Entry Kernel Op)) : List Op := h.map Entry.op

theorem tour_op {image : HostFile} (hop : op ∈ tour image) :
    (∀ f, op = .exec f → f = image) ∧ op ≠ .allocate ∧
      (∀ mcause stval, op ≠ .fault mcause stval) ∧ ∀ va, op ≠ .free va := by
  simp only [tour, List.mem_cons, List.not_mem_nil, or_false] at hop
  rcases hop with rfl | rfl | rfl | rfl | rfl | rfl | rfl <;>
    exact ⟨fun f hf => by cases hf <;> rfl, nofun, nofun, nofun⟩

/-- The tour can be taken where one process runs and nobody has called
exec. -/
theorem PlainRun.tour (hA : PlainRun cfg seg (n + 100) 0 h s bootTable [] 0)
    (happ : OneSegment app ph) (hseg : ph.segment = seg)
    (hlow : ph.vaddr < userFreeAddressStart) (hfew : h.length < 100) :
    ∃ h' s', ops h' = tour app ++ ops h ∧
      PlainRun cfg seg n 16 h' s' tourTable [2] 0 := by
  obtain ⟨s₁, hA₁⟩ := PlainRun.fork (n := n + 75) (x := 1) hA (by decide) (by decide)
  obtain ⟨s₂, hA₂⟩ := PlainRun.fork (n := n + 50) (x := 2) hA₁ (by decide) (by decide)
  obtain ⟨s₃, hA₃⟩ := hA₂.yield (y := 1) rfl
  obtain ⟨s₄, hA₄, -⟩ := PlainRun.exec (n := n + 37) hA₃ happ hseg hlow
    (by simp only [List.length_cons]; omega)
  obtain ⟨s₅, hA₅⟩ := hA₄.exit
  obtain ⟨s₆, hA₆⟩ := hA₅.yield (y := 0) rfl
  obtain ⟨s₇, hA₇⟩ := hA₆.wait 1 (by decide) (by decide)
  exact ⟨_, s₇, rfl, hA₇.less (Nat.le_add_right n 37) (by decide)⟩

theorem smallMachine_tour (happ : OneSegment app ph)
    (hlow : ph.vaddr < userFreeAddressStart) :
    ∃ h s, ops h = tour app ∧
      PlainRun (smallMachine b app) ph.segment 31000 16 h s tourTable [2] 0 := by
  obtain ⟨s, hA, -⟩ := plainRun_boot (b := b) happ hlow
  obtain ⟨h, s', hops, hA'⟩ := (hA.less (m := 31000 + 100) (by decide)
    fun _ => rfl).tour happ rfl hlow (by decide)
  exact ⟨h, s', hops.trans (List.append_nil _), hA'⟩

/-- A heap page and a page for a store fault beforehand. -/
theorem smallMachine_heapTour :
    ∃ h s, ops h = tour (tinyImage 0x10000) ++
        [.fault causeStorePageFault 0x500008, .allocate] ∧
      PlainRun (smallMachine b (tinyImage 0x10000)) .code 31000 16 h s tourTable
        [2] 0 := by
  obtain ⟨s₀, hA₀, -, hufree, hvac⟩ := plainRun_boot (b := b) tinyImage_low
    (by decide)
  obtain ⟨s₁, hA₁, hvac₁⟩ := PlainRun.allocate (n := 31996) hA₀ <| by
    rw [hufree]
    exact hvac _ (by decide) (by decide)
  have hnew : Vacant s₁ 0 (roundDown 0x500008 pgSize) :=
    hvac₁ _ (by decide) (by rw [hufree]; decide) (hvac _ (by decide) (by decide))
  obtain ⟨s₂, hA₂⟩ := PlainRun.fault (n := 31992) hA₁ hnew (by decide)
  obtain ⟨h, s, hops, hA⟩ := (hA₂.less (m := 31000 + 100) (by decide)
    fun _ => rfl).tour tinyImage_low rfl (by decide) (by simp)
  exact ⟨h, s, hops, hA⟩

end Pke
