/-
`do_fork` as a whole.

The walk over the parent's regions (Fork.lean) stands between the
construction of an empty process (Build.lean) and the end of `do_fork`,
which sets a0, status and parent of the child and queues it. This file
assembles the three: `Spawned` says what the child is, in terms of the
state `do_fork` started in, and `wp_forkProcess` gives the kernel
invariant and the queue along with it.

# What the queue code leaves alone

Queueing writes `status` and `queue_next` of some process. `spaceView` is
everything the memory invariant depends on, and none of it is among
those fields (`KInv.still`).
-/
import Pke.Proofs.Fork
import Pke.Proofs.Found
import Pke.Proofs.Queue

namespace Pke

open ByteMem Traced

variable {α β : Type} {bad : Event → Prop} {E : Halt → Kernel → Prop}
variable {cfg : Config} {P : MappedRegion → Prop}
variable {s s' s₁ s₂ : Kernel} {own own' own₁ own₂ : Nat → Owner}
variable {fl fl' fl₁ fl₂ : List Nat} {a c i : Slot}

-- ==== the view

/-- Everything the memory invariant depends on, and the next heap
address. -/
def spaceView (s : Kernel) : Mem × Nat × Nat × Nat × Nat × (Slot → Process) :=
  (s.mem, s.gFreeMemList, s.freeMemStartAddr, s.freeMemEndAddr,
    s.gUfreePage, fun i => (s.procs i).fixed)

/-- A program that leaves the memory side alone. -/
def Still (m : K α) : Prop := Keeps (fun _ => True) spaceView m

theorem space_blind : QueueBlind spaceView where
  head _ _ := rfl
  fixed s i p hp := by
    unfold spaceView
    simp only [Prod.mk.injEq, true_and]
    funext j
    by_cases hj : j = i
    · subst hj
      rw [Function.update_self, hp]
    · rw [Function.update_of_ne hj]

theorem still_insertToReadyQueue (x : Slot) : Still (insertToReadyQueue x) :=
  keeps_insertToReadyQueue space_blind x

theorem fixed_of_view (hv : spaceView s' = spaceView s) (i : Slot) :
    (s'.procs i).fixed = (s.procs i).fixed :=
  congrFun (congrArg (fun v => v.2.2.2.2.2) hv) i

theorem SameSpace.of_fixed {p p' : Process} (h : p'.fixed = p.fixed) :
    SameSpace p p' :=
  ⟨(congrArg Process.kstack h :), (congrArg Process.pagetable h :),
    (congrArg Process.trapframe h :), (congrArg Process.mappedInfo h :),
    (congrArg Process.totalMappedRegion h :)⟩

theorem mem_of_view (hv : spaceView s' = spaceView s) : s'.mem = s.mem :=
  congrArg Prod.fst hv

theorem ufree_of_view (hv : spaceView s' = spaceView s) :
    s'.gUfreePage = s.gUfreePage := congrArg (fun v => v.2.2.2.2.1) hv

theorem Heap.still (hh : Heap s own fl) (hv : spaceView s' = spaceView s) :
    Heap s' own fl :=
  hh.congr (congrArg (fun v => v.2.2.1) hv)
    (congrArg (fun v => v.2.2.2.1) hv) (mem_of_view hv)
    (congrArg (fun v => v.2.1) hv)

theorem KInv.still {built : Slot → Prop} {heap : Slot → Nat → Nat → Prop}
    (hK : KInv cfg P s own fl built heap) (hv : spaceView s' = spaceView s) :
    KInv cfg P s' own fl built heap where
  pages := hK.pages.still hv
  ranges := by
    have hlo : s'.freeMemStartAddr = s.freeMemStartAddr :=
      congrArg (fun v => v.2.2.1) hv
    have hhi : s'.freeMemEndAddr = s.freeMemEndAddr :=
      congrArg (fun v => v.2.2.2.1) hv
    exact ⟨hlo ▸ hK.ranges.start, hhi ▸ hK.ranges.stop⟩
  space i hi := by
    apply (hK.space i hi).frame (SameSpace.of_fixed (fixed_of_view hv i)) (fun _ _ => rfl)
    · intro p _
      rw [mem_of_view hv]
      exact Agree.refl s.mem p (p + 4096)
    · exact fun _ _ h => h
  tagged := hK.tagged

-- ==== the child

/-- After the walk the child's space is in order. -/
theorem ForkStart.childSpace {heap : Nat → Nat → Prop}
    (hF : ForkStart cfg P a c heap s₁ own₁ fl₁)
    (h : Forked cfg a c s₁ own₁ fl₁ (s₁.procs a).totalMappedRegion s own fl) :
    Space cfg P s own c fun _ _ => False := by
  have h3 := hF.parent.three
  have hmax : max 3 (s₁.procs a).totalMappedRegion
      = (s₁.procs a).totalMappedRegion := by omega
  have hslot := h.slot
  rw [hmax] at hslot
  constructor
  case regions =>
    have hR := h.regions
    rw [hmax] at hR
    rw [hslot]
    exact hR.mono fun _ _ hs => Or.inr hs
  case kstack =>
    obtain ⟨k, hk, hown⟩ := hF.child.kstack
    rw [hslot]
    refine ⟨k, hk, ?_⟩
    rw [h.keep k (by rw [hown]; exact Owner.noConfusion)]
    exact hown
  case three => rw [hslot]; exact h3
  case stack =>
    rw [hslot]
    exact (h.fixed 0 (by decide)).trans hF.child.stack
  case context =>
    rw [hslot]
    exact (h.fixed 1 (by decide)).trans hF.child.context
  case system =>
    rw [hslot]
    exact (h.fixed 2 (by decide)).trans hF.child.system
  case image =>
    intro k hk3 hk
    rw [hslot] at hk ⊢
    show (_ ∨ _) ∧ _
    rw [h.copied k hk3 hk]
    exact hF.parent.image k hk3 hk

/-- Process `c` is the duplicate fork makes of process `a`: what the
child has now, against what the parent had in the state `do_fork` began
in. -/
structure Spawned (a c : Slot) (s : Kernel) (own : Nat → Owner)
    (s' : Kernel) (own' : Nat → Owner) : Prop where
  dup : ∀ k < (s.procs a).totalMappedRegion, ∀ seg : SegType,
    (regionAt s.mem (s.procs a).mappedInfo k).segType = seg.word →
    seg ≠ .context → seg ≠ .system → ∀ va w,
    (regionAt s.mem (s.procs a).mappedInfo k).Covers va →
    leaf s.mem (s.procs a).pagetable va = some w →
    ∃ w', leaf s'.mem (s'.procs c).pagetable va = some w' ∧
      Duplicate own' c seg (va / pgSize) s.mem w s'.mem w'
  total : (s'.procs c).totalMappedRegion = (s.procs a).totalMappedRegion
  copied : ∀ k, 3 ≤ k → k < (s.procs a).totalMappedRegion →
    regionAt s'.mem (s'.procs c).mappedInfo k
      = regionAt s.mem (s.procs a).mappedInfo k
  context : ∀ x < tfSize, s'.mem ((s'.procs c).trapframe + x)
    = if tfA0 ≤ x ∧ x < tfA0 + 8 then 0
      else s.mem ((s.procs a).trapframe + x)
  parent : SameSpace (s.procs a) (s'.procs a)
  same : ∀ p, p % pgSize = 0 → own p ≠ .free → Agree s.mem s'.mem p (p + 4096)
  keep : ∀ p, own p ≠ .free →
    own' p = shareCode a (codePage s a) own p

section Start

variable {built : Slot → Prop} {heap : Slot → Nat → Nat → Prop}

theorem shareCode_used (a : Slot) (C : Nat → Prop) {p : Nat}
    (hp : own p ≠ .free) : shareCode a C own p ≠ .free := by
  rcases shareCode_cases a C own p with ⟨heq, _⟩ | ⟨heq, _⟩
  · rw [heq]
    exact Owner.noConfusion
  · rw [heq]
    exact hp

/-- No page belongs to a slot that is not built. -/
theorem KInv.untagged (hK : KInv cfg P s own fl built heap) (hc : ¬ built c)
    (p : Nat) : (own p).tag ≠ some c.val := by
  intro htag
  obtain ⟨j, hj, hb⟩ := hK.tagged p c.val htag
  obtain rfl : j = c := Fin.ext hj
  exact hc hb

/-- With the child built and the parent's code shared, the walk can
start. -/
theorem KInv.forkStart (hK : KInv cfg P s own fl built heap) (ha : built a)
    (hc : ¬ built c)
    (hb : Built cfg P c s (Pke.shareCode a (codePage s a) own) fl s₁ own₁ fl₁)
    (hclear : ∀ k, 3 ≤ k → k < (s.procs a).totalMappedRegion →
      ¬ (regionAt s.mem (s.procs a).mappedInfo k).Covers
        (s₁.procs c).trapframe)
    (hstray : cfg.tableFits = false → ∀ k, 3 ≤ k →
      k < (s.procs a).totalMappedRegion →
      ¬ (regionAt s.mem (s.procs a).mappedInfo k).Covers (kernBase + pgSize)) :
    ForkStart cfg P a c (heap a) s₁ own₁ fl₁ ∧ s₁.procs a = s.procs a ∧
      (∀ k < maxRegions, regionAt s₁.mem (s.procs a).mappedInfo k
        = regionAt s.mem (s.procs a).mappedInfo k) ∧
      ∀ va, leaf s₁.mem (s.procs a).pagetable va
        = leaf s.mem (s.procs a).pagetable va := by
  have hac : a ≠ c := fun h => hc (h ▸ ha)
  have hK' := hK.shareCode ha
  have hA := hK.space a ha
  have hA' := hK'.space a ha
  have hproc : s₁.procs a = s.procs a := procs_of_apart hb.touches.apart hac
  have hinfo : (Pke.shareCode a (codePage s a) own
      (s.procs a).mappedInfo).tag = some a.val := by
    rw [hA'.regions.owner]
    rfl
  have hne : ∀ {n : Nat}, n = a.val → some n ≠ some c.val := by
    intro n hn h
    exact hac (Fin.ext (hn.symm.trans (Option.some.inj h)))
  have hat : ∀ k < maxRegions, regionAt s₁.mem (s.procs a).mappedInfo k
      = regionAt s.mem (s.procs a).mappedInfo k := by
    intro k hk
    apply regionAt_agree _ hk
    apply hb.touches.agree _ (tag_page hK'.pages hinfo).aligned (tag_used hinfo)
    rw [hinfo]
    exact hne rfl
  have hleaf : ∀ va, leaf s₁.mem (s.procs a).pagetable va
      = leaf s.mem (s.procs a).pagetable va := by
    intro va
    apply leaf_congr hA'.regions.tables
    intro path t ht
    apply hb.touches.agree t (hK'.pages.table_aligned path t ht)
    · rw [ht]; exact Owner.noConfusion
    · rw [ht]
      exact hne rfl
  have hn := hA.regions.table.count
  refine ⟨⟨hb.pages, hK.ranges.congr hb.touches.apart, hac,
    hA'.congr hK'.pages hb.touches hac, hb.space, hb.total, ?_, ?_, ?_⟩,
    hproc, hat, hleaf⟩
  · intro k hk hseg va w hc hw
    rw [hproc] at hk hseg hc hw
    rw [hat k (by omega)] at hseg hc
    rw [hleaf va] at hw
    have hcode := hA.shared hk hseg hc hw
    rw [hb.keep _ (by rw [hcode]; exact Owner.noConfusion)]
    exact hcode
  · intro k hk h3
    rw [hproc] at hk ⊢
    rw [hat k (by omega)]
    exact hclear k h3 hk
  · intro hfits k hk h3
    rw [hproc] at hk ⊢
    rw [hat k (by omega)]
    exact hstray hfits k h3 hk

end Start

/-- The parent's side of a copy, read in another memory. -/
theorem Duplicate.source {seg : SegType} {v w w' : Nat} {m₀ m₁ m : Mem}
    (hd : Duplicate own c seg v m₁ w m w')
    (hag : seg ≠ .code → ∀ x < 4096, m₁ (pte2pa w + x) = m₀ (pte2pa w + x)) :
    Duplicate own c seg v m₀ w m w' where
  region := hd.region
  same := by
    have hcopy : seg ≠ .code →
        (∀ x < 4096, m (pte2pa w' + x) = m₁ (pte2pa w + x)) →
        ∀ x < 4096, m (pte2pa w' + x) = m₀ (pte2pa w + x) := by
      intro hne h x hx
      rw [h x hx, hag hne x hx]
    cases seg with
    | code => exact hd.same
    | data => exact hcopy nofun hd.same
    | stack => exact hcopy nofun hd.same
    | context => exact hcopy nofun hd.same
    | system => exact hcopy nofun hd.same

section Finish

variable {built : Slot → Prop} {heap : Slot → Nat → Nat → Prop}

/-- No page fork duplicates is the page of the child's trapframe. -/
theorem ForkStart.notContext {heap : Nat → Nat → Prop} {k va : Nat}
    {seg : SegType} (hF : ForkStart cfg P a c heap s₁ own₁ fl₁)
    (hk : k < (s₁.procs a).totalMappedRegion)
    (hseg : (Pke.regionAt s₁.mem (s₁.procs a).mappedInfo k).segType = seg.word)
    (hctx : seg ≠ .context) (hsys : seg ≠ .system)
    (hc : (Pke.regionAt s₁.mem (s₁.procs a).mappedInfo k).Covers va) :
    va / pgSize ≠ (s₁.procs c).trapframe / pgSize := by
  intro hpage
  by_cases h3 : 3 ≤ k
  · apply hF.clear k hk h3
    unfold MappedRegion.Covers inPages at hc ⊢
    simp only [pgSize] at hpage
    rw [← hpage]
    exact hc
  · have hcase : k = 0 ∨ k = 1 ∨ k = 2 := by omega
    rcases hcase with rfl | rfl | rfl
    · have hone : (0 : Nat) = 1 := by
        apply hF.child.regions.table.disjoint 0 (by rw [hF.total]; decide) 1
          (by rw [hF.total]; decide) va
        · rw [hF.child.stack]
          rw [hF.parent.stack] at hc
          exact hc
        · rw [hF.child.context]
          exact inPages_one.mpr hpage
      exact absurd hone (by decide)
    · rw [hF.parent.context] at hseg
      exact hctx (segType_word_inj hseg.symm)
    · rw [hF.parent.system] at hseg
      exact hsys (segType_word_inj hseg.symm)

/-- The child at the end of `do_fork`: a0 is cleared in its trapframe. -/
theorem KInv.spawned (hK : KInv cfg P s own fl built heap) (ha : built a)
    (hc : ¬ built c)
    (hb : Built cfg P c s (Pke.shareCode a (codePage s a) own) fl s₁ own₁ fl₁)
    (hclear : ∀ k, 3 ≤ k → k < (s.procs a).totalMappedRegion →
      ¬ (regionAt s.mem (s.procs a).mappedInfo k).Covers
        (s₁.procs c).trapframe)
    (hstray : cfg.tableFits = false → ∀ k, 3 ≤ k →
      k < (s.procs a).totalMappedRegion →
      ¬ (regionAt s.mem (s.procs a).mappedInfo k).Covers (kernBase + pgSize))
    (h : Forked cfg a c s₁ own₁ fl₁ (s₁.procs a).totalMappedRegion s₂ own₂ fl₂)
    (hm : s'.mem = store s₂.mem 8 ((s₁.procs c).trapframe + tfA0) 0)
    (hpc : SameSpace (s₂.procs c) (s'.procs c))
    (hpa : SameSpace (s₂.procs a) (s'.procs a)) :
    Spawned a c s own s' own₂ := by
  obtain ⟨hF, hproc, hat, hleafA⟩ := hK.forkStart ha hc hb hclear hstray
  have hK' := hK.shareCode ha
  have hn := (hK.space a ha).regions.table.count
  have h3 := hF.parent.three
  have hmax : max 3 (s₁.procs a).totalMappedRegion
      = (s₁.procs a).totalMappedRegion := by omega
  have hslot := h.slot
  rw [hmax, hproc] at hslot
  have hproc₂ : s₂.procs a = s.procs a := by
    rw [procs_of_apart h.touches.apart hF.distinct, hproc]
  -- where the last write goes
  have htf₁ := hF.child.trapframe
  have htf : own₂ (s₁.procs c).trapframe
      = .frame c ((s₁.procs c).trapframe / pgSize) := by
    rw [h.keep _ (by rw [htf₁]; exact Owner.noConfusion)]
    exact htf₁
  have htag : (own₂ (s₁.procs c).trapframe).tag = some c.val := by
    rw [htf]
    rfl
  have htfal := (tag_page h.pages htag).aligned
  have hwin : Within s₂.mem s'.mem (s₁.procs c).trapframe := by
    rw [hm]
    exact within_store (by omega) (by simp only [tfA0]; omega)
  have hkeep : ∀ p, own p ≠ .free →
      own₂ p = Pke.shareCode a (codePage s a) own p := by
    intro p hp
    have hp' := shareCode_used a (codePage s a) hp
    have hp₁ := hb.keep p hp'
    rw [h.keep p (by rw [hp₁]; exact hp'), hp₁]
  -- a page in use when `do_fork` began is never written
  have hsame₂ : ∀ p, p % pgSize = 0 → own p ≠ .free →
      Agree s.mem s₂.mem p (p + 4096) := by
    intro p hal hp
    have hp' := shareCode_used a (codePage s a) hp
    have hno := hK'.untagged hc p
    have hp₁ := hb.keep p hp'
    apply (hb.touches.agree p hal hp' hno).trans
    apply h.touches.agree p hal
    · rw [hp₁]; exact hp'
    · rw [hp₁]; exact hno
  have hsame : ∀ p, p % pgSize = 0 → own p ≠ .free →
      Agree s.mem s'.mem p (p + 4096) := by
    intro p hal hp
    apply (hsame₂ p hal hp).trans
    apply hwin.agree hal htfal
    intro heq
    have hno := hK'.untagged hc p
    rw [← hkeep p hp, heq] at hno
    exact hno htag
  have htable : ∀ path t, own₂ t = .table c path →
      Agree s₂.mem s'.mem t (t + 4096) := by
    intro path t ht
    apply hwin.agree (h.pages.table_aligned path t ht) htfal
    intro heq
    rw [heq, htf] at ht
    cases ht
  have hinfo := h.regions.owner
  have hregC : ∀ k < maxRegions,
      Pke.regionAt s'.mem (s₁.procs c).mappedInfo k
        = Pke.regionAt s₂.mem (s₁.procs c).mappedInfo k := by
    intro k hk
    apply regionAt_agree _ hk
    apply hwin.agree _ htfal
    · intro heq
      rw [heq, htf] at hinfo
      cases hinfo
    · exact (tag_page (n := c) h.pages (by rw [hinfo]; rfl)).aligned
  have hroot : (s'.procs c).pagetable = (s₁.procs c).pagetable := by
    rw [hpc.pagetable, hslot]
  have hinfoC : (s'.procs c).mappedInfo = (s₁.procs c).mappedInfo := by
    rw [hpc.mappedInfo, hslot]
  have htfC : (s'.procs c).trapframe = (s₁.procs c).trapframe := by
    rw [hpc.trapframe, hslot]
  constructor
  case dup =>
    intro k hk seg hseg hctx hsys va w hcov hw
    have hk₁ : k < (s₁.procs a).totalMappedRegion := by rw [hproc]; exact hk
    have hreg : Pke.regionAt s₁.mem (s₁.procs a).mappedInfo k
        = Pke.regionAt s.mem (s.procs a).mappedInfo k := by
      rw [hproc]
      exact hat k (by omega)
    have hseg₁ := hseg
    have hcov₁ := hcov
    rw [← hreg] at hseg₁ hcov₁
    obtain ⟨w', hw', hd⟩ := h.dup k hk₁ seg hseg₁ hctx hsys va w hcov₁
      (by rw [hproc, hleafA]; exact hw)
    refine ⟨w', ?_, ?_⟩
    · rw [hroot]
      exact (leaf_congr h.regions.tables htable).trans hw'
    · have hd' : Duplicate own₂ c seg (va / pgSize) s₁.mem w s'.mem w' := by
        apply hd.extends (fun _ _ => rfl) _ hsys
        intro p hp hown
        apply hwin.agree hp htfal
        intro heq
        rw [heq, htf] at hown
        exact hF.notContext hk₁ hseg₁ hctx hsys hcov₁
          (Owner.frame.inj hown).2.symm
      apply hd'.source
      -- a frame that is copied is the parent's own
      intro hcode x hx
      obtain ⟨u, hu, hl⟩ := (hK.space a ha).regions.mapped k hk seg hseg va hcov
      rw [hw] at hu
      obtain rfl := Option.some.inj hu
      have hown : own (pte2pa w) = .frame a (va / pgSize) := by
        cases seg with
        | code => exact absurd rfl hcode
        | system => exact absurd rfl hsys
        | data => exact hl.owner
        | stack => exact hl.owner
        | context => exact hl.owner
      have hp : own (pte2pa w) ≠ .free := by
        rw [hown]
        exact Owner.noConfusion
      have hag := hb.touches.agree (pte2pa w) (pte2pa_aligned w)
        (shareCode_used a (codePage s a) hp) (hK'.untagged hc _)
      exact hag _ (by omega) (by omega)
  case total => rw [hpc.total, hslot]
  case copied =>
    intro k hk3 hk
    rw [hinfoC, hregC k (by omega), h.copied k hk3 (by rw [hproc]; exact hk),
      hproc]
    exact hat k (by omega)
  case context =>
    intro x hx
    rw [htfC, hm]
    unfold store
    have hcond : ((s₁.procs c).trapframe + tfA0 ≤ (s₁.procs c).trapframe + x ∧
        (s₁.procs c).trapframe + x < (s₁.procs c).trapframe + tfA0 + 8)
        ↔ (tfA0 ≤ x ∧ x < tfA0 + 8) := by
      constructor
      · intro hx'
        omega
      · intro hx'
        omega
    by_cases hin : tfA0 ≤ x ∧ x < tfA0 + 8
    · rw [if_pos (hcond.mpr hin), if_pos hin, Nat.zero_div]
      rfl
    · rw [if_neg fun hx' => hin (hcond.mp hx'), if_neg hin,
        h.context (by omega) x hx, hproc]
      have hown := (hK.space a ha).trapframe
      have hp : own (s.procs a).trapframe ≠ .free := by
        rw [hown]
        exact Owner.noConfusion
      have hal := (tag_page (n := a) hK.pages (by rw [hown]; rfl)).aligned
      have hag := hb.touches.agree _ hal
        (shareCode_used a (codePage s a) hp) (hK'.untagged hc _)
      simp only [tfSize] at hx
      exact hag _ (by omega) (by omega)
  case parent =>
    rw [← hproc₂]
    exact hpa
  case same => exact hsame
  case keep => exact hkeep

/-- What `do_fork` by process `a` leaves, with `c` the slot it found. -/
structure ForkOutcome (cfg : Config) (P : MappedRegion → Prop) (a c : Slot)
    (built : Slot → Prop) (heap : Slot → Nat → Nat → Prop) (q : List Slot)
    (s : Kernel) (own : Nat → Owner) (fl : List Nat)
    (s' : Kernel) (own' : Nat → Owner) (fl' : List Nat) : Prop where
  inv : KInv cfg P s' own' fl' (fun j => built j ∨ j = c)
    (Function.update heap c fun _ _ => False)
  spawned : Spawned a c s own s' own'
  queue : ReadyQueue s' (q ++ [c])
  status : ∀ i, (s'.procs i).status
    = if i = c then .ready else (s.procs i).status
  current : s'.current = s.current
  parent : (s'.procs c).parent = some a
  trapframe : (s'.procs c).trapframe = fl.headD 0
  files : own (s'.procs c).pfiles = .free ∧ own' (s'.procs c).pfiles = .held
  others : ∀ j, j ≠ c → (s'.procs j).fixed = (s.procs j).fixed
  ufree : s'.gUfreePage = s.gUfreePage
  fresh : ∀ p, own p = .free →
    own' p = .free ∨ own' p = .held ∨ (own' p).tag = some c.val
  length : fl.length ≤ fl'.length + (3 * pagesUpTo s.mem
    (s.procs a).mappedInfo (s.procs a).totalMappedRegion + 12)
  suffix : fl' <:+ fl

theorem queue_of_apart {q : List Slot} (h : s'.apart c = s.apart c)
    (hq : ReadyQueue s q) (hc : c ∉ q) : ReadyQueue s' q := by
  have hhead : s'.readyQueueHead = s.readyQueueHead := by
    show (s'.apart c).readyQueueHead = (s.apart c).readyQueueHead
    rw [h]
  unfold ReadyQueue
  rw [hhead]
  apply Intrusive.Chain.congr hq
  intro i hi
  rw [procs_of_apart h fun hic => hc (hic ▸ hi)]

theorem ufree_of_apart (h : s'.apart c = s.apart c) :
    s'.gUfreePage = s.gUfreePage := by
  show (s'.apart c).gUfreePage = (s.apart c).gUfreePage
  rw [h]

theorem current_of_apart (h : s'.apart c = s.apart c) :
    s'.current = s.current := by
  show (s'.apart c).current = (s.apart c).current
  rw [h]

/-- The end of `do_fork`: the child becomes ready and is queued. -/
def forkTail (parent child : Slot) : K Nat := do
  setProc child fun q => { q with status := .ready }
  let c ← proc child
  sd (c.trapframe + tfA0) 0
  setProc child fun q => { q with parent := some parent }
  setAcct child fun _ =>
    { tickCount := 0, totalTickCount := 0
      totalMemCount := c.totalMappedRegion }
  insertToReadyQueue child
  return c.pid

/-- `do_fork` once the child has its slot. -/
def forkInto (parent child : Slot) : K Nat := do
  let p ← proc parent
  (List.range p.totalMappedRegion).forM fun i => do
    let r ← getRegion p.mappedInfo i
    forkRegion parent child r
  forkTail parent child

theorem doFork_eq (cfg : Config) (parent : Slot) :
    doFork cfg parent = (do
      let child ← allocProcess cfg
      forkInto parent child) := rfl

theorem wp_doFork_slot {Q : Nat → Kernel → Prop} (hslot : freeSlot s = some c) :
    Wp bad E (doFork cfg a) Q s
      ↔ Wp bad E (buildProcess cfg c) (fun _ s₁ => Wp bad E (forkInto a c) Q s₁) s := by
  rw [doFork_eq]
  unfold allocProcess
  simp only [wp_bind, wp_get]
  rw [hslot]
  simp only [wp_bind, wp_pure]

/-- What the end of `do_fork` does: a state `s₆` in which all of it is done
but the queueing. -/
structure Finished (a c : Slot) (q : List Slot) (s₂ : Kernel)
    (own₂ : Nat → Owner) (fl₂ : List Nat) (s₆ s' : Kernel) : Prop where
  mem : s₆.mem = store s₂.mem 8 ((s₂.procs c).trapframe + tfA0) 0
  slot : s₆.procs c = { s₂.procs c with status := .ready, parent := some a }
  pages : Heap s₆ own₂ fl₂
  touches : Touches c s₂ own₂ s₆ own₂
  queued : Enqueued s₆ s' q c
  view : spaceView s' = spaceView s₆

theorem wp_forkTail {q : List Slot} {v : Nat} (hh : Heap s own fl)
    (htf : own (s.procs c).trapframe = .frame c v) (hq : ReadyQueue s q)
    (hcq : c ∉ q) :
    Wp bad E (forkTail a c) (fun _ s' => ∃ s₆,
      Finished a c q s own fl s₆ s') s := by
  unfold forkTail
  simp only [wp_bind, wp_pure]
  apply wp_setProc hh
  intro s₃ hp₃ hm₃ hh₃ ht₃
  rw [wp_proc, hp₃]
  unfold sd
  have hwin : Within s₃.mem (store s₃.mem 8 ((s.procs c).trapframe + tfA0) 0)
      (s.procs c).trapframe := within_store (by omega) (by simp only [tfA0]; omega)
  apply wp_onMem (i := c) hh₃ (by rw [htf]; rfl) hwin
  intro s₄ hr₄ hm₄ hh₄ ht₄
  apply wp_setProc hh₄
  intro s₅ hp₅ hm₅ hh₅ ht₅
  apply wp_setAcct (i := c) hh₅
  intro s₆ hr₆ hm₆ hh₆ ht₆
  have hT : Touches c s own s₆ own :=
    ((ht₃.trans ht₄).trans ht₅).trans ht₆
  apply ((still_insertToReadyQueue c).wp
    (wp_insertToReadyQueue (queue_of_apart hT.apart hq hcq))).mono
  intro _ s' hres
  rw [if_neg hcq] at hres
  refine ⟨s₆, ?_, ?_, hh₆, hT, hres.1, hres.2⟩
  · rw [hm₆, hm₅, hm₄, hm₃]
  · rw [procs_eq hr₆, hp₅, procs_eq hr₄, hp₃]

/-- The child has its slot, and fork goes on: the state `s` before is
compared with. -/
theorem wp_forkInto {q : List Slot} {s₁ : Kernel} {own₁ : Nat → Owner}
    {fl₁ : List Nat} (hK : KInv cfg P s own fl built heap) (ha : built a)
    (hc : ¬ built c) (hq : ReadyQueue s q) (hcq : c ∉ q)
    (hclear : ∀ p ∈ fl.head?, ∀ k, 3 ≤ k →
      k < (s.procs a).totalMappedRegion →
      ¬ (regionAt s.mem (s.procs a).mappedInfo k).Covers p)
    (hstray : cfg.tableFits = false → ∀ k, 3 ≤ k →
      k < (s.procs a).totalMappedRegion →
      ¬ (regionAt s.mem (s.procs a).mappedInfo k).Covers (kernBase + pgSize))
    (hroom : Room bad (3 * pagesUpTo s.mem (s.procs a).mappedInfo
      (s.procs a).totalMappedRegion + 13) fl)
    (hnew : NewProcess cfg P c s (shareCode a (codePage s a) own) fl s₁ own₁ fl₁) :
    Wp bad E (forkInto a c) (fun _ s' => ∃ own' fl',
      ForkOutcome cfg P a c built heap q s own fl s' own' fl') s₁ := by
  have hK' := hK.shareCode ha
  obtain ⟨hb, hsuffix, htf, hheld, hfiles⟩ := hnew
  unfold forkInto
  rw [wp_bind]
  have hne : fl ≠ [] := by
    intro hnil
    have hin := (hK'.pages.free _).mp hfiles
    rw [hnil] at hin
    exact absurd hin List.not_mem_nil
  have hclear₁ : ∀ k, 3 ≤ k → k < (s.procs a).totalMappedRegion →
      ¬ (regionAt s.mem (s.procs a).mappedInfo k).Covers
        (s₁.procs c).trapframe := by
    apply hclear
    obtain ⟨p, t, hfl⟩ := List.exists_cons_of_ne_nil hne
    rw [htf, hfl]
    rfl
  obtain ⟨hF, hproc, hat, -⟩ := hK.forkStart ha hc hb hclear₁ hstray
  have hpages : pagesUpTo s₁.mem (s₁.procs a).mappedInfo
      (s₁.procs a).totalMappedRegion
      = pagesUpTo s.mem (s.procs a).mappedInfo
        (s.procs a).totalMappedRegion := by
    have hn := (hK.space a ha).regions.table.count
    rw [hproc]
    exact pagesUpTo_congr fun k hk =>
      congrArg MappedRegion.npages (hat k (by omega))
  rw [wp_proc, wp_bind]
  apply (hF.walk (hroom.less (by rw [hpages]; have := hb.length; omega))).mono
  intro _ s₂ hres
  obtain ⟨own₂, fl₂, h⟩ := hres
  have hslot₂ : s₂.procs c = { s₁.procs c with
      totalMappedRegion := (s₁.procs a).totalMappedRegion } := by
    have hmax : max 3 (s₁.procs a).totalMappedRegion
        = (s₁.procs a).totalMappedRegion := by
      have := hF.parent.three
      omega
    rw [← hmax]
    exact h.slot
  have hS₂ := hF.childSpace h
  have htf₂ : own₂ (s₁.procs c).trapframe
      = .frame c ((s₁.procs c).trapframe / pgSize) := by
    have htf₂ := hS₂.trapframe
    rw [hslot₂] at htf₂
    exact htf₂
  -- status, a0, parent, accounts: all of it is the child's
  have hTwalk := hb.touches.trans h.touches
  have htfp : (s₂.procs c).trapframe = (s₁.procs c).trapframe := by rw [hslot₂]
  apply (wp_forkTail h.pages (by rw [htfp]; exact htf₂)
    (queue_of_apart hTwalk.apart hq hcq) hcq).mono
  intro _ s₇ hres
  obtain ⟨s₆, hfin⟩ := hres
  have hT := hfin.touches
  have hslot₆ := hfin.slot
  have hmem : s₆.mem
      = store s₂.mem 8 ((s₁.procs c).trapframe + tfA0) 0 := by
    rw [hfin.mem, htfp]
  have hwin : Within s₂.mem (store s₂.mem 8 ((s₁.procs c).trapframe + tfA0) 0)
      (s₁.procs c).trapframe := within_store (by omega) (by simp only [tfA0]; omega)
  have hTall := (hb.touches.trans h.touches).trans hT
  have hS₆ : Space cfg P s₆ own₂ c fun _ _ => False := by
    apply hS₂.frame
    · rw [hslot₆]
      exact ⟨rfl, rfl, rfl, rfl, rfl⟩
    · exact fun _ _ => rfl
    · intro p hp
      have htag : (own₂ p).tag = some c.val := by
        rcases hp with ⟨path, hp⟩ | hp
        · rw [hp]; rfl
        · rw [hp]; rfl
      rw [hmem]
      apply hwin.agree (tag_page h.pages htag).aligned
        (tag_page (n := c) h.pages (by rw [htf₂]; rfl)).aligned
      intro heq
      rw [heq, htf₂] at hp
      rcases hp with ⟨path, hp⟩ | hp
      · cases hp
      · cases hp
    · exact fun _ _ hf => hf
  have hK₆ : KInv cfg P s₆ own₂ fl₂ (fun j => built j ∨ j = c)
      (Function.update heap c fun _ _ => False) := by
    apply hK'.touches hTall hfin.pages
    · intro _
      rw [Function.update_self]
      exact hS₆
    · exact fun hno => absurd (Or.inr rfl) hno
    · intro j hj
      refine ⟨⟨fun hbj => hbj.resolve_right hj, Or.inl⟩, ?_⟩
      exact Function.update_of_ne hj _ _
  have hen := hfin.queued
  have hv := hfin.view
  have hfixed := fixed_of_view hv
  have hfixedC : (s₇.procs c).fixed = (s₆.procs c).fixed := hfixed c
  have hpfiles : (s₇.procs c).pfiles = (s₁.procs c).pfiles := by
    have hp := congrArg Process.pfiles hfixedC
    rw [hslot₆, hslot₂] at hp
    exact hp
  refine ⟨own₂, fl₂, hK₆.still hv, ?_, hen.chain, ?_, ?_, ?_, ?_, ?_, ?_,
    ?_, ?_, ?_, h.suffix.trans hsuffix⟩
  · apply hK.spawned ha hc hb hclear₁ hstray h
    · rw [mem_of_view hv, hmem]
    · have hp := SameSpace.of_fixed hfixedC
      rw [hslot₆] at hp
      exact ⟨hp.kstack, hp.pagetable, hp.trapframe, hp.mappedInfo, hp.total⟩
    · have hp := SameSpace.of_fixed (hfixed a)
      rw [procs_of_apart hT.apart hF.distinct] at hp
      exact hp
  · intro i
    rw [hen.status]
    by_cases hi : i = c
    · rw [if_pos hi, if_pos hi]
    · rw [if_neg hi, if_neg hi, procs_of_apart hTall.apart hi]
  · rw [hen.current, current_of_apart hTall.apart]
  · have hp := congrArg Process.parent hfixedC
    rw [hslot₆] at hp
    exact hp
  · have hp := congrArg Process.trapframe hfixedC
    rw [hslot₆, hslot₂] at hp
    exact hp.trans htf
  · rw [hpfiles]
    refine ⟨?_, ?_⟩
    · by_contra hused
      exact shareCode_used a (codePage s a) hused hfiles
    · rw [h.keep _ (by rw [hheld]; exact Owner.noConfusion)]
      exact hheld
  · intro j hj
    rw [hfixed j, procs_of_apart hTall.apart hj]
  · rw [ufree_of_view hv, ufree_of_apart hTall.apart]
  · intro p hp
    apply hTall.yield p
    rcases shareCode_cases a (codePage s a) own p with ⟨_, v, hv, _⟩ | hkeep
    · rw [hp] at hv
      cases hv
    · exact Or.inl (hkeep.1.trans hp)
  · have hl₁ := hb.length
    have hl₂ := h.length
    rw [hpages] at hl₂
    omega

/-- `do_fork`. -/
theorem wp_forkProcess {q : List Slot}
    (hK : KInv cfg P s own fl built heap) (ha : built a)
    (hslot : freeSlot s = some c) (hc : ¬ built c) (hq : ReadyQueue s q)
    (hcq : c ∉ q)
    (hclear : ∀ p ∈ fl.head?, ∀ k, 3 ≤ k →
      k < (s.procs a).totalMappedRegion →
      ¬ (regionAt s.mem (s.procs a).mappedInfo k).Covers p)
    (hstray : cfg.tableFits = false → ∀ k, 3 ≤ k →
      k < (s.procs a).totalMappedRegion →
      ¬ (regionAt s.mem (s.procs a).mappedInfo k).Covers (kernBase + pgSize))
    (haside : Aside cfg s.hostFiles fl)
    (hroom : Room bad (3 * pagesUpTo s.mem (s.procs a).mappedInfo
      (s.procs a).totalMappedRegion + 13) fl) :
    Wp bad E (doFork cfg a) (fun _ s' => ∃ own' fl',
      ForkOutcome cfg P a c built heap q s own fl s' own' fl') s := by
  have hK' := hK.shareCode ha
  rw [wp_doFork_slot hslot]
  apply (wp_buildProcess hK'.pages hK'.ranges haside
    (hroom.less (by omega))).mono
  intro _ s₁ hres
  obtain ⟨own₁, fl₁, hnew⟩ := hres
  exact wp_forkInto hK ha hc hq hcq hclear hstray hroom hnew

-- ==== a page of the parent behind the file table

/-- The invariant after a store into a frame. -/
theorem KInv.struck {p v : Nat} {j : Slot} (hK : KInv cfg P s own fl built heap)
    (hp : p % pgSize = 0) (hown : own (p + pgSize) = .frame j v) :
    KInv cfg P (struck cfg s p) own fl built heap where
  pages := hK.pages.counted hp
  ranges := ⟨hK.ranges.start, hK.ranges.stop⟩
  space i hi := by
    refine (hK.space i hi).frame ⟨rfl, rfl, rfl, rfl, rfl⟩ (fun _ _ => rfl) ?_
      fun _ _ h => h
    intro q hq
    have htag : (own q).tag = some i.val := by
      rcases hq with ⟨path, h⟩ | h
      · rw [h]; rfl
      · rw [h]; rfl
    refine counted_agree hp (tag_page hK.pages htag).aligned fun _ heq => ?_
    rw [heq, hown] at hq
    rcases hq with ⟨path, h⟩ | h
    · cases h
    · cases h
  tagged := hK.tagged

/-- `do_fork` where the page behind the file table of the child is a frame
of the parent: it forks the parent with the number of files in that frame. -/
theorem wp_forkStruck {q : List Slot} {p v : Nat}
    (hK : KInv cfg P s own fl built heap) (ha : built a)
    (hslot : freeSlot s = some c) (hc : ¬ built c) (hq : ReadyQueue s q)
    (hcq : c ∉ q)
    (hclear : ∀ p ∈ fl.head?, ∀ k, 3 ≤ k →
      k < (s.procs a).totalMappedRegion →
      ¬ (regionAt s.mem (s.procs a).mappedInfo k).Covers p)
    (hstray : cfg.tableFits = false → ∀ k, 3 ≤ k →
      k < (s.procs a).totalMappedRegion →
      ¬ (regionAt s.mem (s.procs a).mappedInfo k).Covers (kernBase + pgSize))
    (hp : filesPage cfg fl = some p) (hown : own (p + pgSize) = .frame a v)
    (hroom : Room bad (3 * pagesUpTo s.mem (s.procs a).mappedInfo
      (s.procs a).totalMappedRegion + 13) fl) :
    Wp bad E (doFork cfg a) (fun _ s' => ∃ own' fl',
      ForkOutcome cfg P a c built heap q (struck cfg s p) own fl s' own' fl') s := by
  have hK' := hK.shareCode ha
  have hac : a ≠ c := fun h => hc (h ▸ ha)
  have hal : p % pgSize = 0 :=
    (hK.pages.pool.page p (List.mem_of_getElem? hp)).aligned
  -- a frame is still one of the parent's, or code
  have hshare : shareCode a (codePage s a) own (p + pgSize) = .code ∨
      shareCode a (codePage s a) own (p + pgSize) = .frame a v := by
    rcases shareCode_cases a (codePage s a) own (p + pgSize) with h | h
    · exact Or.inl h.1
    · exact Or.inr (h.1.trans hown)
  have hstruck := hK.struck hal hown
  have hat : ∀ k < (s.procs a).totalMappedRegion,
      regionAt (struck cfg s p).mem ((struck cfg s p).procs a).mappedInfo k
        = regionAt s.mem (s.procs a).mappedInfo k := by
    intro k hk
    have hregs := (hK.space a ha).regions
    show regionAt (struck cfg s p).mem (s.procs a).mappedInfo k = _
    refine regionAt_agree (counted_agree hal ?_ fun _ heq => ?_)
      (Nat.lt_of_lt_of_le hk hregs.table.count)
    · exact (tag_page (n := a) hK.pages (by rw [hregs.owner]; rfl)).aligned
    · have howner := hregs.owner
      rw [heq, hown] at howner
      cases howner
  have hcode : codePage (struck cfg s p) a = codePage s a := by
    funext x
    refine propext (exists_congr fun k => and_congr_right fun hk => ?_)
    rw [hat k hk]
  rw [wp_doFork_slot hslot]
  apply (wp_buildProcess_struck (P := P) hK'.pages hK'.ranges hp ?_ ?_
    (hroom.less (by omega))).mono
  · intro _ s₁ hres
    obtain ⟨own₁, fl₁, hnew⟩ := hres
    rw [← hcode] at hnew
    refine wp_forkInto hstruck ha hc hq hcq
      (fun p' hp' k h3 hk => ?_) (fun hfits k h3 hk => ?_) ?_ hnew
    · rw [hat k hk]
      exact hclear p' hp' k h3 hk
    · rw [hat k hk]
      exact hstray hfits k h3 hk
    · rw [← pagesUpTo_congr fun k hk => congrArg MappedRegion.npages (hat k hk)] at hroom
      exact hroom
  · rcases hshare with h | h
    · rw [h]; exact Owner.noConfusion
    · rw [h]; exact Owner.noConfusion
  · rcases hshare with h | h
    · rw [h]; exact nofun
    · rw [h]
      exact fun heq => hac (Fin.ext (Option.some.inj heq))

end Finish

end Pke
