/-
Every kernel entry keeps the invariant.

`Sys` is the state of a kernel while user code of process `c` runs: the
memory invariant of Space.lean for every slot in use, the queue of
Queue.lean, and the next heap address on a page boundary. There is one
lemma per entry, and each says three things: the invariant holds again,
what became of the owners of pages, and which unrecorded pages (`heap`)
the process has now.

- tick, yield, exit and user stores leave all owners alone; switching
  to a process writes its trapframe, a user store some frame;
- fork is `ForkOutcome` (Spawn.lean);
- exec, allocate, free and a store fault touch the caller only, wait
  the child it reaps (`Touches`).

The memory side and the queue side of an entry are proved apart and
joined by `Wp.and`.
-/
import Pke.Proofs.Spawn
import Pke.Proofs.Load
import Pke.Proofs.Release

namespace Pke

open ByteMem Traced

variable {α β : Type} {bad : Event → Prop} {E : Halt → Kernel → Prop}
variable {cfg : Config} {P : MappedRegion → Prop}
variable {s s' s₁ s₂ : Kernel} {own own' own₁ own₂ : Nat → Owner}
variable {fl fl' fl₁ fl₂ : List Nat} {c h i : Slot} {q : List Slot}
variable {built : Slot → Prop} {heap : Slot → Nat → Nat → Prop}

-- ==== the state

/-- The slot holds a process. -/
abbrev InUse (s : Kernel) (i : Slot) : Prop := (s.procs i).status ≠ .free

/-- The kernel while user code of `c` runs and `q` waits. -/
structure Sys (cfg : Config) (heap : Slot → Nat → Nat → Prop) (s : Kernel)
    (own : Nat → Owner) (fl : List Nat) (q : List Slot) (c : Slot) :
    Prop where
  inv : KInv cfg BelowStack s own fl (InUse s) heap
  running : Running s q c
  apart : c ∉ q
  aligned : s.gUfreePage % pgSize = 0
  word : s.gUfreePage < 2 ^ 64

/-- Nobody's space changed: frames were written at most. -/
structure Idle (own : Nat → Owner) (s s' : Kernel) : Prop where
  fixed : ∀ i, (s'.procs i).fixed = (s.procs i).fixed
  inUse : ∀ i, InUse s' i ↔ InUse s i
  agree : ∀ p, p % pgSize = 0 → (∀ j v, own p ≠ .frame j v) →
    own p ≠ .code → Agree s.mem s'.mem p (p + 4096)
  ufree : s'.gUfreePage = s.gUfreePage

theorem Idle.trans (h₁ : Idle own s s₁) (h₂ : Idle own s₁ s₂) :
    Idle own s s₂ where
  fixed i := (h₂.fixed i).trans (h₁.fixed i)
  inUse i := (h₂.inUse i).trans (h₁.inUse i)
  agree p hp hf hc := (h₁.agree p hp hf hc).trans (h₂.agree p hp hf hc)
  ufree := h₂.ufree.trans h₁.ufree

theorem Idle.still (hv : spaceView s' = spaceView s)
    (hu : ∀ i, InUse s' i ↔ InUse s i) : Idle own s s' where
  fixed := fixed_of_view hv
  inUse := hu
  agree p _ _ _ := by
    rw [mem_of_view hv]
    exact Agree.refl s.mem p (p + 4096)
  ufree := ufree_of_view hv

theorem KInv.built_congr {built' : Slot → Prop}
    (hK : KInv cfg P s own fl built heap) (h : ∀ i, built' i ↔ built i) :
    KInv cfg P s own fl built' heap := by
  rw [show built' = built from funext fun i => propext (h i)]
  exact hK

theorem Sys.current (hS : Sys cfg heap s own fl q c) : InUse s c := by
  show (s.procs c).status ≠ .free
  rw [hS.running.ready]
  exact nofun

/-- The memory side of a step that left everyone's space alone, joined
with its queue side. -/
theorem Sys.idle (hS : Sys cfg heap s own fl q c) (hi : Idle own s s')
    (hK : KInv cfg BelowStack s' own fl (InUse s) heap) {q' : List Slot}
    {c' : Slot} (hr : Running s' q' c') (hc : c' ∉ q') :
    Sys cfg heap s' own fl q' c' where
  inv := hK.built_congr hi.inUse
  running := hr
  apart := hc
  aligned := by rw [hi.ufree]; exact hS.aligned
  word := by rw [hi.ufree]; exact hS.word

/-- A step that both sides are blind to. -/
theorem Sys.still (hS : Sys cfg heap s own fl q c) (s' : Kernel)
    (hv : spaceView s' = spaceView s) (hw : schedView s' = schedView s) :
    Idle own s s' ∧ Sys cfg heap s' own fl q c := by
  have hi : Idle own s s' := by
    apply Idle.still hv
    intro i
    unfold InUse
    rw [status_eq hw]
  exact ⟨hi, hS.idle hi (hS.inv.still hv) (hS.running.congr hw) hS.apart⟩

-- ==== switching

/-- A write to a frame disturbs nobody. -/
theorem KInv.writeFrame {p : Nat} (hK : KInv cfg P s own fl built heap)
    (hp : (∃ j : Slot, ∃ v, own p = .frame j v) ∨ own p = .code)
    (hr : s'.rest = s.rest) (hw : Within s.mem s'.mem p)
    (hh : Heap s' own fl) : KInv cfg P s' own fl built heap where
  pages := hh
  ranges := hK.ranges.congr (apart_of_rest (i := 0) hr)
  space i hi := by
    rcases hp with ⟨j, v, hp⟩ | hp
    · exact (hK.space i hi).writeFrame hK.pages (Or.inl hp) hr hw
    · exact (hK.space i hi).writeFrame (j := i) (v := 0) hK.pages (Or.inr hp)
        hr hw
  tagged := hK.tagged

/-- Memory was written in one page only, and no process changed. -/
structure WroteFrame (p : Nat) (s s' : Kernel) : Prop where
  procs : s'.procs = s.procs
  within : Within s.mem s'.mem p
  ufree : s'.gUfreePage = s.gUfreePage

/-- Leaving for user mode writes to the trapframe of the process. -/
theorem wp_switchToSpace (hK : KInv cfg P s own fl built heap)
    (hb : built h) : Wp bad E (switchTo cfg h) (fun _ s' =>
      KInv cfg P s' own fl built heap ∧
      WroteFrame (s.procs h).trapframe s s') s := by
  have htf := (hK.space h hb).trapframe
  have htag : (own (s.procs h).trapframe).tag = some h.val := by
    rw [htf]
    rfl
  have hsd : ∀ {o v : Nat} {s₁ : Kernel} {Q : Unit → Kernel → Prop},
      o + 8 ≤ 4096 → KInv cfg P s₁ own fl built heap →
      WroteFrame (s.procs h).trapframe s s₁ →
      (∀ s₂, KInv cfg P s₂ own fl built heap →
        WroteFrame (s.procs h).trapframe s s₂ → Q () s₂) →
      Wp bad E (sd ((s.procs h).trapframe + o) v) Q s₁ := by
    intro o v s₁ Q ho hK₁ hw₁ hok
    have hw : Within s₁.mem (store s₁.mem 8 ((s.procs h).trapframe + o) v)
        (s.procs h).trapframe := within_store (by omega) (by omega)
    unfold sd
    apply wp_onMem hK₁.pages htag hw
    intro s₂ hr₂ hm₂ hh₂ _
    rw [← hm₂] at hw
    apply hok s₂ (hK₁.writeFrame (Or.inl ⟨h, _, htf⟩) hr₂ hw hh₂)
    refine ⟨by rw [procs_eq hr₂, hw₁.procs], hw₁.within.trans hw, ?_⟩
    have hu : s₂.rest.gUfreePage = s₁.rest.gUfreePage := by rw [hr₂]
    exact hu.trans hw₁.ufree
  unfold switchTo
  simp only [wp_bind, wp_modify, wp_proc, wp_get]
  apply hsd (by decide) (hK.still (by rfl))
    (by exact ⟨rfl, Within.refl _ _, rfl⟩)
  intro s₁ hK₁ hw₁
  apply hsd (by decide) hK₁ hw₁
  intro s₂ hK₂ hw₂
  apply hsd (by decide) hK₂ hw₂
  intro s₃ hK₃ hw₃
  unfold ld
  simp only [wp_bind, wp_get, wp_pure]
  exact ⟨hK₃.still (by rfl), hw₃.procs, hw₃.within, hw₃.ufree⟩

theorem WroteFrame.idle {p v : Nat} {j : Slot} (h : WroteFrame p s s')
    (hh : Heap s own fl) (hp : own p = .frame j v) : Idle own s s' where
  fixed i := by rw [h.procs]
  inUse i := by unfold InUse; rw [h.procs]
  agree r hr hf _ := by
    apply h.within.agree hr
    · exact (tag_page (n := j) hh (by rw [hp]; rfl)).aligned
    · intro heq
      rw [heq] at hf
      exact hf j v hp
  ufree := h.ufree

/-- `schedule` with every live process queued. -/
theorem wp_scheduleSpace (hK : KInv cfg P s own fl built heap)
    (hq : Queued s q []) (hb : ∀ i, InUse s i → built i)
    (hE : q = [] → E (.shutdown 0) s) :
    Wp bad E (schedule cfg) (fun _ s' => KInv cfg P s' own fl built heap ∧
      Idle own s s' ∧ s'.procs = s.procs ∧
      ∃ h t, q = h :: t ∧ Running s' t h) s := by
  have hqueue : Wp bad E (schedule cfg)
      (fun _ s' => ∃ h t, q = h :: t ∧ Running s' t h) s :=
    wp_schedule_queued cfg hq hE
  have hspace : Wp bad E (schedule cfg)
      (fun _ s' => KInv cfg P s' own fl built heap ∧ Idle own s s' ∧
        s'.procs = s.procs) s := by
    cases q with
    | nil => exact wp_schedule_empty cfg hq (hE rfl)
    | cons h t =>
        have hready := hq.ready h (List.mem_cons_self ..)
        have hhead : s.readyQueueHead = some h := hq.chain.1
        have hbh : built h := by
          apply hb
          show (s.procs h).status ≠ .free
          rw [hready]
          exact nofun
        simp only [schedule, wp_bind, wp_get]
        rw [hhead]
        simp only [wp_bind, wp_modify, wp_proc, ne_eq, hready, not_true,
          if_false]
        have hv : ∀ hd : Option Slot, spaceView { s with
            current := some h, readyQueueHead := hd } = spaceView s :=
          fun _ => rfl
        apply (wp_switchToSpace (hK.still (hv _)) hbh).mono
        intro _ s' hres
        refine ⟨hres.1, ?_⟩
        have hi₁ : Idle own s { s with
            current := some h, readyQueueHead := (s.procs h).queueNext } :=
          Idle.still (hv _) fun _ => Iff.rfl
        exact ⟨hi₁.trans (hres.2.idle (hK.pages.still (hv _))
          (hK.space h hbh).trapframe), hres.2.procs⟩
  apply ((hspace.and hqueue).mono_halt fun _ _ h => h.1).mono
  intro _ s' hres
  exact ⟨hres.1.1, hres.1.2.1, hres.1.2.2, hres.2⟩

-- ==== tick, yield and exit

/-- The running process to the back, the front one runs. -/
theorem wp_rotateSpace (hS : Sys cfg heap s own fl q c) :
    Wp bad E (do insertToReadyQueue c; schedule cfg) (fun _ s' =>
      Idle own s s' ∧ ∃ h t, q ++ [c] = h :: t ∧
        Sys cfg heap s' own fl t h) s := by
  rw [wp_bind]
  apply ((still_insertToReadyQueue c).wp
    (wp_insertToReadyQueue hS.running.queued.chain)).mono
  intro _ s₁ hres
  rw [if_neg hS.apart] at hres
  obtain ⟨hen, hv⟩ := hres
  have hi₁ : Idle own s s₁ := by
    apply Idle.still hv
    intro i
    unfold InUse
    rw [hen.status]
    by_cases hic : i = c
    · rw [if_pos hic, hic]
      exact iff_of_true ProcStatus.noConfusion hS.current
    · rw [if_neg hic]
  apply (wp_scheduleSpace (hS.inv.still hv) (hS.running.queued.enqueue hen)
    (fun i => (hi₁.inUse i).mp) (by simp)).mono
  intro _ s₂ hres
  obtain ⟨hK₂, hi₂, _, h, t, hht, hr⟩ := hres
  have hi := hi₁.trans hi₂
  have hnd : (h :: t).Nodup := by
    rw [← hht]
    exact hen.chain.nodup
  exact ⟨hi, h, t, hht, hS.idle hi hK₂ hr (List.nodup_cons.mp hnd).1⟩

theorem wp_yieldSpace (hS : Sys cfg heap s own fl q c) :
    Wp bad E (sysUserYield cfg) (fun _ s' => Idle own s s' ∧
      ∃ h t, q ++ [c] = h :: t ∧ Sys cfg heap s' own fl t h) s := by
  unfold sysUserYield
  rw [wp_bind]
  exact wp_theCurrent hS.running.current (wp_rotateSpace hS)

theorem wp_tickSpace (hS : Sys cfg heap s own fl q c) :
    Wp bad E (timerTick cfg) (fun _ s' => Idle own s s' ∧
      ∃ q' c', Sys cfg heap s' own fl q' c') s := by
  have hacct : ∀ {s₁ : Kernel} {f : Account → Account}
      {Q : Unit → Kernel → Prop}, Sys cfg heap s₁ own fl q c →
      (∀ s₂, Idle own s₁ s₂ → Sys cfg heap s₂ own fl q c → Q () s₂) →
      Wp bad E (setAcct c f) Q s₁ := by
    intro s₁ f Q hS₁ hok
    unfold setAcct
    rw [wp_modify]
    obtain ⟨hi, hS₂⟩ := hS₁.still { s₁ with
      acct := Function.update s₁.acct c (f (s₁.acct c)) } rfl rfl
    exact hok _ hi hS₂
  unfold timerTick rrsched
  rw [wp_bind, wp_modify, wp_bind]
  obtain ⟨hi₀, hS₀⟩ := hS.still { s with gTicks := s.gTicks + 1 } rfl rfl
  apply wp_theCurrent hS₀.running.current
  rw [wp_bind]
  apply hacct hS₀
  intro s₁ hi₁ hS₁
  rw [wp_bind]
  apply hacct hS₁
  intro s₂ hi₂ hS₂
  have hi := (hi₀.trans hi₁).trans hi₂
  rw [wp_bind, wp_get, wp_ite]
  refine ⟨?_, fun _ => (wp_pure _).mpr ⟨hi, q, c, hS₂⟩⟩
  intro _
  rw [wp_bind]
  apply hacct hS₂
  intro s₃ hi₃ hS₃
  apply (wp_rotateSpace hS₃).mono
  intro _ s₄ hres
  obtain ⟨hi₄, h, t, _, hS₄⟩ := hres
  exact ⟨(hi.trans hi₃).trans hi₄, t, h, hS₄⟩

/-- Exit: the process is terminated and keeps its space; the front one
runs. -/
theorem wp_exitSpace (hS : Sys cfg heap s own fl q c)
    (hE : q = [] → ∀ s', E (.shutdown 0) s') :
    Wp bad E (sysUserExit cfg) (fun _ s' => Idle own s s' ∧
      (s'.procs c).status = .zombie ∧
      ∃ h t, q = h :: t ∧ Sys cfg heap s' own fl t h) s := by
  have hcq := hS.apart
  have hr := hS.running
  unfold sysUserExit freeProcess
  rw [wp_bind]
  apply wp_theCurrent hr.current
  simp only [wp_bind, setProc, wp_modify]
  generalize hs₁ : ({ s with procs := (Function.update s.procs c
    { s.procs c with status := .zombie }) } : Kernel) = s₁
  have hproc : ∀ i, i ≠ c → s₁.procs i = s.procs i := by
    intro i hi
    rw [← hs₁]
    exact Function.update_of_ne hi _ _
  have hself : s₁.procs c = { s.procs c with status := .zombie } := by
    rw [← hs₁]
    exact Function.update_self ..
  have hv : spaceView s₁ = spaceView s := by
    have hfixed : (fun i => (s₁.procs i).fixed)
        = fun i => (s.procs i).fixed := by
      funext i
      by_cases hi : i = c
      · rw [hi, hself]
        rfl
      · rw [hproc i hi]
    unfold spaceView
    rw [hfixed, ← hs₁]
  have hi₁ : Idle own s s₁ := by
    apply Idle.still hv
    intro i
    unfold InUse
    by_cases hi : i = c
    · rw [hi, hself]
      exact iff_of_true ProcStatus.noConfusion hS.current
    · rw [hproc i hi]
  have hq₁ : Queued s₁ q [] := by
    rw [← hs₁]
    apply ((hr.queued.write _ hcq).forget ?_).forget
    · exact fun hlive => absurd (by simp) hlive.2
    · exact fun _ => Or.inr (List.mem_singleton_self c)
  apply (wp_scheduleSpace (hS.inv.still hv) hq₁ (fun i => (hi₁.inUse i).mp)
    (fun hq => hE hq s₁)).mono
  intro _ s₂ hres
  obtain ⟨hK₂, hi₂, hprocs, h, t, rfl, hr₂⟩ := hres
  have hi := hi₁.trans hi₂
  refine ⟨hi, ?_, h, t, rfl, hS.idle hi hK₂ hr₂ ?_⟩
  · rw [hprocs, hself]
  · exact (List.nodup_cons.mp hq₁.chain.nodup).1

-- ==== user stores

/-- The frame behind a leaf for user mode is a frame of the process, or
shared code. -/
theorem Space.userFrame {heap : Nat → Nat → Prop}
    (hS : Space cfg P s own i heap) {va w : Nat} (hva : va < 2 ^ 39)
    (hw : leaf s.mem (s.procs i).pagetable va = some w)
    (hu : w &&& pteU ≠ 0) :
    own (pte2pa w) = .frame i (va / pgSize) ∨ own (pte2pa w) = .code := by
  rcases hS.regions.leaves va w hva hw with ⟨k, hk, hc⟩ | hx
  · obtain ⟨seg, hseg⟩ := hS.regions.table.kind k hk
    obtain ⟨w', hw', hl⟩ := hS.regions.mapped k hk seg hseg va hc
    rw [hw] at hw'
    obtain rfl := Option.some.inj hw'
    cases seg with
    | code => exact hl.owner
    | data => exact Or.inl hl.owner
    | stack => exact Or.inl hl.owner
    | context => exact absurd (hl.kernel (Or.inl rfl)).2 hu
    | system => exact absurd (hl.kernel (Or.inr rfl)).2 hu
  · exact Or.inl (hx.of_user hu).2.1

/-- What a user store may do: nothing, or write one byte of a frame that
is mapped user-writable there. -/
def Stored (s s' : Kernel) (c : Slot) (va : Nat) (b : UInt8) : Prop :=
  s' = s ∨ ∃ w, va < maxVa ∧ leaf s.mem (s.procs c).pagetable va = some w ∧
    w &&& pteU ≠ 0 ∧ w &&& pteW ≠ 0 ∧
    s' = { s with
      mem := (store s.mem 1 (pte2pa w + va % pgSize) b.toNat) }

theorem wp_userStore_stored {va : Nat} {b : UInt8}
    (hcur : s.current = some c) : Wp bad E (userStore va b)
      (fun _ s' => Stored s s' c va b) s := by
  unfold userStore
  rw [wp_bind]
  apply wp_theCurrent hcur
  rw [wp_bind, wp_proc, wp_ite]
  refine ⟨fun _ => (wp_pure _).mpr (Or.inl rfl), ?_⟩
  intro hva
  have hmax : va < maxVa := Nat.not_le.mp hva
  rw [wp_bind, wp_pageWalk_false hmax, wp_ite]
  refine ⟨fun _ => (wp_pure _).mpr (Or.inl rfl), ?_⟩
  intro hpte
  unfold walkAddr at hpte ⊢
  cases ht : tableAt s.mem (s.procs c).pagetable (vpath va) with
  | none =>
      rw [ht] at hpte
      exact absurd rfl hpte
  | some t =>
      simp only [ld, wp_bind, wp_get, wp_pure]
      rw [wp_ite]
      refine ⟨?_, fun _ => (wp_pure _).mpr (Or.inl rfl)⟩
      intro hflags
      unfold onMem
      rw [wp_modify]
      refine Or.inr ⟨row s.mem t (px 0 va), hmax, ?_, hflags.2.1, hflags.2.2,
        rfl⟩
      rw [leaf_eq ht]
      unfold validEntry row
      rw [if_pos hflags.1]

/-- A byte stored through a leaf lands in its frame. -/
theorem within_byte (m : Mem) (w va v : Nat) :
    Within m (store m 1 (pte2pa w + va % pgSize) v) (pte2pa w) := by
  have := Nat.mod_lt va (show 0 < pgSize by decide)
  simp only [pgSize] at this ⊢
  exact within_store (by omega) (by omega)

theorem wp_storeSpace {va : Nat} {b : UInt8}
    (hS : Sys cfg heap s own fl q c) :
    Wp bad E (userStore va b) (fun _ s' => Idle own s s' ∧
      Sys cfg heap s' own fl q c ∧ Stored s s' c va b) s := by
  apply (wp_userStore_stored hS.running.current).mono
  intro _ s' hst
  have hcase : Idle own s s' ∧ Sys cfg heap s' own fl q c := by
    rcases hst with rfl | ⟨w, hva, hw, hu, _, rfl⟩
    · exact hS.still s' rfl rfl
    · have hsp := hS.inv.space c hS.current
      have hown := hsp.userFrame (Nat.lt_trans hva (by decide)) hw hu
      have hwin := within_byte s.mem w va b.toNat
      have hal : pte2pa w % pgSize = 0 := pte2pa_aligned w
      have hused : own (pte2pa w) ≠ .free := by
        rcases hown with h | h
        · rw [h]; exact Owner.noConfusion
        · rw [h]; exact Owner.noConfusion
      have hh := hS.inv.pages.within hal hused hwin
      have hK := hS.inv.writeFrame (hown.imp_left fun h => ⟨c, _, h⟩)
        (by rfl) hwin hh
      have hi : Idle own s { s with
          mem := (store s.mem 1 (pte2pa w + va % pgSize) b.toNat) } := by
        refine ⟨fun _ => rfl, fun _ => Iff.rfl, ?_, rfl⟩
        intro p hp hf hc
        apply hwin.agree hp hal
        intro heq
        rw [heq] at hf hc
        rcases hown with h | h
        · exact hf _ _ h
        · exact hc h
      exact ⟨hi, hS.idle hi hK (hS.running.congr (by rfl)) hS.apart⟩
  exact ⟨hcase.1, hcase.2, hst⟩

-- ==== wait

/-- Byte counts of regions fit the 32 bits they are kept in. -/
theorem Space.small {heap : Nat → Nat → Prop}
    (hS : Space cfg BelowStack s own i heap) : Small s i := by
  intro k hk
  by_cases h3 : 3 ≤ k
  · have hb := (hS.image k h3 hk).2
    unfold BelowStack at hb
    simp only [userStackTop, pgSize] at hb ⊢
    omega
  · have hcase : k = 0 ∨ k = 1 ∨ k = 2 := by omega
    rcases hcase with rfl | rfl | rfl
    · rw [hS.stack]; decide
    · rw [hS.context]
      show 1 * pgSize < 2 ^ 32
      decide
    · rw [hS.system]
      show 1 * pgSize < 2 ^ 32
      decide

/-- Reaping a terminated process leaves the queue alone. -/
theorem Running.reaped (hr : Running s q c) (ht : s'.apart i = s.apart i)
    (hz : (s.procs i).status = .zombie)
    (hf : (s'.procs i).status = .free) : Running s' q c := by
  have hci : c ≠ i := by
    intro heq
    rw [← heq, hr.ready] at hz
    cases hz
  have hiq : i ∉ q := by
    intro hmem
    rw [hr.queued.ready i hmem] at hz
    cases hz
  refine ⟨⟨queue_of_apart ht hr.queued.chain hiq, ?_, ?_⟩, ?_, ?_⟩
  · intro j hj
    rw [procs_of_apart ht fun h => hiq (h ▸ hj)]
    exact hr.queued.ready j hj
  · intro j hj
    have hji : j ≠ i := by
      intro h
      rw [h] at hj
      exact hj.1 hf
    unfold Live at hj
    rw [procs_of_apart ht hji] at hj
    exact hr.queued.live j hj
  · rw [current_of_apart ht]
    exact hr.current
  · rw [procs_of_apart ht hci]
    exact hr.ready

/-- Process `i`, a terminated child of `c`, was reaped. -/
structure Reaped (cfg : Config) (heap : Slot → Nat → Nat → Prop) (c i : Slot)
    (s : Kernel) (own : Nat → Owner) (fl : List Nat) (q : List Slot)
    (s' : Kernel) (own' : Nat → Owner) (fl' : List Nat) : Prop where
  child : (s.procs i).parent = some c
  zombie : (s.procs i).status = .zombie
  touches : Touches i s own s' own'
  free : (s'.procs i).status = .free
  back : GivenBack s i fl fl'
  sys : Sys cfg heap s' own' fl' q c

theorem wp_reapStep (hS : Sys cfg heap s own fl q c)
    (hp : (s.procs i).parent = some c) (hz : (s.procs i).status = .zombie) :
    Wp bad E (reap i) (fun _ s' => ∃ own' fl',
      Reaped cfg heap c i s own fl q s' own' fl') s := by
  have hi : InUse s i := by
    show (s.procs i).status ≠ .free
    rw [hz]
    exact nofun
  apply (wp_reapSpace hS.inv hi (hS.inv.space i hi).small).mono
  intro _ s' hres
  obtain ⟨own', fl', hK, ht, hgrew, hslot⟩ := hres
  have hfree : (s'.procs i).status = .free := by rw [hslot]
  refine ⟨own', fl', hp, hz, ht, hfree, hgrew, ?_, ?_, hS.apart, ?_, ?_⟩
  · apply hK.built_congr
    intro j
    by_cases hji : j = i
    · rw [hji]
      exact iff_of_false (fun h => h hfree) fun h => h.2 rfl
    · unfold InUse
      rw [procs_of_apart ht.apart hji]
      exact ⟨fun h => ⟨h, hji⟩, fun h => h.1⟩
  · exact hS.running.reaped ht.apart hz hfree
  · rw [ufree_of_apart ht.apart]
    exact hS.aligned
  · rw [ufree_of_apart ht.apart]
    exact hS.word

/-- Wait reaps a child it looks for and returns its pid, or there is
none and nothing changes. -/
theorem wp_waitSpace {pid : Int} (hS : Sys cfg heap s own fl q c) :
    Wp bad E (doWait pid) (fun r s' =>
      (s' = s ∧ ∀ i, ¬ Reapable s c pid i) ∨
      ∃ i own' fl', Reapable s c pid i ∧ r = (s.row i).pid ∧
        Reaped cfg heap c i s own fl q s' own' fl') s := by
  unfold doWait
  rw [wp_bind]
  apply wp_theCurrent hS.running.current
  by_cases hex : ∃ i ∈ List.finRange nproc, Reapable s c pid i
  · apply wp_waitLoop_reap _ _ _ hex
    intro i hi
    apply (wp_reapStep hS hi.1.1 hi.2).mono
    intro _ s' hres
    obtain ⟨own', fl', hr⟩ := hres
    exact Or.inr ⟨i, own', fl', hi, rfl, hr⟩
  · apply (wp_waitLoop_idle _ _ fun i hi hri => hex ⟨i, hi, hri⟩).mono
    intro r s' hres
    exact Or.inl ⟨hres.1, fun i hri => hex ⟨i, List.mem_finRange i, hri⟩⟩

-- ==== own space

/-- An operation of the running process on its own space. -/
theorem Sys.touches {heap' : Nat → Nat → Prop}
    (hS : Sys cfg heap s own fl q c) (ht : Touches c s own s' own')
    (hh : Heap s' own' fl') (hsp : Space cfg BelowStack s' own' c heap')
    (hw : schedView s' = schedView s) :
    Sys cfg (Function.update heap c heap') s' own' fl' q c where
  inv := by
    have hstat : ∀ i, InUse s' i ↔ InUse s i := by
      intro i
      unfold InUse
      rw [status_eq hw]
    apply KInv.built_congr _ hstat
    apply hS.inv.touches ht hh
    · intro _
      rw [Function.update_self]
      exact hsp
    · exact fun hno => absurd hS.current hno
    · intro j hj
      exact ⟨Iff.rfl, Function.update_of_ne hj _ _⟩
  running := hS.running.congr hw
  apart := hS.apart
  aligned := by rw [ufree_of_apart ht.apart]; exact hS.aligned
  word := by rw [ufree_of_apart ht.apart]; exact hS.word

theorem Took.space {p : Nat} {o : Owner} {heap : Nat → Nat → Prop}
    (ht : Took c p o s own fl s' own' fl')
    (hS : Space cfg P s own i heap) : Space cfg P s' own' i heap := by
  apply hS.frame (SameSpace.of_eq (by rw [procs_eq ht.rest]))
  · intro r hr
    apply ht.keep
    rcases hr with h | h
    · exact tag_used h
    · rw [h]; exact Owner.noConfusion
  · intro r _
    rw [ht.mem]
    exact Agree.refl s.mem r (r + 4096)
  · exact fun _ _ h => h

/-- The running process takes a page as its frame for page `v`. -/
theorem wp_takeFrame {v n : Nat} {Q : Nat → Kernel → Prop}
    (hS : Sys cfg heap s own fl q c) (hroom : Room bad (n + 1) fl)
    (hok : ∀ p s' own' fl', Sys cfg heap s' own' fl' q c →
      Took c p (.frame c v) s own fl s' own' fl' → Room bad n fl' → Q p s') :
    Wp bad E allocPage Q s := by
  have htook : Wp bad E allocPage (fun p s' => ∃ own' fl',
      Took c p (.frame c v) s own fl s' own' fl' ∧ Room bad n fl') s := by
    apply wp_take (i := c) (fun _ => .frame c v)
      (fun _ => ⟨Owner.noConfusion, Or.inr rfl⟩) hS.inv.pages hroom
    intro p s' own' fl' ht hroom'
    exact ⟨own', fl', ht, hroom'⟩
  apply ((leaves_allocPage sched_blind).wp htook).mono
  intro p s' hres
  obtain ⟨⟨own', fl', ht, hroom'⟩, hw⟩ := hres
  apply hok p s' own' fl' _ ht hroom'
  have hsp := ht.space (hS.inv.space c hS.current)
  have hS' := hS.touches ht.touches ht.pages hsp hw
  rw [Function.update_eq_self] at hS'
  exact hS'

/-- Page `va`, which was not mapped, was mapped to frame `pa` for user
mode; the tables of the process and pages that were free apart, memory
is as it was. -/
structure NewPage (c : Slot) (va pa : Nat) (s : Kernel)
    (own : Nat → Owner) (s' : Kernel) : Prop where
  new : leaf s.mem (s.procs c).pagetable va = none
  below : va < maxVa
  leaf : ∃ w, leaf s'.mem (s'.procs c).pagetable va = some w ∧
    pte2pa w = pa ∧ UserWritable w
  others : ∀ a < 2 ^ 39, a / 4096 ≠ va / 4096 →
    Pke.leaf s'.mem (s'.procs c).pagetable a
      = Pke.leaf s.mem (s.procs c).pagetable a
  procs : s'.procs = s.procs
  agree : ∀ p, p % pgSize = 0 → own p ≠ .free ∨ p = pa →
    (∀ path, own p ≠ .table c path) → Agree s.mem s'.mem p (p + 4096)

/-- At most `k` pages came off the front of the list. -/
structure Spent (k : Nat) (fl fl' : List Nat) : Prop where
  suffix : fl' <:+ fl
  length : fl.length ≤ fl'.length + k

theorem Spent.cons {k p : Nat} (h : Spent k fl fl') : Spent (k + 1) (p :: fl) fl' where
  suffix := h.suffix.trans (List.suffix_cons p fl)
  length := by
    have := h.length
    rw [List.length_cons]
    omega

/-- Mapping a frame of the process at `va`, unrecorded. -/
theorem wp_mapHeap {va pa : Nat} (hS : Sys cfg heap s own fl q c)
    (hal : va % pgSize = 0) (hown : own pa = .frame c (va / pgSize))
    (hok : (va < maxVa ∧ leaf s.mem (s.procs c).pagetable va = none)
      ∨ (va + pgSize ≤ 2 ^ 64 ∧ ∀ e s', E e s'))
    (hroom : Room bad 3 fl) :
    Wp bad E (userVmMap (s.procs c).pagetable va pgSize pa
        (protToType (protWrite ||| protRead) true)) (fun _ s' =>
      ∃ own' fl', Sys cfg (Function.update heap c fun v p =>
          heap c v p ∨ (v = va / pgSize ∧ p = pa)) s' own' fl' q c ∧
        Touches c s own s' own' ∧ NewPage c va pa s own s' ∧
        Spent 2 fl fl') s := by
  have hsp := hS.inv.space c hS.current
  have hpage : PageIn s pa :=
    tag_page (n := c) hS.inv.pages (by rw [hown]; rfl)
  have hlt := hpage.lt hS.inv.pages
  apply ((leaves_userVmMap sched_blind ..).wp (wp_userVmMap hal (by decide)
    (by simp only [pgSize]; omega) hS.inv.pages hsp.regions.tables hroom
    hok)).mono
  intro _ s' hres
  obtain ⟨⟨own', fl', hg, hm, hmax, hlen⟩, hw⟩ := hres
  have ht := hg.touches hS.inv.pages
  have hsp' := hsp.mapHeap hS.inv.pages hg hm hpage.aligned (by omega)
    (by decide) (by decide) hown
  have h39 : va < 2 ^ 39 := Nat.lt_trans hmax (by decide)
  refine ⟨own', fl', hS.touches ht hg.heap hsp' hw, ht,
    ⟨?_, hmax, ?_, fun a ha hne => ?_, procs_eq hg.rest, ?_⟩, ?_, by omega⟩
  · exact hm.unmapped va h39 (inPages_one.mpr rfl)
  · refine ⟨pa2pte pa ||| protToType (protWrite ||| protRead) true ||| pteV,
      ?_, entry_pa hpage.aligned (by omega) (by decide), ?_⟩
    · rw [procs_eq hg.rest, hm.one h39, if_pos rfl]
    · unfold UserWritable
      rw [entry_and (by decide) (by decide), entry_and (by decide) (by decide)]
      decide
  · rw [procs_eq hg.rest, hm.one ha, if_neg hne]
  · intro p hp hused hno
    refine hg.agree p hp ?_ hno
    rcases hused with h | rfl
    · exact h
    · rw [hown]; exact Owner.noConfusion
  · obtain ⟨tk, htk, -⟩ := hg.taken
    rw [htk]
    exact List.suffix_append tk fl'

/-- Pages change hands only between slot `i`, the free list and what is
out of sight. -/
structure Passes (i : Slot) (own own' : Nat → Owner) : Prop where
  keep : ∀ p, own p ≠ .free → (own p).tag ≠ some i.val → own' p = own p
  yield : ∀ p, own p = .free ∨ (own p).tag = some i.val →
    own' p = .free ∨ own' p = .held ∨ (own' p).tag = some i.val

theorem Touches.passes (ht : Touches i s own s' own') : Passes i own own' :=
  ⟨ht.keep, ht.yield⟩

theorem Passes.trans (h₁ : Passes i own own₁) (h₂ : Passes i own₁ own₂) :
    Passes i own own₂ where
  keep p hp ht := by
    have h := h₁.keep p hp ht
    rw [h₂.keep p (by rw [h]; exact hp) (by rw [h]; exact ht), h]
  yield p hp := by
    rcases h₁.yield p hp with h | h | h
    · exact h₂.yield p (Or.inl h)
    · rw [h₂.keep p (by rw [h]; exact Owner.noConfusion)
        (by rw [h]; exact nofun)]
      exact Or.inr (Or.inl h)
    · exact h₂.yield p (Or.inr h)

-- ==== allocate and faults

/-- The same, told of the state before the frame was taken. -/
theorem Took.newPage {va p v : Nat}
    (ht : Took c p (.frame c v) s own fl s₁ own₁ fl₁)
    (hmap : NewPage c va p s own₁ s') : NewPage c va p s own s' where
  new := hmap.new
  below := hmap.below
  leaf := hmap.leaf
  others := hmap.others
  procs := hmap.procs
  agree r hr hused hno := by
    by_cases hrp : r = p
    · refine hmap.agree r hr (Or.inr hrp) fun path => ?_
      rw [hrp, ht.new]
      exact Owner.noConfusion
    · have hkeep := ht.keep r (hused.resolve_right hrp)
      refine hmap.agree r hr (Or.inl ?_) fun path => ?_
      · rw [hkeep]
        exact hused.resolve_right hrp
      · rw [hkeep]
        exact hno path

theorem NewPage.congr {va pa : Nat} (hmap : NewPage c va pa s₁ own s')
    (hm : s₁.mem = s.mem) (hp : s₁.procs = s.procs) :
    NewPage c va pa s own s' where
  new := by rw [← hm, ← hp]; exact hmap.new
  below := hmap.below
  leaf := hmap.leaf
  others := by rw [← hm, ← hp]; exact hmap.others
  procs := hmap.procs.trans hp
  agree := by rw [← hm]; exact hmap.agree

/-- The region table of the process is as it was. -/
theorem NewPage.regionAt {va pa k : Nat} (hmap : NewPage c va pa s own s')
    (hS : Sys cfg heap s own fl q c)
    (hk : k < (s.procs c).totalMappedRegion) :
    regionAt s'.mem (s'.procs c).mappedInfo k
      = Pke.regionAt s.mem (s.procs c).mappedInfo k := by
  have hR := (hS.inv.space c hS.current).regions
  have hinfo := hR.owner
  rw [hmap.procs]
  refine regionAt_agree (hmap.agree _ ?_ (Or.inl ?_) fun path => ?_)
    (Nat.lt_of_lt_of_le hk hR.table.count)
  · exact (tag_page (n := c) hS.inv.pages (by rw [hinfo]; rfl)).aligned
  · rw [hinfo]; exact Owner.noConfusion
  · rw [hinfo]; exact Owner.noConfusion

/-- The heap of the running process with one more page. -/
def moreHeap (heap : Slot → Nat → Nat → Prop) (c : Slot) (va pa : Nat) :
    Slot → Nat → Nat → Prop :=
  Function.update heap c fun v p =>
    heap c v p ∨ (v = va / pgSize ∧ p = pa)

/-- `sys_user_allocate_page` maps the page `alloc_page` returns at the
next heap address. -/
theorem wp_allocateSpace (hS : Sys cfg heap s own fl q c)
    (hok : (s.gUfreePage < maxVa ∧
        leaf s.mem (s.procs c).pagetable s.gUfreePage = none)
      ∨ ∀ e s', E e s') (hroom : Room bad 4 fl) :
    Wp bad E sysUserAllocatePage (fun va s' => ∃ pa own' fl',
      va = s.gUfreePage ∧ fl.head? = some pa ∧
      Sys cfg (moreHeap heap c va pa) s' own' fl' q c ∧
      Passes c own own' ∧ NewPage c va pa s own s' ∧
      s'.gUfreePage = u64 (s.gUfreePage + pgSize) ∧ Spent 3 fl fl') s := by
  unfold sysUserAllocatePage
  rw [wp_bind]
  apply wp_takeFrame (v := s.gUfreePage / pgSize) hS hroom
  intro pa s₁ own₁ fl₁ hS₁ ht₁ hroom₁
  have hu₁ : s₁.gUfreePage = s.gUfreePage := ufree_of_apart ht₁.touches.apart
  have hleaf₁ : leaf s₁.mem (s₁.procs c).pagetable s.gUfreePage
      = leaf s.mem (s.procs c).pagetable s.gUfreePage := by
    rw [ht₁.mem, procs_eq ht₁.rest]
  rw [wp_bind, wp_get, wp_bind, wp_modify, wp_bind]
  generalize hs₂ : ({ s₁ with
    gUfreePage := (u64 (s₁.gUfreePage + pgSize)) } : Kernel) = s₂
  have hmem₂ : s₂.mem = s₁.mem := by rw [← hs₂]
  have hproc₂ : s₂.procs = s₁.procs := by rw [← hs₂]
  -- the value stored is generalised, so that it is never evaluated
  have hview : ∀ v, schedView { s₁ with gUfreePage := v } = schedView s₁ :=
    fun _ => rfl
  have hsched : schedView s₂ = schedView s₁ := by
    rw [← hs₂]
    exact hview _
  have hS₂ : Sys cfg heap s₂ own₁ fl₁ q c := by
    refine ⟨?_, hS₁.running.congr hsched, hS₁.apart, ?_, ?_⟩
    · have hK : KInv cfg BelowStack s₂ own₁ fl₁ (InUse s₁) heap := by
        refine ⟨?_, ?_, ?_, hS₁.inv.tagged⟩
        · rw [← hs₂]
          exact hS₁.inv.pages.congr rfl rfl rfl rfl
        · rw [← hs₂]
          exact ⟨hS₁.inv.ranges.start, hS₁.inv.ranges.stop⟩
        · intro j hj
          apply (hS₁.inv.space j hj).frame (SameSpace.of_eq (by rw [hproc₂]))
            (fun _ _ => rfl)
          · intro r _
            rw [hmem₂]
            exact Agree.refl s₁.mem r (r + 4096)
          · exact fun _ _ h => h
      apply hK.built_congr
      intro j
      unfold InUse
      rw [hproc₂]
    · have hal := hS₁.aligned
      rw [← hs₂]
      show u64 (s₁.gUfreePage + pgSize) % pgSize = 0
      unfold u64
      simp only [pgSize] at hal ⊢
      omega
    · rw [← hs₂]
      exact Nat.mod_lt _ (by decide)
  apply wp_theCurrent hS₂.running.current
  rw [wp_bind, wp_proc, wp_bind, hu₁]
  have hal := hS.aligned
  have hword := hS.word
  apply (wp_mapHeap hS₂ hal ht₁.new _ hroom₁).mono
  · intro _ s₃ hres
    obtain ⟨own₃, fl₃, hS₃, htouch, hmap, hspent⟩ := hres
    rw [wp_pure]
    refine ⟨pa, own₃, fl₃, rfl, by rw [ht₁.head]; rfl, hS₃,
      ht₁.touches.passes.trans htouch.passes, ht₁.newPage ?_, ?_,
      ht₁.head ▸ hspent.cons⟩
    · have hproc₁ : s₁.procs = s.procs := procs_eq ht₁.rest
      exact hmap.congr (hmem₂.trans ht₁.mem) (hproc₂.trans hproc₁)
    · rw [ufree_of_apart htouch.apart, ← hu₁, ← hs₂]
  · rw [hmem₂, hproc₂]
    rcases hok with h | h
    · apply Or.inl
      rw [hleaf₁]
      exact h
    · refine Or.inr ⟨?_, h⟩
      simp only [pgSize] at hal ⊢
      omega

/-- A store page fault maps a fresh page at the page that faulted. -/
theorem wp_faultSpace {mcause stval : Nat} (hS : Sys cfg heap s own fl q c)
    (hok : (roundDown stval pgSize < maxVa ∧
        leaf s.mem (s.procs c).pagetable (roundDown stval pgSize) = none)
      ∨ ∀ e s', E e s') (hword : stval < 2 ^ 64) (hroom : Room bad 4 fl) :
    Wp bad E (handleUserPageFault mcause stval) (fun _ s' => s' = s ∨
      (mcause = causeStorePageFault ∧ ∃ pa own' fl',
        Sys cfg (moreHeap heap c stval pa) s' own' fl' q c ∧
        Passes c own own' ∧
        NewPage c (roundDown stval pgSize) pa s own s' ∧
        s'.gUfreePage = s.gUfreePage ∧ Spent 3 fl fl')) s := by
  unfold handleUserPageFault
  rw [wp_ite]
  refine ⟨?_, fun _ => (wp_pure _).mpr (Or.inl rfl)⟩
  intro hcause
  have hal : roundDown stval pgSize % pgSize = 0 := Nat.mul_mod_left _ _
  have hpage : roundDown stval pgSize / pgSize = stval / pgSize :=
    Nat.mul_div_cancel _ (by decide)
  rw [wp_bind]
  apply wp_takeFrame (v := stval / pgSize) hS hroom
  intro pa s₁ own₁ fl₁ hS₁ ht₁ hroom₁
  rw [wp_bind]
  apply wp_theCurrent hS₁.running.current
  rw [wp_bind, wp_proc]
  apply (wp_mapHeap hS₁ hal (by rw [hpage]; exact ht₁.new) _ hroom₁).mono
  · intro _ s₂ hres
    obtain ⟨own₂, fl₂, hS₂, htouch, hmap, hspent⟩ := hres
    rw [hpage] at hS₂
    refine Or.inr ⟨hcause, pa, own₂, fl₂, hS₂,
      ht₁.touches.passes.trans htouch.passes, ht₁.newPage ?_, ?_,
      ht₁.head ▸ hspent.cons⟩
    · exact hmap.congr ht₁.mem (procs_eq ht₁.rest)
    · exact (ufree_of_apart htouch.apart).trans
        (ufree_of_apart ht₁.touches.apart)
  · rw [ht₁.mem, procs_eq ht₁.rest]
    refine hok.imp_right fun hE => ⟨?_, hE⟩
    unfold roundDown
    simp only [pgSize]
    omega

-- ==== free

/-- Losing the frame of one page does not concern another page. -/
theorem RegionLeaf.dropFrame {seg : SegType} {j u v w f : Nat}
    (hl : RegionLeaf own j seg v w) (hf : own f = .frame j u) (hne : v ≠ u)
    (hkeep : ∀ p, p ≠ f → own' p = own p) : RegionLeaf own' j seg v w where
  readable := hl.readable
  owner := by
    have hframe : own (pte2pa w) = .frame j v → own' (pte2pa w) = .frame j v := by
      intro hown
      rw [hkeep, hown]
      intro heq
      rw [heq, hf] at hown
      exact hne (Owner.frame.inj hown).2.symm
    have hcode : own (pte2pa w) = .code → own' (pte2pa w) = .code := by
      intro hown
      rw [hkeep, hown]
      intro heq
      rw [heq, hf] at hown
      cases hown
    cases seg with
    | code => exact hl.owner.imp hframe hcode
    | system => exact trivial
    | data => exact hframe hl.owner
    | stack => exact hframe hl.owner
    | context => exact hframe hl.owner
  kernel := hl.kernel
  user := hl.user

/-- Unmapping an unrecorded page and giving its frame back. -/
theorem Space.dropHeap {va f : Nat} {heap : Nat → Nat → Prop}
    (hS : Space cfg P s own i heap) (hh : Heap s own fl)
    (hu : Unmapped i (s.procs i).pagetable va 1 [f] s own fl s' own' fl')
    (hf : own f = .frame i (va / pgSize))
    (hno : ∀ k < (s.procs i).totalMappedRegion,
      ¬ (regionAt s.mem (s.procs i).mappedInfo k).Covers va) :
    Space cfg P s' own' i fun v p => heap v p ∧ v ≠ va / pgSize := by
  have hproc : s'.procs i = s.procs i := by rw [procs_eq hu.rest]
  have hkeep : ∀ p, p ≠ f → own' p = own p := by
    intro p hp
    rw [hu.owner p, if_neg fun h => hp (List.mem_singleton.mp h)]
  have hkept : ∀ p o, own p = o → (o ≠ .frame i (va / pgSize)) →
      own' p = o := by
    intro p o hp ho
    rw [hkeep p _, hp]
    intro heq
    rw [heq, hf] at hp
    exact ho hp.symm
  have hinfo := hS.regions.owner
  have hinfoal := (tag_page (n := i) hh (by rw [hinfo]; rfl)).aligned
  have hne : (s.procs i).mappedInfo ≠ f := by
    intro heq
    rw [heq, hf] at hinfo
    cases hinfo
  have hag : Agree s.mem s'.mem (s.procs i).mappedInfo
      ((s.procs i).mappedInfo + 4096) := by
    apply hu.agree _ hinfoal fun h => hne (List.mem_singleton.mp h)
    intro path
    rw [hinfo]
    exact Owner.noConfusion
  have hat : ∀ k < maxRegions,
      regionAt s'.mem (s.procs i).mappedInfo k
        = regionAt s.mem (s.procs i).mappedInfo k :=
    fun k hk => regionAt_agree hag hk
  have hn := hS.regions.table.count
  -- a page in a region is another page
  have hout : ∀ k < (s.procs i).totalMappedRegion, ∀ b,
      (regionAt s.mem (s.procs i).mappedInfo k).Covers b →
      b / 4096 ≠ va / 4096 := by
    intro k hk b hc heq
    apply hno k hk
    unfold MappedRegion.Covers inPages at hc ⊢
    rw [← heq]
    exact hc
  constructor
  case regions =>
    rw [hproc]
    refine ⟨hu.tables, hkept _ _ hinfo Owner.noConfusion,
      hS.regions.table.agree hag, ?_, ?_⟩
    · intro k hk seg hseg b hc
      rw [hat k (by omega)] at hseg hc
      obtain ⟨w, hw, hl⟩ := hS.regions.mapped k hk seg hseg b hc
      have hb := hout k hk b hc
      have hb39 : b < 2 ^ 39 :=
        Nat.lt_trans (hS.regions.table.covers_lt hk hc) (by decide)
      refine ⟨w, ?_, hl.dropFrame hf hb hkeep⟩
      rw [hu.leaves b hb39, if_neg fun h => hb (inPages_one.mp h)]
      exact hw
    · intro b w hb hw
      rw [hu.leaves b hb] at hw
      by_cases hin : inPages va 1 b
      · rw [if_pos hin] at hw
        cases hw
      · rw [if_neg hin] at hw
        have hne' : b / pgSize ≠ va / pgSize :=
          fun h => hin (inPages_one.mpr h)
        rcases hS.regions.leaves b w hb hw with
          ⟨k, hk, hc⟩ | ⟨hv, hown, hu⟩ | hstray
        · refine Or.inl ⟨k, hk, ?_⟩
          rw [hat k (by omega)]
          exact hc
        · refine Or.inr (Or.inl ⟨⟨hv, hne'⟩, hkept _ _ hown ?_, hu⟩)
          intro heq
          exact hne' (Owner.frame.inj heq).2
        · exact Or.inr (Or.inr hstray)
  case kstack =>
    obtain ⟨k, hk, hkown⟩ := hS.kstack
    rw [hproc]
    exact ⟨k, hk, hkept _ _ hkown Owner.noConfusion⟩
  case three => rw [hproc]; exact hS.three
  case stack => rw [hproc, hat 0 (by decide)]; exact hS.stack
  case context => rw [hproc, hat 1 (by decide)]; exact hS.context
  case system => rw [hproc, hat 2 (by decide)]; exact hS.system
  case image =>
    intro k h3 hk
    rw [hproc] at hk ⊢
    rw [hat k (by omega)]
    exact hS.image k h3 hk

/-- The heap of the running process with one page less. -/
def lessHeap (heap : Slot → Nat → Nat → Prop) (c : Slot) (va : Nat) :
    Slot → Nat → Nat → Prop :=
  Function.update heap c fun v p => heap c v p ∧ v ≠ va / pgSize

/-- The frame of page `va` of the running process, an unrecorded page,
was given back. -/
structure FreedHeap (cfg : Config) (heap : Slot → Nat → Nat → Prop)
    (c : Slot) (va w : Nat) (q : List Slot) (s : Kernel)
    (own : Nat → Owner) (fl : List Nat) (s' : Kernel)
    (own' : Nat → Owner) : Prop where
  mapped : leaf s.mem (s.procs c).pagetable va = some w
  below : va < maxVa
  given : heap c (va / pgSize) (pte2pa w)
  frame : own (pte2pa w) = .frame c (va / pgSize)
  user : UserWritable w
  others : ∀ a < 2 ^ 39, a / 4096 ≠ va / 4096 →
    leaf s'.mem (s'.procs c).pagetable a = leaf s.mem (s.procs c).pagetable a
  ufree : s'.gUfreePage = s.gUfreePage
  procs : s'.procs = s.procs
  agree : ∀ p, p % pgSize = 0 → p ≠ pte2pa w →
    (∀ path, own p ≠ .table c path) → Agree s.mem s'.mem p (p + 4096)
  passes : Passes c own own'
  sys : Sys cfg (lessHeap heap c va) s' own' (pte2pa w :: fl) q c

theorem Unmapped.passes {root va f v : Nat}
    (hu : Unmapped i root va 1 [f] s own fl s' own' fl')
    (hf : own f = .frame i v) : Passes i own own' := by
  have hown : ∀ p, p ≠ f → own' p = own p := by
    intro p hp
    rw [hu.owner p, if_neg fun h => hp (List.mem_singleton.mp h)]
  constructor
  · intro p _ ht
    apply hown
    intro heq
    rw [heq, hf] at ht
    exact ht rfl
  · intro p hp
    by_cases hpf : p = f
    · rw [hpf, hu.owner f, if_pos (List.mem_singleton_self f)]
      exact Or.inl rfl
    · rw [hown p hpf]
      exact hp.imp id Or.inr

theorem Unmapped.touches {root va f v : Nat}
    (hu : Unmapped i root va 1 [f] s own fl s' own' fl')
    (hf : own f = .frame i v) : Touches i s own s' own' where
  apart := apart_of_rest hu.rest
  keep := (hu.passes hf).keep
  agree p hp _ ht := by
    apply hu.agree p hp
    · intro hmem
      rw [List.mem_singleton.mp hmem, hf] at ht
      exact ht rfl
    · intro path hpath
      rw [hpath] at ht
      exact ht rfl
  yield := (hu.passes hf).yield

/-- `user_vm_unmap` of one page whose frame is a frame of the process; the
leaf for page 0 is refused by `free_page`. -/
theorem wp_unmapOne {va : Nat} (hS : Sys cfg heap s own fl q c)
    (hal : va % pgSize = 0) (hwrap : va + pgSize < 2 ^ 64)
    (hframe : va < maxVa → ∀ w, leaf s.mem (s.procs c).pagetable va = some w →
      own (pte2pa w) = .frame c (va / pgSize) ∨
        pte2pa w = 0 ∧ ∀ e s', E e s')
    (hok : (va < maxVa ∧ ∃ w, leaf s.mem (s.procs c).pagetable va = some w ∧
      pteFlags w ≠ pteV) ∨ ∀ e s', E e s') :
    Wp bad E (userVmUnmap (s.procs c).pagetable va pgSize true)
      (fun _ s' => ∃ w own', va < maxVa ∧
        leaf s.mem (s.procs c).pagetable va = some w ∧
        own (pte2pa w) = .frame c (va / pgSize) ∧
        Unmapped c (s.procs c).pagetable va 1 [pte2pa w] s own fl s' own'
          (pte2pa w :: fl)) s := by
  have hsp := hS.inv.space c hS.current
  have hone : (u64 (va + pgSize) - va + (pgSize - 1)) / pgSize = 1 := by
    unfold u64
    simp only [pgSize] at hwrap ⊢
    omega
  have hbase : va + 0 * pgSize = va := by omega
  unfold userVmUnmap
  rw [wp_ite]
  refine ⟨fun h => absurd hal h, fun _ => ?_⟩
  simp only [hone]
  apply (wp_unmapLoop 1 va s own fl hS.inv.pages hsp.regions.tables _ _ _).mono
  · intro _ s' hres
    obtain ⟨own', fl', hu, -⟩ := hres
    obtain ⟨hmax, hmapped⟩ := hu.mapped 0 (by decide)
    rw [hbase] at hmax hmapped
    obtain ⟨w, hw⟩ := Option.ne_none_iff_exists'.mp hmapped
    have hfreed : freedFrames true s.mem (s.procs c).pagetable va 1
        = [pte2pa w] := by
      unfold freedFrames frameAt
      rw [if_pos rfl, List.range_one, List.map_singleton, hbase, hw]
      rfl
    rw [hfreed] at hu
    have hlist := hu.list
    rw [List.reverse_singleton, List.singleton_append] at hlist
    rw [hlist] at hu
    refine ⟨w, own', hmax, hw, (hframe hmax w hw).resolve_right ?_, hu⟩
    rintro ⟨hzero, -⟩
    have hin := hu.heap.pool.page _ (List.mem_cons_self ..)
    rw [hzero] at hin
    exact absurd hin.lo (Nat.not_le.mpr hu.heap.pool.start_pos)
  · intro _ k hk hmax w hw
    obtain rfl : k = 0 := by omega
    rw [hbase] at hmax hw
    rcases hframe hmax w hw with hown | ⟨hzero, hE⟩
    · refine ⟨?_, ?_, Or.inl (tag_page (n := c) hS.inv.pages ?_)⟩
      · rw [hown]; exact Owner.noConfusion
      · intro path
        rw [hown]
        exact Owner.noConfusion
      · rw [hown]; rfl
    · refine ⟨?_, fun path => ?_, Or.inr hE⟩ <;>
      · rw [hzero, hS.inv.pages.zero_held]
        exact Owner.noConfusion
  · intro _ j k hjk hk
    omega
  · refine hok.imp_left fun h k hk => ?_
    obtain rfl : k = 0 := by omega
    rw [hbase]
    exact h

/-- `sys_user_free_page` of an address outside the recorded regions
gives back an unrecorded page, or halts where there is none; the last page
of the address space is a range that wraps, and nothing happens. -/
theorem wp_freeSpace {va : Nat} (hS : Sys cfg heap s own fl q c)
    (hok : (va % pgSize = 0 ∧ va < maxVa ∧
        ∃ w, leaf s.mem (s.procs c).pagetable va = some w ∧ UserWritable w)
      ∨ ∀ e s', E e s')
    (hva : va < 2 ^ 64)
    (hno : ∀ k < (s.procs c).totalMappedRegion,
      ¬ (regionAt s.mem (s.procs c).mappedInfo k).Covers va) :
    Wp bad E (sysUserFreePage va) (fun _ s' => (s' = s ∧ maxVa ≤ va) ∨ ∃ w own',
      FreedHeap cfg heap c va w q s own fl s' own') s := by
  have hsp := hS.inv.space c hS.current
  unfold sysUserFreePage
  rw [wp_bind]
  apply wp_theCurrent hS.running.current
  rw [wp_bind, wp_proc, wp_bind]
  -- a page outside the regions is an unrecorded one
  have hextra : va < maxVa → ∀ w,
      leaf s.mem (s.procs c).pagetable va = some w →
      heapLeaf cfg own c (heap c) (va / pgSize) w := by
    intro hmax w hw
    rcases hsp.regions.leaves va w (Nat.lt_trans hmax (by decide)) hw with
      ⟨k, hk, hc⟩ | h
    · exact absurd hc (hno k hk)
    · exact h
  have hwp : Wp bad E (userVmUnmap (s.procs c).pagetable va pgSize true)
      (fun _ s' => (s' = s ∧ maxVa ≤ va) ∨ ∃ w own', va < maxVa ∧
        leaf s.mem (s.procs c).pagetable va = some w ∧
        own (pte2pa w) = .frame c (va / pgSize) ∧
        Unmapped c (s.procs c).pagetable va 1 [pte2pa w] s own fl s' own'
          (pte2pa w :: fl)) s := by
    by_cases hal : va % pgSize = 0
    · by_cases hwrap : va + pgSize < 2 ^ 64
      · refine (wp_unmapOne hS hal hwrap (fun hmax w hw => ?_)
          (hok.imp_left fun h => ?_)).mono fun _ _ => Or.inr
        · rcases hok with ⟨-, -, w', hw', huser⟩ | hE
          · obtain rfl := Option.some.inj (hw.symm.trans hw')
            exact Or.inl ((hextra hmax w hw).of_user huser.1).2.1
          · exact (hextra hmax w hw).imp (fun h => h.2.1) fun h => ⟨h.pa, hE⟩
        · obtain ⟨-, hmax, w, hw, huser⟩ := h
          exact ⟨hmax, w, hw, huser.flags⟩
      · have hzero : (u64 (va + pgSize) - va + (pgSize - 1)) / pgSize = 0 := by
          unfold u64
          simp only [pgSize] at hwrap hal ⊢
          omega
        unfold userVmUnmap
        rw [wp_ite]
        refine ⟨fun h => absurd hal h, fun _ => ?_⟩
        simp only [hzero]
        refine (wp_pure _).mpr (Or.inl ⟨rfl, ?_⟩)
        simp only [pgSize, maxVa] at hwrap ⊢
        omega
    · unfold userVmUnmap
      rw [wp_ite]
      refine ⟨fun _ => ?_, fun h => absurd hal h⟩
      simp only [panic, wp_halt]
      exact hok.resolve_left (fun h => hal h.1) _ _
  apply ((leaves_userVmUnmap sched_blind ..).wp hwp).mono
  intro _ s' hres
  rw [wp_pure]
  obtain ⟨⟨rfl, hbig⟩ | ⟨w, own', hmax, hw, hown, hu⟩, hv⟩ := hres
  · exact Or.inl ⟨rfl, hbig⟩
  · have hstray : ¬ StrayLeaf cfg (va / pgSize) w := by
      intro h
      rw [h.pa, hS.inv.pages.zero_held] at hown
      cases hown
    obtain ⟨hgiven, -, huser⟩ := (hextra hmax w hw).resolve_right hstray
    refine Or.inr ⟨w, own', hw, hmax, hgiven, hown, huser, fun a ha hne => ?_,
      ufree_of_apart (hu.touches hown).apart, procs_eq hu.rest,
      fun p hal hp => hu.agree p hal (by simpa using hp), hu.passes hown, ?_⟩
    · rw [procs_eq hu.rest, hu.leaves a ha, if_neg (mt inPages_one.mp hne)]
    exact hS.touches (hu.touches hown) hu.heap
      (hsp.dropHeap hS.inv.pages hu hown hno) hv

-- ==== exec

/-- Exec rebuilds the space of the running process and loads an image
into it; `H` admits that a segment at address 0 is lost from the
table. -/
theorem wp_execSpace {f : HostFile} (hS : Sys cfg heap s own fl q c)
    (hE : ∀ e s', E e s') (H : Prop) (hbelow : ∀ ph ∈ segments f, ph.Below)
    (hcount : (segments f).length ≤ 253)
    (hhole : Holeless (segments f) ∨ H)
    (hroom : Room bad (3 * (segments f).length + 10) fl) :
    Wp bad E (execImage cfg f) (fun _ s' => ∃ own' fl',
      Sys cfg (Function.update heap c fun _ _ => H) s' own' fl' q c ∧
      Touches c s own s' own') s := by
  have hsp := hS.inv.space c hS.current
  unfold execImage
  rw [wp_bind]
  apply wp_theCurrent hS.running.current
  have hquiet : Quiet (do reallocProcess cfg c; loadBincode f c) :=
    (leaves_reallocProcess sched_blind cfg (sched_account c)).bind fun _ =>
      leaves_loadBincode sched_blind sched_files f c
  have hwp : Wp bad E (do reallocProcess cfg c; loadBincode f c)
      (fun _ s' => ∃ own' fl', Heap s' own' fl' ∧ Touches c s own s' own' ∧
        Space cfg BelowStack s' own' c fun _ _ => H) s := by
    rw [wp_bind]
    apply (wp_reallocProcess hS.inv.pages hS.inv.ranges hsp hsp.small
      (hroom.less (by omega))).mono
    intro _ s₁ hres
    obtain ⟨own₁, fl₁, hh₁, hsp₁, ht₁, htotal, hlen⟩ := hres
    have hL := hsp₁.loading htotal hh₁
    have hlast : ¬ LastZero s₁ c := by
      intro hz
      have := hsp₁.lastZero hz
      omega
    apply (wp_loadBincode hE H hh₁ hL hbelow
      (by rw [htotal]; simp only [maxRegions]; omega)
      (hhole.imp_left fun h => ⟨hlast, h⟩) (hroom.less (by omega))).mono
    intro _ s₂ hres
    obtain ⟨own₂, fl₂, hh₂, ht₂, hsp₂⟩ := hres
    exact ⟨own₂, fl₂, hh₂, ht₁.trans ht₂,
      hsp₂.mono fun _ _ h => h.resolve_left id⟩
  apply (hquiet.wp hwp).mono
  intro _ s' hres
  obtain ⟨⟨own', fl', hh, ht, hsp'⟩, hv⟩ := hres
  exact ⟨own', fl', hS.touches ht hh hsp' hv, ht⟩

-- ==== fork

/-- An image below the stack keeps clear of every page of the pool. -/
theorem KInv.clear (hK : KInv cfg BelowStack s own fl built heap)
    (hi : built i) {p k : Nat} (hp : PageIn s p) (h3 : 3 ≤ k)
    (hk : k < (s.procs i).totalMappedRegion) :
    ¬ (regionAt s.mem (s.procs i).mappedInfo k).Covers p := by
  intro hc
  have hb := ((hK.space i hi).image k h3 hk).2
  have hr := (hK.ranges.frame hp).1
  have htrap := cfg.trap_base
  unfold BelowStack at hb
  unfold MappedRegion.Covers inPages at hc
  simp only [userStackTop, pgSize, kernBase] at hb htrap
  omega

/-- The queue after a fork. -/
theorem Running.forked {a child : Slot} (hr : Running s q c)
    (ho : ForkOutcome cfg P a child built heap q s own fl s' own' fl')
    (hne : c ≠ child) : Running s' (q ++ [child]) c := by
  refine ⟨⟨ho.queue, ?_, ?_⟩, ?_, ?_⟩
  · intro i hi
    rw [ho.status]
    by_cases hic : i = child
    · rw [if_pos hic]
    · rw [if_neg hic]
      rcases List.mem_append.mp hi with h | h
      · exact hr.queued.ready i h
      · exact absurd (List.mem_singleton.mp h) hic
  · intro i hi
    by_cases hic : i = child
    · rw [hic]
      exact Or.inl (List.mem_append_right _ (List.mem_singleton_self child))
    · unfold Live at hi
      rw [ho.status, if_neg hic] at hi
      exact (hr.queued.live i hi).imp_left (List.mem_append_left _)
  · rw [ho.current]
    exact hr.current
  · rw [ho.status, if_neg hne]
    exact hr.ready

/-- An image below the stack keeps clear of the page of the stray leaf. -/
theorem KInv.clear_stray (hK : KInv cfg BelowStack s own fl built heap)
    (hi : built i) {k : Nat} (h3 : 3 ≤ k)
    (hk : k < (s.procs i).totalMappedRegion) :
    ¬ (regionAt s.mem (s.procs i).mappedInfo k).Covers (kernBase + pgSize) := by
  intro hc
  have hb := ((hK.space i hi).image k h3 hk).2
  unfold BelowStack at hb
  unfold MappedRegion.Covers inPages at hc
  simp only [userStackTop, pgSize, kernBase] at hb hc
  omega

/-- Fork by the running process. -/
theorem wp_forkSpace (hS : Sys cfg heap s own fl q c)
    (hE : freeSlot s = none → ∀ e s', E e s')
    (haside : Aside cfg s.hostFiles fl)
    (hroom : Room bad (3 * pagesUpTo s.mem (s.procs c).mappedInfo
      (s.procs c).totalMappedRegion + 13) fl) :
    Wp bad E (doFork cfg c) (fun _ s' => ∃ child own' fl',
      freeSlot s = some child ∧
      ForkOutcome cfg BelowStack c child (InUse s) heap q s own fl s' own' fl' ∧
      Sys cfg (Function.update heap child fun _ _ => False) s' own' fl'
        (q ++ [child]) c) s := by
  cases hslot : freeSlot s with
  | none =>
      unfold doFork allocProcess
      simp only [wp_bind, wp_get]
      rw [hslot]
      simp only [panic, wp_halt]
      exact hE hslot _ _
  | some child =>
      have hfree := freeSlot_status hslot
      have hoff := hS.running.free_slot hfree
      have hcc : c ≠ child := fun h => hoff (h ▸ List.mem_cons_self ..)
      have hcq : child ∉ q := fun h => hoff (List.mem_cons_of_mem _ h)
      apply (wp_forkProcess hS.inv hS.current hslot (fun h => h hfree)
        hS.running.queued.chain hcq _
        (fun _ k h3 hk => hS.inv.clear_stray hS.current h3 hk) haside hroom).mono
      · intro _ s' hres
        obtain ⟨own', fl', ho⟩ := hres
        refine ⟨child, own', fl', rfl, ho, ?_, ?_, ?_, ?_, ?_⟩
        · apply ho.inv.built_congr
          intro j
          unfold InUse
          rw [ho.status]
          by_cases hj : j = child
          · rw [if_pos hj]
            exact iff_of_true ProcStatus.noConfusion (Or.inr hj)
          · rw [if_neg hj]
            exact ⟨Or.inl, fun h => h.resolve_right hj⟩
        · exact hS.running.forked ho hcc
        · intro hmem
          rcases List.mem_append.mp hmem with h | h
          · exact hS.apart h
          · exact hcc (List.mem_singleton.mp h)
        · rw [ho.ufree]
          exact hS.aligned
        · rw [ho.ufree]
          exact hS.word
      · intro p hp k h3 hk
        apply hS.inv.clear hS.current _ h3 hk
        apply hS.inv.pages.pool.page
        exact List.mem_of_mem_head? hp

end Pke
