/-
Pages lost over the life of a process.

A child is forked into slot `x`, works, exits and is reaped, while
everybody else is at most scheduled (`Lived`). `life_cycle_leaks` says
that fewer pages are free afterwards than before.

# Why

No page that was in use before the fork becomes free: such a page is
neither free nor a page of slot `x` (`Kept`), and until the child is gone
only free pages and pages of slot `x` change hands (`Passes`). On the
other hand the page of the child's open files, free before, is out of
sight ever since `files_create` took it, and `do_wait` does not give it
back. (Nor the page tables below the root; one lost page is enough.)
-/
import Pke.Proofs.Plain

namespace Pke

open ByteMem Traced

variable {cfg : Config} {s s' s₁ s₂ s₃ : Kernel} {own own' : Nat → Owner}
variable {fl : List Nat} {c i x : Slot} {q : List Slot} {op : Op}
variable {heap heap' : Slot → Nat → Nat → Prop} {pid : Int}
variable {h mid : List (Entry Kernel Op)}

/-- A step in the life of child `x`: its own, except fork and wait, or
the scheduling of anybody. -/
def Op.InLife (x : Slot) (op : Op) (s : Kernel) : Prop :=
  (s.current = some x ∧ op ≠ .fork ∧ ∀ pid, op ≠ .wait pid) ∨
    op = .tick ∨ op = .yield

/-- Child `x` was forked in state `s`, lived until `s₂` while the others
did nothing, and was reaped by the wait that ended in `s₃`. -/
structure Lived (cfg : Config) (x : Slot) (h mid : List (Entry Kernel Op))
    (pid : Int) (s s₁ s₂ s₃ : Kernel) : Prop where
  run : KernelRun outOfPages cfg (Op.Tame cfg)
    (⟨.wait pid, s₂, s₃⟩ :: (mid ++ ⟨.fork, s, s₁⟩ :: h)) s₃
  slot : freeSlot s = some x
  life : ∀ e ∈ mid, e.op.InLife x e.pre
  zombie : (s₂.procs x).status = .zombie
  reaped : (s₃.procs x).status = .free

/-- Page `p` is in use, and not by slot `x`. -/
def Kept (x : Slot) (own : Nat → Owner) (p : Nat) : Prop :=
  own p ≠ .free ∧ (own p).tag ≠ some x.val

theorem Kept.passes {p : Nat} (hk : Kept x own p) (hp : Passes x own own') :
    Kept x own' p := by
  unfold Kept
  rw [hp.keep p hk.1 hk.2]
  exact hk

/-- A step in the life of the child does not touch such a page. -/
theorem SpaceStep.kept {p : Nat} (hst : SpaceStep cfg op c q heap s own fl
      heap' s' own') (hcur : s.current = some c) (hop : op.InLife x s)
    (hk : Kept x own p) : Kept x own' p := by
  rcases hop with ⟨hx, hfork, hwait⟩ | hidle
  · obtain rfl : c = x := Option.some.inj (hcur.symm.trans hx)
    exact hk.passes (hst.passes hfork hwait)
  · rw [hst.still hidle]
    exact hk

/-- Pages in use when the child is forked are kept, and so is the page
of its open files from then on. -/
theorem ForkOutcome.kept {fl' : List Nat} {a : Slot}
    (ho : ForkOutcome cfg BelowStack a x (InUse s) heap q s own fl
      s' own' fl')
    (hK : KInv cfg BelowStack s own fl (InUse s) heap) (hx : ¬ InUse s x)
    {p : Nat} (hp : own p ≠ .free ∨ p = (s'.procs x).pfiles) :
    Kept x own' p := by
  rcases hp with hused | rfl
  · unfold Kept
    rw [ho.spawned.keep p hused]
    refine ⟨shareCode_used a _ hused, ?_⟩
    rcases shareCode_cases a (codePage s a) own p with ⟨heq, _⟩ | ⟨heq, _⟩
    · rw [heq]
      exact nofun
    · rw [heq]
      exact hK.untagged hx p
  · unfold Kept
    rw [ho.files.2]
    exact ⟨Owner.noConfusion, nofun⟩

/-- Where no page became free and one stopped being so, fewer are
free. -/
theorem Heap.fewer {fl' : List Nat} {p₀ : Nat} (hh : Heap s own fl)
    (hh' : Heap s' own' fl') (hkeep : ∀ p, own p ≠ .free → own' p ≠ .free)
    (hp₀ : own p₀ = .free ∧ own' p₀ ≠ .free) : fl'.length < fl.length := by
  have hnew : p₀ ∉ fl' := fun hmem => hp₀.2 ((hh'.free p₀).mpr hmem)
  have hnodup : (p₀ :: fl').Nodup := List.nodup_cons.mpr ⟨hnew, hh'.pool.nodup⟩
  have hsub : p₀ :: fl' ⊆ fl := by
    intro p hp
    rw [← hh.free p]
    rcases List.mem_cons.mp hp with rfl | hmem
    · exact hp₀.1
    · by_contra hused
      exact hkeep p hused ((hh'.free p).mpr hmem)
  exact (List.subperm_of_subset hnodup hsub).length_le

/-- The machine in state `s` keeps the pages of `M`. -/
def Keeping (cfg : Config) (x : Slot) (M : Nat → Prop) (s : Kernel) : Prop :=
  ∃ heap own fl q c, Sys cfg heap s own fl q c ∧ ∀ p, M p → Kept x own p

/-- From the fork on, the pages that were in use and the page of the
child's open files are kept. -/
theorem Sys.forkKeeps {es : List Event} (hS : Sys cfg heap s own fl q c)
    (haside : FilesAside cfg s) (hslot : freeSlot s = some x)
    (hrun : step cfg .fork s = (es, .ok () s₁))
    (hclean : ∀ e ∈ es, ¬ (outOfPages e ∧ ¬ Op.Enough .fork s)) :
    Keeping cfg x (fun p => own p ≠ .free ∨ p = (s₁.procs x).pfiles) s₁ ∧
      own (s₁.procs x).pfiles = .free := by
  have hx : ¬ InUse s x := not_not.mpr (freeSlot_status hslot)
  have hroom := hS.room .fork
  unfold Op.pages at hroom
  rw [hS.running.current] at hroom
  have hwp : Wp (fun e => outOfPages e ∧ ¬ Op.Enough .fork s)
      (fun _ _ => True) (step cfg .fork) (fun _ s₁ => ∃ child own' fl',
      freeSlot s = some child ∧ ForkOutcome cfg BelowStack c child (InUse s)
        heap q s own fl s₁ own' fl' ∧ Sys cfg (Function.update heap child
        fun _ _ => False) s₁ own' fl' (q ++ [child]) c) s := by
    simp only [step, sysUserFork, wp_bind, wp_pure]
    refine wp_theCurrent hS.running.current ?_
    exact wp_forkSpace hS (fun _ _ _ => trivial)
      (haside fl hS.inv.pages.pool.chain) hroom
  obtain ⟨child, own₁, fl₁, hchild, ho, hS₁⟩ := hwp.of_run hrun hclean
  obtain rfl : child = x := Option.some.inj (hchild.symm.trans hslot)
  exact ⟨⟨_, own₁, fl₁, _, c, hS₁, fun p hp => ho.kept hS.inv hx hp⟩,
    ho.files.1⟩

/-- They are kept as long as the child lives. -/
theorem Keeping.life {M : Nat → Prop} {s₂ : Kernel}
    (hk : Keeping cfg x M s₁)
    (hrun : Run (fun op s e => outOfPages e ∧ ¬ op.Enough s)
      (fun op s => op.Tame cfg s ∧ op.InLife x s) (step cfg) s₁ mid s₂) :
    Keeping cfg x M s₂ := by
  refine hrun.invariant (I := fun _ s => Keeping cfg x M s) hk ?_
  intro _ s op hinv hop
  obtain ⟨heap, own', fl, q, c, hS, hkept⟩ := hinv
  refine (wp_stepSpace hS hop.1 (hS.room op)).mono fun _ s' hres => ?_
  obtain ⟨heap', own'', fl', q', c', hS', hst⟩ := hres
  exact ⟨heap', own'', fl', q', c', hS', fun p hp =>
    hst.kept hS.running.current hop.2 (hkept p hp)⟩

/-- The wait that reaps the child gives back pages of the child only. -/
theorem Keeping.reap {M : Nat → Prop} {es : List Event}
    (hk : Keeping cfg x M s₂)
    (hrun : step cfg (.wait pid) s₂ = (es, .ok () s₃))
    (hzombie : (s₂.procs x).status = .zombie)
    (hreaped : (s₃.procs x).status = .free) : Keeping cfg x M s₃ := by
  obtain ⟨heap, own, fl, q, c, hS, hkept⟩ := hk
  have hwp : Wp anyEvent (fun _ _ => True) (step cfg (.wait pid))
      (fun _ s₃ => s₃ = s₂ ∨ ∃ i own' fl',
        Reaped cfg heap c i s₂ own fl q s₃ own' fl') s₂ := by
    simp only [step, wp_bind, wp_pure]
    refine (wp_waitSpace hS).mono fun _ s' hres => ?_
    rcases hres with ⟨heq, _⟩ | ⟨i, own', fl', _, _, hr⟩
    · exact Or.inl heq
    · exact Or.inr ⟨i, own', fl', hr⟩
  rcases hwp.of_run hrun (fun _ _ => id) with heq | ⟨i, own', fl', hr⟩
  · rw [heq, hzombie] at hreaped
    cases hreaped
  · obtain rfl : x = i := by
      by_contra hne
      rw [procs_of_apart hr.touches.apart hne, hzombie] at hreaped
      cases hreaped
    exact ⟨heap, own', fl', q, c, hr.sys, fun p hp =>
      (hkept p hp).passes hr.touches.passes⟩

theorem Lived.leaks (hl : Lived cfg x h mid pid s s₁ s₂ s₃)
    (happ : Loadable cfg.app) : ∃ fl fl₃, FreeList s fl ∧ FreeList s₃ fl₃ ∧
      fl₃.length < fl.length := by
  obtain ⟨es, s₀, hboot, hclean, hrun⟩ := hl.run
  cases hrun with
  | step hpast _ hwait _ =>
  obtain ⟨s₁', hfork, hmid⟩ := hpast.split
  cases hfork with
  | step hpast haside hfork hclean' =>
  obtain ⟨heap, own, fl, q, c, hS⟩ :=
    KernelRun.sys ⟨es, s₀, hboot, hclean, hpast⟩ happ fun _ _ hop => hop
  obtain ⟨hk₁, hfiles⟩ := hS.forkKeeps haside hl.slot hfork hclean'
  have hk₂ := hk₁.life (hmid.mono (fun _ _ _ hb => hb)
    fun e he hop => ⟨hop, hl.life e he⟩)
  obtain ⟨_, own₃, fl₃, _, _, hS₃, hkept⟩ := hk₂.reap hwait hl.zombie hl.reaped
  exact ⟨fl, fl₃, hS.inv.pages.pool.chain, hS₃.inv.pages.pool.chain,
    hS.inv.pages.fewer hS₃.inv.pages (fun p hp => (hkept p (Or.inl hp)).1)
      ⟨hfiles, (hkept _ (Or.inr rfl)).1⟩⟩

/-- Whatever the child did, fewer pages are free after it was reaped than
before it was forked. -/
theorem life_cycle_leaks (happ : Loadable cfg.app)
    (hl : Lived cfg x h mid pid s s₁ s₂ s₃) : ∃ fl fl₃, FreeList s fl ∧
      FreeList s₃ fl₃ ∧ fl₃.length < fl.length := hl.leaks happ

/-- Slot 0 forks, the child runs and exits, slot 0 reaps it. -/
theorem tinyMachine_lived : ∃ s₀ s₁ s₂ s₃ s₄,
    Lived (tinyMachine 0x10000) 1 [] [⟨.exit, s₂, s₃⟩, ⟨.yield, s₁, s₂⟩] (-1)
      s₀ s₁ s₃ s₄ := by
  obtain ⟨s₀, hA₀, -⟩ := plainRun_boot tinyImage_low (by decide)
  obtain ⟨s₁, hA₁⟩ := PlainRun.fork (n := 31975) (x := 1) hA₀ (by decide)
    (by decide)
  obtain ⟨s₂, hA₂⟩ := hA₁.yield rfl
  obtain ⟨s₃, hA₃⟩ := hA₂.exit
  obtain ⟨s₄, hA₄⟩ := hA₃.wait 1 (by decide) (by decide)
  refine ⟨s₀, s₁, s₂, s₃, s₄, ?_, ?_, ?_, ?_, ?_⟩
  · exact hA₄.tame
  · exact hA₀.freeSlot.trans (by decide)
  · simp only [List.forall_mem_cons]
    exact ⟨Or.inl ⟨hA₂.current, nofun, nofun⟩, Or.inr (Or.inr rfl), nofun⟩
  · exact (hA₃.status 1).trans (by decide)
  · exact (hA₄.status 1).trans (by decide)

theorem life_cycle_leaks_one : ∃ s₀ s₁ s₂ s₃ s₄ fl fl₄,
    Lived (tinyMachine 0x10000) 1 [] [⟨.exit, s₂, s₃⟩, ⟨.yield, s₁, s₂⟩] (-1)
      s₀ s₁ s₃ s₄ ∧
    FreeList s₀ fl ∧ FreeList s₄ fl₄ ∧ fl₄.length < fl.length := by
  obtain ⟨s₀, s₁, s₂, s₃, s₄, hl⟩ := tinyMachine_lived
  obtain ⟨fl, fl₄, hfl, hfl₄, hlt⟩ :=
    life_cycle_leaks (smallMachine_recordable tinyImage_low).toLoadable hl
  exact ⟨s₀, s₁, s₂, s₃, s₄, fl, fl₄, hl, hfl, hfl₄, hlt⟩

/-- The shortest life already costs pages. -/
theorem shortest_life_leaks : ∃ s₀ s₁ s₂ s₃ s₄,
    Lived (tinyMachine 0x10000) 1 [] [⟨.exit, s₂, s₃⟩, ⟨.yield, s₁, s₂⟩] (-1)
      s₀ s₁ s₃ s₄ ∧
    ∀ fl fl₄, FreeList s₀ fl → FreeList s₄ fl₄ → fl₄.length ≠ fl.length := by
  obtain ⟨s₀, s₁, s₂, s₃, s₄, hl⟩ := tinyMachine_lived
  refine ⟨s₀, s₁, s₂, s₃, s₄, hl, fun fl fl₄ hfl hfl₄ => ?_⟩
  obtain ⟨gl, gl₄, hgl, hgl₄, hlt⟩ :=
    hl.leaks (smallMachine_recordable tinyImage_low).toLoadable
  rw [hfl.unique hgl, hfl₄.unique hgl₄]
  exact Nat.ne_of_lt hlt

end Pke
