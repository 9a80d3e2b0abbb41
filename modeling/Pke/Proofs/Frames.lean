/-
Saved contexts survive kernel steps.

While a process waits, its registers and pc are bytes in its trapframe.
`FrameKept` says that a step left them alone. Three things can write to
a trapframe at all: the vector that saves into it, `handle_syscall`
through the trapframe of the caller, and `switch_to`, which writes the
three fields between and behind them (`Switched`). Everything else that
runs in the kernel writes pages of other owners.

The argument is one of ownership: trapframes are frames of their
processes (`Space.trapframe`), and each step's lemma of Steps.lean says
which pages it left alone. Exec gives the caller's own trapframe back; it
leaves those of all others alone.
-/
import Pke.Proofs.Lifecycle

namespace Pke

open ByteMem Traced

variable {bad : Event → Prop} {E : Halt → Kernel → Prop}
variable {cfg : Config} {P : MappedRegion → Prop}
variable {s s' s₁ s₂ : Kernel} {own own' : Nat → Owner} {fl fl' : List Nat}
variable {c h i j : Slot} {q q' : List Slot} {built : Slot → Prop}
variable {heap heap' : Slot → Nat → Nat → Prop} {op : Op}

/-- The registers and the pc saved in the trapframe of `i` are as they
were. -/
structure FrameKept (i : Slot) (s s' : Kernel) : Prop where
  place : (s'.procs i).trapframe = (s.procs i).trapframe
  regs : Agree s.mem s'.mem (s.procs i).trapframe
    ((s.procs i).trapframe + 248)
  epc : Agree s.mem s'.mem ((s.procs i).trapframe + tfEpc)
    ((s.procs i).trapframe + tfEpc + 8)

theorem FrameKept.refl (i : Slot) (s : Kernel) : FrameKept i s s :=
  ⟨rfl, Agree.refl _ _ _, Agree.refl _ _ _⟩

theorem FrameKept.trans (h₁ : FrameKept i s s₁) (h₂ : FrameKept i s₁ s₂) :
    FrameKept i s s₂ where
  place := h₂.place.trans h₁.place
  regs := by
    have := h₂.regs
    rw [h₁.place] at this
    exact h₁.regs.trans this
  epc := by
    have := h₂.epc
    rw [h₁.place] at this
    exact h₁.epc.trans this

/-- The whole page is as it was. -/
theorem FrameKept.of_page
    (hplace : (s'.procs i).trapframe = (s.procs i).trapframe)
    (hag : Agree s.mem s'.mem (s.procs i).trapframe
      ((s.procs i).trapframe + 4096)) : FrameKept i s s' where
  place := hplace
  regs := hag.mono (Nat.le_refl _) (by omega)
  epc := hag.mono (by omega) (by simp only [tfEpc]; omega)

/-- The trapframe is a page of the pool, and nobody's but the
process's. -/
theorem KInv.trapframePage (hK : KInv cfg P s own fl built heap)
    (hi : built i) : PageIn s (s.procs i).trapframe := by
  refine hK.pages.page _ ?_
  rw [(hK.space i hi).trapframe]
  exact Owner.noConfusion

theorem KInv.trapframe_apart (hK : KInv cfg P s own fl built heap)
    (hi : built i) (hj : built j) (hij : i ≠ j) :
    (s.procs i).trapframe + 4096 ≤ (s.procs j).trapframe ∨
      (s.procs j).trapframe + 4096 ≤ (s.procs i).trapframe := by
  have hne : (s.procs i).trapframe ≠ (s.procs j).trapframe := by
    intro heq
    have hown := (hK.space i hi).trapframe
    rw [heq, (hK.space j hj).trapframe] at hown
    injection hown with hslot
    exact hij (Fin.ext hslot.symm)
  have hali := (hK.trapframePage hi).aligned
  have halj := (hK.trapframePage hj).aligned
  simp only [pgSize] at hali halj
  omega

/-- A write for user mode does not reach a trapframe. -/
theorem KInv.user_frame_ne (hK : KInv cfg P s own fl built heap)
    (hi : built i) (hj : built j) {va w : Nat} (hva : va < maxVa)
    (hw : leaf s.mem (s.procs j).pagetable va = some w)
    (hu : w &&& pteU ≠ 0) : (s.procs i).trapframe ≠ pte2pa w := by
  have hva' : va < 2 ^ 39 := Nat.lt_trans hva (by decide)
  obtain ⟨w', hleaf, hpa, hno, hown⟩ := (hK.space i hi).contextLeaf
  intro heq
  rcases (hK.space j hj).userFrame hva' hw hu with hfr | hcode
  · rw [← heq, hown] at hfr
    injection hfr with hslot hpage
    obtain rfl : i = j := Fin.ext hslot
    have htf : (s.procs i).trapframe < 2 ^ 39 := by
      have hhi := (hK.trapframePage hi).hi
      have hstop := hK.ranges.stop
      simp only [physTop, dramBase, pkeMaxAllowableRam] at hstop
      omega
    rw [leaf_page htf hva' hpage.symm, hleaf] at hw
    obtain rfl := Option.some.inj hw
    exact hu hno
  · rw [← heq, hown] at hcode
    cases hcode

-- ==== switching

/-- `switch_to` left for process `h`: the fields the next trap needs are
in its trapframe, and the pc it continues at is the saved one. -/
structure Switched (cfg : Config) (h : Slot) (s s' : Kernel) : Prop where
  fixed : ∀ i, (s'.procs i).fixed = (s.procs i).fixed
  current : s'.current = some h
  mem : ∃ v v', s'.mem = store (store (store s.mem
    8 ((s.procs h).trapframe + tfKernelSp) v)
    8 ((s.procs h).trapframe + tfKernelSatp) v')
    8 ((s.procs h).trapframe + tfKernelTrap) cfg.smodeTrapHandler
  sepc : s'.csr.sepc = load s'.mem 8 ((s.procs h).trapframe + tfEpc)

theorem Switched.trapframe (hsw : Switched cfg h s s') (i : Slot) :
    (s'.procs i).trapframe = (s.procs i).trapframe :=
  (SameSpace.of_fixed (hsw.fixed i)).trapframe

/-- The three stores miss the saved context. -/
theorem Switched.agree (hsw : Switched cfg h s s') {lo hi : Nat}
    (hout : hi ≤ (s.procs h).trapframe + tfKernelSp ∨
      (s.procs h).trapframe + tfKernelSatp + 8 ≤ lo ∨
      ((s.procs h).trapframe + tfEpc ≤ lo ∧
        hi ≤ (s.procs h).trapframe + tfEpc + 8)) :
    Agree s.mem s'.mem lo hi := by
  obtain ⟨v, v', hm⟩ := hsw.mem
  rw [hm]
  simp only [tfKernelSp, tfKernelSatp, tfKernelTrap, tfEpc] at hout ⊢
  exact ((store_agree _ (by omega)).trans (store_agree _ (by omega))).trans
    (store_agree _ (by omega))

theorem Switched.kept (hsw : Switched cfg h s s')
    (hK : KInv cfg P s own fl built heap) (hh : built h) (hi : built i) :
    FrameKept i s s' := by
  by_cases hih : i = h
  · subst hih
    refine ⟨hsw.trapframe i, hsw.agree (Or.inl (Nat.le_refl _)),
      hsw.agree (Or.inr (Or.inr ⟨Nat.le_refl _, Nat.le_refl _⟩))⟩
  · have hapart := hK.trapframe_apart hi hh hih
    refine .of_page (hsw.trapframe i) (hsw.agree ?_)
    simp only [tfKernelSp, tfKernelSatp]
    omega

/-- The next trap of the process will find the handler. -/
theorem Switched.handler (hsw : Switched cfg h s s') :
    load s'.mem 8 ((s'.procs h).trapframe + tfKernelTrap)
      = cfg.smodeTrapHandler % 256 ^ 8 := by
  obtain ⟨v, v', hm⟩ := hsw.mem
  rw [hsw.trapframe, hm, load_store]

/-- Work on slot `j` leaves the contexts of the others alone. -/
theorem Touches.kept (ht : Touches j s own s' own')
    (hS : Sys cfg heap s own fl q c) (hne : i ≠ j) (hi : InUse s i) :
    FrameKept i s s' := by
  have hown := (hS.inv.space i hi).trapframe
  refine .of_page (by rw [procs_of_apart ht.apart hne]) ?_
  refine ht.agree _ (hS.inv.trapframePage hi).aligned ?_ ?_
  · rw [hown]
    exact Owner.noConfusion
  · rw [hown]
    exact fun htag => hne (Fin.ext (Option.some.inj htag))

theorem NewPage.kept {va pa : Nat} (hnew : NewPage c va pa s own s')
    (hS : Sys cfg heap s own fl q c) (hi : InUse s i) : FrameKept i s s' := by
  have hpage := hS.inv.trapframePage hi
  have hown := (hS.inv.space i hi).trapframe
  refine .of_page (by rw [hnew.procs]) (hnew.agree _ hpage.aligned
    (Or.inl ?_) fun path => ?_)
  · rw [hown]
    exact Owner.noConfusion
  · rw [hown]
    exact Owner.noConfusion

theorem FreedHeap.kept {va w : Nat}
    (hf : FreedHeap cfg heap c va w q s own fl s' own')
    (hS : Sys cfg heap s own fl q c) (hi : InUse s i) : FrameKept i s s' := by
  have hpage := hS.inv.trapframePage hi
  refine .of_page (by rw [hf.procs]) (hf.agree _ hpage.aligned ?_ fun path => ?_)
  · exact hS.inv.user_frame_ne hi hS.current hf.below hf.mapped hf.user.1
  · rw [(hS.inv.space i hi).trapframe]
    exact Owner.noConfusion

/-- A user store reaches no trapframe. -/
theorem Stored.frame {va : Nat} {b : UInt8} (hst : Stored s s' c va b)
    (hS : Sys cfg heap s own fl q c) (hi : InUse s i) : s'.procs = s.procs ∧
      Agree s.mem s'.mem (s.procs i).trapframe
        ((s.procs i).trapframe + 4096) := by
  rcases hst with rfl | ⟨w, hva, hw, hu, -, rfl⟩
  · exact ⟨rfl, Agree.refl _ _ _⟩
  · have hne := hS.inv.user_frame_ne hi hS.current hva hw hu
    exact ⟨rfl, (within_byte s.mem w va b.toNat).agree
      (hS.inv.trapframePage hi).aligned (pte2pa_aligned w) hne⟩

theorem Stored.kept {va : Nat} {b : UInt8} (hst : Stored s s' c va b)
    (hS : Sys cfg heap s own fl q c) (hi : InUse s i) : FrameKept i s s' := by
  obtain ⟨hprocs, hag⟩ := hst.frame hS hi
  exact .of_page (by rw [hprocs]) hag

end Pke
