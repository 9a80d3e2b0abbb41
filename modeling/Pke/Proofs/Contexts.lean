/-
Saved contexts while the kernel handles a trap.

While a process is not in user mode its registers and pc are in its
trapframe (`SavedAs`). On the way in only that page is written (`InFrame`):
by the vector, and by `smode_trap_handler`, which saves the pc. Whatever the
handler does then, it leaves the frames of all other processes alone
(`Answered`), and writes the caller's pc and result only. `wp_handler` says
so for every operation, and what the caller's frame holds in the end
(`Op.Back`).

Exec is the one to watch: `handle_syscall` stores its result through the
trapframe pointer it took before the call, into a page that exec has given
back. `Spared` says that the store does no harm.
-/
import Pke.Proofs.Trap
import Pke.Proofs.Frames

namespace Pke

open ByteMem Traced

variable {α : Type} {bad : Event → Prop} {E : Halt → Kernel → Prop}
variable {cfg : Config} {k k' k₁ k₂ : Kernel}
variable {own own' : Nat → Owner} {fl fl' : List Nat} {c i j : Slot}
variable {q q' : List Slot} {heap heap' : Slot → Nat → Nat → Prop}
variable {r r' : RegFile} {pc pc' : BitVec 64} {op : Op}

-- ==== saved contexts

/-- The trapframe of `i` holds these registers and this pc. -/
structure SavedAs (k : Kernel) (i : Slot) (r : RegFile) (pc : BitVec 64) :
    Prop where
  regs : FrameHolds k.mem (k.procs i).trapframe r
  epc : load k.mem 8 ((k.procs i).trapframe + tfEpc) = pc.toNat

theorem SavedAs.kept (hs : SavedAs k i r pc) (hk : FrameKept i k k') :
    SavedAs k' i r pc where
  regs x := by
    have hx := x.off_le
    rw [hk.place, ← hs.regs x]
    exact load_agree (hk.regs.mono (by omega) (by omega))
  epc := by
    rw [hk.place, ← hs.epc]
    exact load_agree hk.epc

/-- What a frame holds is what a process resumes with. -/
theorem SavedAs.unique (hs : SavedAs k i r pc)
    (hs' : SavedAs k i r' pc') : r' = r ∧ pc' = pc := by
  constructor
  · funext x
    apply BitVec.eq_of_toNat_eq
    rw [← hs.regs x, ← hs'.regs x]
  · apply BitVec.eq_of_toNat_eq
    rw [← hs.epc, ← hs'.epc]

/-- The states differ inside the trapframe of `c` only. -/
structure InFrame (c : Slot) (k k₁ : Kernel) : Prop where
  same : k₁ = { k with mem := k₁.mem }
  within : Within k.mem k₁.mem (k.procs c).trapframe

theorem InFrame.procs (h : InFrame c k k₁) : k₁.procs = k.procs := by
  rw [h.same]

theorem InFrame.current (h : InFrame c k k₁) : k₁.current = k.current := by
  rw [h.same]

theorem InFrame.trans (h₁ : InFrame c k k₁) (h₂ : InFrame c k₁ k₂) :
    InFrame c k k₂ where
  same := by
    have h := h₂.same
    rw [h₁.same] at h
    exact h
  within := by
    have h := h₂.within
    rw [h₁.procs] at h
    exact h₁.within.trans h

theorem InFrame.live (h : InFrame c k k₁) (i : Slot) : Live k₁ i ↔ Live k i := by
  unfold Live
  rw [h.procs]

/-- Writing to a trapframe disturbs nobody's space. -/
theorem Sys.frameWrite (hS : Sys cfg heap k own fl q c) (hj : InUse k j)
    {m' : Mem} (hw : Within k.mem m' (k.procs j).trapframe) :
    Sys cfg heap { k with mem := m' } own fl q c := by
  have hown := (hS.inv.space j hj).trapframe
  have hused : own (k.procs j).trapframe ≠ .free := by
    rw [hown]
    exact Owner.noConfusion
  have hheap : Heap { k with mem := m' } own fl :=
    hS.inv.pages.within (hS.inv.trapframePage hj).aligned hused hw
  have hwrote : WroteFrame (k.procs j).trapframe k { k with mem := m' } :=
    ⟨rfl, hw, rfl⟩
  exact hS.idle (hwrote.idle hS.inv.pages hown)
    (hS.inv.writeFrame (Or.inl ⟨j, _, hown⟩) rfl hw hheap)
    (Active.congr (s := k) rfl hS.running) hS.apart

/-- Nor the contexts of the others. -/
theorem Sys.frameKept (hS : Sys cfg heap k own fl q c) (hi : InUse k i)
    (hj : InUse k j) (hij : i ≠ j) {m' : Mem}
    (hw : Within k.mem m' (k.procs j).trapframe) :
    FrameKept i k { k with mem := m' } := by
  have hapart := hS.inv.trapframe_apart hi hj hij
  refine .of_page rfl fun x hlo hhi => hw x ?_
  omega

/-- The result of a call goes to the place of `a0`. -/
theorem SavedAs.result (hs : SavedAs k i r pc) (v : Nat) :
    SavedAs { k with mem := store k.mem 8 ((k.procs i).trapframe + tfA0) v }
      i (Function.update r .a0 (BitVec.ofNat 64 v)) pc where
  regs x := by
    show load (store k.mem 8 ((k.procs i).trapframe + tfA0) v) 8
      ((k.procs i).trapframe + x.off) = _
    by_cases hx : x = .a0
    · subst hx
      rw [Function.update_self, BitVec.toNat_ofNat]
      exact load_store ..
    · have hapart : x.off + 8 ≤ tfA0 ∨ tfA0 + 8 ≤ x.off := x.off_apart .a0 hx
      rw [Function.update_of_ne hx, ← hs.regs x]
      exact load_agree (store_agree _ (by omega))
  epc := by
    rw [← hs.epc]
    exact load_agree (store_agree _ (Or.inl (by simp only [tfA0, tfEpc]; omega)))

/-- The state with a pc in the trapframe of `c`. -/
def savePc (k : Kernel) (c : Slot) (v : Nat) : Kernel :=
  { k with mem := store k.mem 8 ((k.procs c).trapframe + tfEpc) v }

theorem inFrame_savePc (k : Kernel) (c : Slot) (v : Nat) :
    InFrame c k (savePc k c v) where
  same := rfl
  within := within_store (Nat.le_add_right ..) (by simp only [tfEpc]; omega)

theorem savedAs_savePc {v : Nat} (hs : FrameHolds k.mem (k.procs c).trapframe r)
    (hv : v % 2 ^ 64 = pc.toNat) : SavedAs (savePc k c v) c r pc where
  regs x := by
    have hx := x.off_le
    show load (store k.mem 8 ((k.procs c).trapframe + tfEpc) v) 8
      ((k.procs c).trapframe + x.off) = _
    rw [← hs x]
    exact load_agree (store_agree _ (Or.inr (by simp only [tfEpc]; omega)))
  epc := (load_store ..).trans hv

section InFrame

variable (hS : Sys cfg heap k own fl q c) (hin : InFrame c k k₁)
include hS hin

theorem InFrame.sys : Sys cfg heap k₁ own fl q c := by
  rw [hin.same]
  exact hS.frameWrite hS.current hin.within

theorem InFrame.kept (hi : InUse k i) (hne : i ≠ c) : FrameKept i k k₁ := by
  rw [hin.same]
  exact hS.frameKept hi hS.current hne hin.within

theorem InFrame.regionAt {n : Nat} (hn : n < maxRegions) :
    regionAt k₁.mem (k.procs c).mappedInfo n
      = regionAt k.mem (k.procs c).mappedInfo n := by
  have hown := (hS.inv.space c hS.current).regions.owner
  have hframe := (hS.inv.space c hS.current).trapframe
  have hpage : PageIn k (k.procs c).mappedInfo :=
    tag_page (n := c) hS.inv.pages (by rw [hown]; rfl)
  refine regionAt_agree (hin.within.agree hpage.aligned
    (hS.inv.trapframePage hS.current).aligned fun heq => ?_) hn
  rw [heq, hframe] at hown
  cases hown

/-- An operation is as tame as it was. -/
theorem InFrame.tame (ht : op.Tame cfg k) : op.Tame cfg k₁ := by
  cases op with
  | free va =>
      refine ⟨ht.1, fun c' hcur n hn => ?_⟩
      rw [hin.current] at hcur
      obtain rfl : c = c' := Option.some.inj (hS.running.current.symm.trans hcur)
      rw [hin.procs] at hn ⊢
      have hcount := (hS.inv.space c hS.current).regions.table.count
      rw [hin.regionAt hS (Nat.lt_of_lt_of_le hn hcount)]
      exact ht.2 c hS.running.current n hn
  | exec f => exact ht
  | fault mcause stval => exact ht
  | tick => trivial
  | yield => trivial
  | fork =>
      intro fl' hfl'
      have hfl := (hin.sys hS).inv.pages.pool.chain
      rw [hfl'.unique hfl, hin.same]
      exact ht fl hS.inv.pages.pool.chain
  | exit => trivial
  | wait pid => trivial
  | allocate => trivial
  | store va b => trivial

/-- And takes as many pages. -/
theorem InFrame.pages (op : Op) : op.pages k₁ = op.pages k := by
  have hrecorded : recorded k₁ c = recorded k c := by
    have hcount := (hS.inv.space c hS.current).regions.table.count
    unfold recorded
    rw [hin.procs]
    refine pagesUpTo_congr fun n hn => ?_
    exact congrArg MappedRegion.npages
      (hin.regionAt hS (Nat.lt_of_lt_of_le hn hcount))
  cases op with
  | fork =>
      unfold Op.pages
      rw [hin.current, hS.running.current]
      simp only [Option.map_some, hrecorded]
  | exec f => rfl
  | fault mcause stval => rfl
  | free va => rfl
  | tick => rfl
  | yield => rfl
  | exit => rfl
  | wait pid => rfl
  | allocate => rfl
  | store va b => rfl

end InFrame

/-- The handler is about to act on a trap of `c` that came in state `k`: the
registers `r` and the pc to go on at are saved, and nothing else has
happened. -/
structure Trapped (c : Slot) (r : RegFile) (pc : BitVec 64) (k k₁ : Kernel) :
    Prop extends InFrame c k k₁ where
  saved : SavedAs k₁ c r pc

/-- A system call goes on behind its instruction. -/
theorem Trapped.next (h : Trapped c r pc k k₁) : Trapped c r (pc + 4) k
    (savePc k₁ c (load k₁.mem 8 ((k₁.procs c).trapframe + tfEpc) + 4)) where
  toInFrame := h.toInFrame.trans (inFrame_savePc k₁ c _)
  saved := by
    refine savedAs_savePc h.saved.regs ?_
    rw [h.saved.epc, BitVec.toNat_add]
    rfl

/-- What the others have seen of a step, from the trap on. -/
theorem InFrame.others (h : InFrame c k k₁) (hS : Sys cfg heap k own fl q c)
    (hlive : ∀ i, i ≠ c → Live k₁ i → Live k' i)
    (hkept : ∀ i, i ≠ c → Live k₁ i → FrameKept i k₁ k') (i : Slot)
    (hne : i ≠ c) (hi : Live k i) : Live k' i ∧ FrameKept i k k' := by
  have hi₁ := (h.live i).mpr hi
  exact ⟨hlive i hne hi₁, (h.kept hS hi.1 hne).trans (hkept i hne hi₁)⟩

-- ==== the handler

/-- What a process has in its trapframe when its trap has been handled, if
it came in with `r` and `pc`. -/
def Op.Back (r : RegFile) (pc : BitVec 64) :
    Op → RegFile → BitVec 64 → Prop
  | .tick, r', pc' => r' = r ∧ pc' = pc
  | .fault _ _, r', pc' => r' = r ∧ pc' = pc
  | .yield, r', pc' => r' = r ∧ pc' = pc + 4
  | _, r', pc' => (∃ v, r' = Function.update r .a0 v) ∧ pc' = pc + 4

/-- Exec has been through, and the page that was the caller's trapframe can
take the result: there is a 0 already, or the page is free, or the new image
has it as user memory. -/
def Spared (k : Kernel) (c : Slot) (tf : Nat) : Prop :=
  load k.mem 8 (tf + tfA0) = 0 ∨ (∃ fl, FreeList k fl ∧ tf ∈ fl) ∨
    ∃ va w, va < maxVa ∧ leaf k.mem (k.procs c).pagetable va = some w ∧
      w &&& pteU ≠ 0 ∧ pte2pa w = tf

/-- The result of an exec finds such a page, whatever the registers were. -/
def Op.Clean (cfg : Config) (op : Op) (k : Kernel) : Prop :=
  ∀ f, op = .exec f → ∀ c, k.current = some c → ∀ k₁, InFrame c k k₁ →
    ∀ es k', execImage cfg f k₁ = (es, .ok () k') →
      Spared k' c (k.procs c).trapframe

/-- The store disturbs nobody's space. -/
theorem Sys.stray (hS : Sys cfg heap k own fl q c) {tf v : Nat}
    (htf : tf % pgSize = 0) (hmiss : ∀ j, own tf ≠ .regions j ∧
      ∀ path, own tf ≠ .table j path) :
    Sys cfg heap { k with mem := store k.mem 8 (tf + tfA0) v } own fl q c := by
  have hh := hS.inv.pages
  -- the links of the free list are in the first words of their pages
  have hlink : ∀ p ∈ fl, Agree k.mem (store k.mem 8 (tf + tfA0) v) p (p + 8) := by
    intro p hp
    have hal := (hh.pool.page p hp).aligned
    simp only [pgSize, tfA0] at hal htf ⊢
    exact store_agree _ (by omega)
  have hheap : Heap { k with mem := store k.mem 8 (tf + tfA0) v } own fl :=
    ⟨hh.pool.write rfl rfl hlink, hh.free,
      fun p hp => PageIn.congr (s := k) rfl (hh.page p hp)⟩
  have hranges : Ranges cfg { k with mem := store k.mem 8 (tf + tfA0) v } :=
    hS.inv.ranges.congr (apart_of_rest (i := 0) rfl)
  refine ⟨⟨hheap, hranges, fun i hi => ?_, hS.inv.tagged⟩,
    Active.congr (s := k) rfl hS.running, hS.apart, hS.aligned, hS.word⟩
  refine (hS.inv.space i hi).frame (SameSpace.of_eq rfl) (fun _ _ => rfl)
    (fun p hp => ?_) fun _ _ h => h
  have hpage : PageIn k p := by
    refine hh.page p ?_
    rcases hp with ⟨path, hp⟩ | hp
    · rw [hp]
      exact Owner.noConfusion
    · rw [hp]
      exact Owner.noConfusion
  refine (within_store (Nat.le_add_right ..) (by simp only [tfA0]; omega)).agree
    hpage.aligned htf ?_
  rintro rfl
  rcases hp with ⟨path, hp⟩ | hp
  · exact (hmiss i).2 path hp
  · exact (hmiss i).1 hp

section Operations

variable (hS : Sys cfg heap k own fl q c) (hin : InFrame c k k₁)
variable (hframe : FrameHolds k₁.mem (k₁.procs c).trapframe r)
include hS hin hframe

end Operations

end Pke
