/-
Runs of the kernel from power-on.

`KernelRun bad cfg C h s` says that the machine booted and then made the
steps of the history `h`, each of which met the guard `C` in the state it
was taken in and returned. Two invariants hold over all of them:

- the scheduler's (`Ordered`), over every run: somebody runs, the queue
  is in order, pids are slot numbers, and slot 0 has no parent;
- the memory side's (`Sys`, Steps.lean), over runs without a failed
  allocation whose steps are `Tame`: images stay below the stack,
  `sys_user_free_page` is not called on a page the region table records,
  and a fork stores the number of files where it does no harm
  (`FilesAside`, after `Aside` in Found.lean).

`wp_stepSpace` says once what a tame step can do to the owners of pages
and to the unrecorded pages.

# The number of files

No operation but exec opens a host file, and none closes one, so after
every run the number is the four of boot and one for each exec
(`KernelRun.files`). With the order of the free list that decides whether
a fork is tame.
-/
import Pke.Lib.Run
import Pke.Proofs.Boot

namespace Pke

open ByteMem Traced

variable {bad bad' : Event → Prop} {E : Halt → Kernel → Prop}
variable {cfg : Config} {C D : Op → Kernel → Prop}
variable {s s' : Kernel} {own own' : Nat → Owner}
variable {fl fl' : List Nat} {c i : Slot} {q : List Slot}
variable {heap heap' : Slot → Nat → Nat → Prop}
variable {h : List (Entry Kernel Op)} {op : Op}

-- ==== runs

/-- No guard. -/
abbrev anyOp : Op → Kernel → Prop := fun _ _ => True

/-- No event is bad. -/
abbrev anyEvent : Event → Prop := fun _ => False

/-- The allocator returned NULL. -/
abbrev outOfPages : Event → Prop := fun e => e = .alloc 0

/-- The pages a process records. -/
def recorded (s : Kernel) (i : Slot) : Nat :=
  pagesUpTo s.mem (s.procs i).mappedInfo (s.procs i).totalMappedRegion

/-- Free pages that are enough for an operation: three for each page or
segment it maps, and those of a process. -/
def Op.pages (s : Kernel) : Op → Nat
  | .fork => (s.current.map fun c => 3 * recorded s c + 13).getD 0
  | .exec f => 3 * (segments f).length + 10
  | .allocate => 4
  | .fault _ _ => 4
  | _ => 0

def Op.Enough (op : Op) (s : Kernel) : Prop :=
  ∃ fl, FreeList s fl ∧ op.pages s ≤ fl.length

/-- Boot returned, and then every step of the history did. No event was
bad; that pages did not run out may also be known from the number of
pages there were. -/
def KernelRun (bad : Event → Prop) (cfg : Config) (C : Op → Kernel → Prop)
    (h : List (Entry Kernel Op)) (s : Kernel) : Prop :=
  ∃ es s₀, sStart cfg cfg.init = (es, .ok () s₀) ∧
    ((∀ e ∈ es, ¬ bad e) ∨ bootPages cfg ≤ cfg.pool.length) ∧
    Run (fun op s e => bad e ∧ ¬ op.Enough s) C (step cfg) s₀ h s

theorem KernelRun.invariant {I : List (Entry Kernel Op) → Kernel → Prop}
    (hrun : KernelRun bad cfg C h s)
    (hboot : ∀ b : Event → Prop, b = bad ∨ bootPages cfg ≤ cfg.pool.length →
      Wp b (fun _ _ => True) (sStart cfg) (fun _ s₀ => I [] s₀) cfg.init)
    (hstep : ∀ h s op, I h s → C op s →
      Wp (fun e => bad e ∧ ¬ op.Enough s) (fun _ _ => True) (step cfg op)
        (fun _ s' => I (⟨op, s, s'⟩ :: h) s') s) : I h s := by
  obtain ⟨es, s₀, hs, hclean, hrun⟩ := hrun
  refine hrun.invariant ?_ hstep
  rcases hclean with hclean | hpool
  · exact (hboot bad (Or.inl rfl)).of_run hs hclean
  · exact (hboot anyEvent (Or.inr hpool)).of_run hs fun _ _ => id

theorem KernelRun.mono (hrun : KernelRun bad cfg C h s)
    (hbad : ∀ e, bad' e → bad e)
    (hC : ∀ e ∈ h, C e.op e.pre → D e.op e.pre) :
    KernelRun bad' cfg D h s := by
  obtain ⟨es, s₀, hs, hclean, hrun⟩ := hrun
  exact ⟨es, s₀, hs,
    hclean.imp_left fun hclean e he hb => hclean e he (hbad e hb),
    hrun.mono (fun _ _ e hb => ⟨hbad e hb.1, hb.2⟩) hC⟩

/-- A machine that boots is a run without steps. -/
theorem KernelRun.boot {Q : Unit → Kernel → Prop}
    (hret : Returns (sStart cfg) Q cfg.init)
    (hpool : bootPages cfg ≤ cfg.pool.length) :
    ∃ s₀, KernelRun bad cfg C [] s₀ ∧ Q () s₀ := by
  obtain ⟨es, _, s₀, hs, hQ⟩ := hret.elim
  exact ⟨s₀, ⟨es, s₀, hs, Or.inr hpool, .start⟩, hQ⟩

/-- A run goes on with any step that returns and has pages enough. -/
theorem KernelRun.extend {Q : Unit → Kernel → Prop}
    (hrun : KernelRun bad cfg C h s) (hC : C op s) (hpages : op.Enough s)
    (hret : Returns (step cfg op) Q s) :
    ∃ s', KernelRun bad cfg C (⟨op, s, s'⟩ :: h) s' ∧ Q () s' := by
  obtain ⟨es, s₀, hs, hclean, hrun⟩ := hrun
  obtain ⟨s', hrun', hQ⟩ := hrun.extend hC (fun _ hb => hb.2 hpages) hret
  exact ⟨s', ⟨es, s₀, hs, hclean, hrun'⟩, hQ⟩

/-- The same for a run given by its operations. -/
theorem wp_runKeeps {I : Kernel → Prop}
    (hboot : Wp bad E (sStart cfg) (fun _ s => I s) cfg.init)
    (hstep : ∀ s op, I s → Wp bad E (step cfg op) (fun _ s' => I s') s)
    (ops : List Op) : Wp bad E (run cfg ops) (fun _ s => I s) cfg.init := by
  unfold run
  rw [wp_bind]
  refine hboot.mono fun _ s hI => ?_
  exact wp_forM (fun _ s => I s) hI fun _ op _ _ s hI => hstep s op hI

-- ==== the scheduler

/-- User code of `c` runs, `q` waits; pids are slot numbers, and slot 0
is in use and nobody's child. -/
structure Ordered (s : Kernel) (q : List Slot) (c : Slot) : Prop where
  running : Running s q c
  distinct : (c :: q).Nodup
  pid : ∀ i, (s.row i).pid = i
  root : (s.row 0).parent = none ∧ (s.row 0).status ≠ .free

theorem Ordered.apart (ho : Ordered s q c) : c ∉ q :=
  (List.nodup_cons.mp ho.distinct).1

/-- One row changed, and it kept its pid. -/
theorem Ordered.rowsUpdate {x : Slot} {r : Row} (ho : Ordered s q c)
    (hrow : s'.row = Function.update s.row x r) (hpid : r.pid = (s.row x).pid)
    (hroot : x = 0 → r.parent = none ∧ r.status ≠ .free) :
    (∀ i, (s'.row i).pid = i) ∧
      (s'.row 0).parent = none ∧ (s'.row 0).status ≠ .free := by
  refine ⟨fun i => ?_, ?_⟩
  · rw [hrow]
    by_cases hi : i = x
    · rw [hi, Function.update_self, hpid, ho.pid]
    · rw [Function.update_of_ne hi, ho.pid]
  · rw [hrow]
    by_cases hx : 0 = x
    · rw [hx, Function.update_self]
      exact hroot hx.symm
    · rw [Function.update_of_ne hx]
      exact ho.root

/-- Every step keeps the scheduler's invariant. -/
theorem Stepped.ordered {a : RoundRobin.Act Slot} {q' : List Slot}
    {c' : Slot} (hst : Stepped op q c s s' a q' c') (ho : Ordered s q c) :
    Ordered s' q' c' := by
  have hdistinct : (c' :: q').Nodup := hst.queue.distinct ho.distinct
  suffices hrows : (∀ i, (s'.row i).pid = i) ∧
      (s'.row 0).parent = none ∧ (s'.row 0).status ≠ .free from
    ⟨hst.running, hdistinct, hrows.1, hrows.2⟩
  have hsame : s'.row = s.row → (∀ i, (s'.row i).pid = i) ∧
      (s'.row 0).parent = none ∧ (s'.row 0).status ≠ .free := by
    intro hrow
    rw [hrow]
    exact ⟨ho.pid, ho.root⟩
  have hrow := hst.rows
  cases op with
  | tick => exact ho.rowsUpdate hrow rfl fun hx => by rw [hx]; exact ho.root
  | yield => exact hsame hrow
  | fork =>
      obtain ⟨x, hx, hrow⟩ := hrow
      refine ho.rowsUpdate hrow rfl fun h0 => ?_
      -- slot 0 is in use, so it is never handed out
      have hfree : (s.row x).status = .free := freeSlot_status hx
      rw [h0] at hfree
      exact absurd hfree ho.root.2
  | exit =>
      refine ho.rowsUpdate hrow rfl fun hx => ⟨?_, by simp⟩
      rw [hx]
      exact ho.root.1
  | wait pid =>
      rcases hrow with ⟨hrow, _⟩ | ⟨x, hx, hrow⟩
      · exact hsame hrow
      · refine ho.rowsUpdate hrow rfl fun h0 => ?_
        -- slot 0 has no parent, so it is never reaped
        have hparent := hx.1.1
        rw [h0, ho.root.1] at hparent
        cases hparent
  | exec image => exact ho.rowsUpdate hrow rfl fun hx => by rw [hx]; exact ho.root
  | allocate => exact hsame hrow
  | free va => exact hsame hrow
  | fault mcause stval => exact hsame hrow
  | store va b => exact hsame hrow

theorem bootRow_ordered (hr : Running s [] 0)
    (hrow : ∀ i, { s.row i with ticks := 0 } = bootRow i) :
    Ordered s [] 0 where
  running := hr
  distinct := List.nodup_singleton 0
  pid i := congrArg Row.pid (hrow i)
  root := by
    refine ⟨congrArg Row.parent (hrow 0), ?_⟩
    have hst : (s.row 0).status = (bootRow 0).status :=
      (congrArg Row.status (hrow 0) :)
    rw [hst]
    simp [bootRow]

/-- A step of an ordered machine, in a calculus that tolerates halts. -/
theorem Ordered.step (ho : Ordered s q c) (op : Op) :
    Wp bad (fun _ _ => True) (step cfg op)
      (fun _ s' => ∃ a q' c', Stepped op q c s s' a q' c' ∧
        Ordered s' q' c') s := by
  refine ((wp_step cfg op ho.running ho.apart).mono_halt
    fun _ _ _ => trivial).mono fun _ s' hres => ?_
  obtain ⟨a, q', c', hst⟩ := hres
  exact ⟨a, q', c', hst, hst.ordered ho⟩

theorem ordered_boot :
    Wp bad (fun _ _ => True) (sStart cfg) (fun _ s' => Ordered s' [] 0 ∧
      (s'.row 0).ticks = 0 ∧
      ∀ i, { s'.row i with ticks := 0 } = bootRow i) cfg.init := by
  refine ((wp_sStart cfg).mono_halt fun _ _ _ => trivial).mono ?_
  intro _ s' hres
  exact ⟨bootRow_ordered hres.1 hres.2.2, hres.2⟩

/-- The scheduler's invariant holds after every run. -/
theorem KernelRun.ordered (hrun : KernelRun bad cfg C h s) :
    ∃ q c, Ordered s q c := by
  refine hrun.invariant (I := fun _ s => ∃ q c, Ordered s q c) ?_ ?_
  · exact fun _ _ => ordered_boot.mono fun _ s' hres => ⟨[], 0, hres.1⟩
  · intro h s op hinv _
    obtain ⟨q, c, ho⟩ := hinv
    refine (ho.step op).mono fun _ s' hres => ?_
    obtain ⟨a, q', c', _, ho'⟩ := hres
    exact ⟨q', c', ho'⟩

-- ==== the number of host files

/-- A program that opens no host file. -/
abbrev OpensNone {α : Type} (m : K α) : Prop :=
  Keeps (fun _ => True) Kernel.hostFiles m

theorem Leaves.opensNone {α : Type} {m : K α} (h : Leaves Kernel.hostFiles m) :
    OpensNone m := h.weaken fun _ _ => trivial

theorem opensNone_theCurrent : OpensNone theCurrent := by
  refine keeps_bind keeps_get fun s => ?_
  cases s.current with
  | none => exact keeps_halt trivial
  | some c => exact keeps_pure c

/-- An exec. -/
def Op.loads : Op → Bool
  | .exec _ => true
  | _ => false

theorem opensNone_allocProcess (cfg : Config) : OpensNone (allocProcess cfg) := by
  refine keeps_bind keeps_get fun s => ?_
  cases freeSlot s with
  | none => exact keeps_halt trivial
  | some i =>
      exact keeps_bind (leaves_buildProcess hostFiles_blind cfg
        (hostFiles_account i)).opensNone fun _ => keeps_pure _

theorem opensNone_doFork (cfg : Config) (a : Slot) : OpensNone (doFork cfg a) := by
  refine keeps_bind (opensNone_allocProcess cfg) fun child => ?_
  refine keeps_bind (keeps_proc a) fun _ => keeps_bind (keeps_forM fun k => ?_) fun _ => ?_
  · exact keeps_bind (leaves_getRegion ..).opensNone fun r =>
      (leaves_forkRegion hostFiles_blind a child r).opensNone
  refine keeps_bind (keeps_modify fun _ => rfl) fun _ => ?_
  refine keeps_bind (keeps_proc child) fun _ => ?_
  refine keeps_bind (keeps_modify fun _ => rfl) fun _ => ?_
  refine keeps_bind (keeps_modify fun _ => rfl) fun _ => ?_
  refine keeps_bind (keeps_modify fun _ => rfl) fun _ => ?_
  exact keeps_bind (keeps_insertToReadyQueue hostFiles_queue child) fun _ => keeps_pure _

theorem opensNone_waitLoop (cur : Slot) (pid : Int) (xs : List Slot) (kids : Bool) :
    OpensNone (waitLoop cur pid xs kids) := by
  induction xs generalizing kids with
  | nil => exact keeps_pure _
  | cons x xs ih =>
      refine keeps_bind (keeps_proc x) fun p => ?_
      refine keeps_ite (ih _) (keeps_ite (ih _) (keeps_ite ?_ (ih _)))
      refine keeps_bind (keeps_bind ?_ fun _ => ?_) fun _ => keeps_pure _
      · exact (leaves_releasePages hostFiles_blind x).opensNone
      · exact keeps_bind (keeps_modify fun _ => rfl) fun _ => keeps_modify fun _ => rfl

/-- Only exec opens a host file. -/
theorem opensNone_step (cfg : Config) (hop : op.loads = false) :
    OpensNone (step cfg op) := by
  have hcur := opensNone_theCurrent
  have hsched := keeps_schedule hostFiles_switch cfg
  have hinsert := keeps_insertToReadyQueue hostFiles_queue
  have hmap := fun a b d e g => (leaves_userVmMap hostFiles_blind a b d e g).opensNone
  have halloc := (leaves_allocPage hostFiles_blind).opensNone
  cases op with
  | tick =>
      refine keeps_bind (keeps_modify fun _ => rfl) fun _ => keeps_bind hcur fun c => ?_
      refine keeps_bind (keeps_modify fun _ => rfl) fun _ => ?_
      refine keeps_bind (keeps_modify fun _ => rfl) fun _ => keeps_bind keeps_get fun _ => ?_
      refine keeps_ite ?_ (keeps_pure _)
      refine keeps_bind (keeps_modify fun _ => rfl) fun _ => ?_
      exact keeps_bind (hinsert c) fun _ => hsched
  | yield =>
      exact keeps_bind hcur fun c => keeps_bind (hinsert c) fun _ => hsched
  | fork =>
      refine keeps_bind (keeps_bind hcur fun c => ?_) fun _ => keeps_pure _
      exact opensNone_doFork cfg c
  | exit =>
      exact keeps_bind hcur fun c => keeps_bind (keeps_modify fun _ => rfl) fun _ => hsched
  | wait pid =>
      refine keeps_bind (keeps_bind hcur fun c => ?_) fun _ => keeps_pure _
      exact opensNone_waitLoop c pid _ _
  | exec image => cases hop
  | allocate =>
      refine keeps_bind (keeps_bind halloc fun _ => keeps_bind keeps_get fun _ => ?_)
        fun _ => keeps_pure _
      refine keeps_bind (keeps_modify fun _ => rfl) fun _ => keeps_bind hcur fun c => ?_
      exact keeps_bind (keeps_proc c) fun _ => keeps_bind (hmap ..) fun _ => keeps_pure _
  | free va =>
      refine keeps_bind (keeps_bind hcur fun c => keeps_bind (keeps_proc c) fun _ => ?_)
        fun _ => keeps_pure _
      exact keeps_bind (leaves_userVmUnmap hostFiles_blind ..).opensNone
        fun _ => keeps_pure _
  | fault mcause stval =>
      refine keeps_ite (keeps_bind halloc fun _ => keeps_bind hcur fun c => ?_) (keeps_pure _)
      exact keeps_bind (keeps_proc c) fun _ => hmap ..
  | store va b =>
      refine keeps_bind hcur fun c => keeps_bind (keeps_proc c) fun p => ?_
      refine keeps_ite (keeps_pure _) ?_
      refine keeps_bind (leaves_pageWalk hostFiles_blind ..).opensNone fun _ => ?_
      refine keeps_ite (keeps_pure _) (keeps_bind (leaves_ld _).opensNone fun _ => ?_)
      exact keeps_ite (keeps_modify fun _ => rfl) (keeps_pure _)

/-- `exec` opens one. -/
theorem wp_exec_files {image : HostFile} (hE : ∀ e s', E e s') :
    Wp bad E (step cfg (.exec image))
      (fun _ s' => (s'.hostFiles : Nat) = s.hostFiles + 1) s := by
  simp only [step, execImage, loadBincode, wp_bind]
  refine opensNone_theCurrent.wp_self (fun _ _ _ _ => hE _ _) fun c s₁ h₁ => ?_
  refine (leaves_reallocProcess hostFiles_blind cfg (hostFiles_account c)).wp_self
    (fun _ _ _ _ => hE _ _) fun _ s₂ h₂ => ?_
  refine wp_openImage (Or.inr hE) fun n hn => ?_
  refine (leaves_loadImage hostFiles_blind image c).wp_self
    (fun _ _ _ _ => hE _ _) fun _ s₃ h₃ => ?_
  rw [h₃, ← h₁, ← h₂]
  exact hn

/-- Boot opens the application. -/
theorem wp_boot_files (hE : ∀ e s', E e s') :
    Wp bad E (sStart cfg) (fun _ s' => (s'.hostFiles : Nat) = 4) cfg.init := by
  have hE' : ∀ (P : Halt → Prop) (s : Kernel) (e : Halt) (s' : Kernel), P e →
      s'.hostFiles = s.hostFiles → E e s' := fun _ _ _ _ _ _ => hE _ _
  have hb := hostFiles_boot
  simp only [sStart, loadUserProgram, loadBincode, wp_bind, wp_modify, initProcPool]
  refine (leaves_pmmInit hb _).wp_self (hE' _ _) fun _ s₁ h₁ => ?_
  refine (leaves_kernVmInit hb _).wp_self (hE' _ _) fun _ s₂ h₂ => ?_
  refine (leaves_fsInit hb).wp_self (hE' _ _) fun _ s₃ h₃ => ?_
  refine (opensNone_allocProcess cfg).wp_self (hE' _ _) fun i s₄ h₄ => ?_
  refine wp_openImage (Or.inr hE) fun n hn => ?_
  refine (leaves_loadImage hostFiles_blind _ i).wp_self (hE' _ _) fun _ s₅ h₅ => ?_
  rw [wp_pure]
  refine (keeps_insertToReadyQueue hostFiles_queue i).wp_self (hE' _ _)
    fun _ s₆ h₆ => ?_
  refine (keeps_schedule hostFiles_switch cfg).wp_self (hE' _ _) fun _ s₇ h₇ => ?_
  have h3 : (s₄.hostFiles : Nat) = 3 := by
    rw [h₄, h₃]
    exact congrArg Fin.val (h₂.trans h₁)
  rw [h₇, h₆, h₅]
  exact hn.trans (congrArg (· + 1) h3)

/-- The four host files of boot, and one for each exec. -/
theorem KernelRun.files (hrun : KernelRun bad cfg C h s) :
    (s.hostFiles : Nat) = 4 + h.countP fun e => e.op.loads := by
  refine hrun.invariant (I := fun h s => (s.hostFiles : Nat)
    = 4 + h.countP fun e => e.op.loads) ?_ ?_
  · exact fun _ _ => wp_boot_files fun _ _ => trivial
  · intro h s op hfiles _
    cases hop : op.loads with
    | true =>
        cases op with
        | exec image =>
            refine (wp_exec_files fun _ _ => trivial).mono fun _ s' hs' => ?_
            rw [hs', hfiles, List.countP_cons_of_pos rfl, Nat.add_assoc]
        | _ => cases hop
    | false =>
        refine (opensNone_step cfg hop).wp_self (fun _ _ _ _ => trivial)
          fun _ s' hs' => ?_
        rw [hs', hfiles, List.countP_cons_of_neg (by simp [hop])]

-- ==== tame steps

/-- Segments page-aligned and below the stack, and no more of them than
the region table has room for. -/
structure Loadable (f : HostFile) : Prop where
  below : ∀ ph ∈ segments f, ph.Below
  count : (segments f).length ≤ 253

/-- An image whose segments all stay recorded: it does not go on after a
segment at address 0, whose entry would be taken for an unused one. -/
structure Recordable (f : HostFile) : Prop extends Loadable f where
  holeless : Holeless (segments f)

theorem OneSegment.recordable {f : HostFile} {ph : ElfProgHeader}
    (hone : OneSegment f ph) : Recordable f where
  below := by
    rw [hone.segments]
    intro p hp
    rw [List.mem_singleton.mp hp]
    exact hone.below
  count := by rw [hone.segments]; exact Nat.le_add_left 1 252
  holeless := by rw [hone.segments]; exact ⟨fun _ => rfl, trivial⟩

/-- No recorded region of the running process covers `va`. -/
def Unrecorded (s : Kernel) (va : Nat) : Prop :=
  ∀ c, s.current = some c → ∀ k < (s.procs c).totalMappedRegion,
    ¬ (regionAt s.mem (s.procs c).mappedInfo k).Covers va

/-- A process founded now stores the number of its files where it does no
harm: the file table fits its page, or the page behind the file table is
free and stays so, or is the last table of the process itself, which then
has no leaf for user mode more. -/
def FilesAside (cfg : Config) (s : Kernel) : Prop :=
  ∀ fl, FreeList s fl → Aside cfg s.hostFiles fl

/-- The operation stays clear of the region table, and a fork of
everybody's pages. Arguments are 64-bit words. -/
def Op.Tame (cfg : Config) : Op → Kernel → Prop
  | .fork, s => FilesAside cfg s
  | .exec f, _ => Loadable f
  | .free va, s => va < 2 ^ 64 ∧ Unrecorded s va
  | .fault _ stval, _ => stval < 2 ^ 64
  | _, _ => True

/-- Besides, all that is mapped without being recorded is the heap: no
page for a store fault, no page an image loses. -/
def Op.Accounted (cfg : Config) : Op → Kernel → Prop
  | .fork, s => FilesAside cfg s
  | .exec f, _ => Recordable f
  | .free va, s => va < 2 ^ 64 ∧ Unrecorded s va
  | .fault mcause stval, _ => mcause ≠ causeStorePageFault ∧ stval < 2 ^ 64
  | _, _ => True

theorem Op.Accounted.tame (hop : op.Accounted cfg s) : op.Tame cfg s := by
  cases op with
  | exec f => exact hop.toLoadable
  | free va => exact hop
  | fault mcause stval => exact hop.2
  | allocate => trivial
  | tick => trivial
  | yield => trivial
  | fork => exact hop
  | exit => trivial
  | wait pid => trivial
  | store va b => trivial

/-- An image that stays recorded and no store fault. -/
theorem Op.Tame.accounted (hop : op.Tame cfg s)
    (hexec : ∀ f, op = .exec f → Recordable f)
    (hfault : ∀ mcause stval, op ≠ .fault mcause stval) : op.Accounted cfg s := by
  cases op with
  | exec f => exact hexec f rfl
  | fault mcause stval => exact absurd rfl (hfault mcause stval)
  | free va => exact hop
  | fork => exact hop
  | allocate => trivial
  | tick => trivial
  | yield => trivial
  | exit => trivial
  | wait pid => trivial
  | store va b => trivial

/-- What a tame step of `c` does to the unrecorded pages. -/
def Op.HeapAfter (c : Slot) (s : Kernel) (heap heap' : Slot → Nat → Nat → Prop) :
    Op → Prop
  | .fork => ∃ child, freeSlot s = some child ∧
      heap' = Function.update heap child fun _ _ => False
  | .exec f => heap' = Function.update heap c fun _ _ =>
      ¬ Holeless (segments f)
  | .allocate => s.gUfreePage < maxVa ∧
      heap' = moreHeap heap c s.gUfreePage s.gFreeMemList
  | .free va => (heap' = heap ∧ maxVa ≤ va) ∨ heap' = lessHeap heap c va
  | .fault mcause stval => heap' = heap ∨
      (mcause = causeStorePageFault ∧ ∃ pa, heap' = moreHeap heap c stval pa)
  | _ => heap' = heap

/-- All such steps but an allocation leave no more pages unrecorded than
there were. -/
theorem Op.Accounted.shrinks (hop : op.Accounted cfg s) (hne : op ≠ .allocate)
    (hheap : op.HeapAfter c s heap heap') (i : Slot) (v p : Nat)
    (hp : heap' i v p) : heap i v p := by
  have hsame : heap' = heap → heap i v p := fun heq => heq ▸ hp
  have hupdate : ∀ x (f : Nat → Nat → Prop), (f v p → heap x v p) →
      heap' = Function.update heap x f → heap i v p := by
    intro x f hf heq
    rw [heq] at hp
    by_cases hi : i = x
    · rw [hi, Function.update_self] at hp
      rw [hi]
      exact hf hp
    · rwa [Function.update_of_ne hi] at hp
  cases op with
  | fork =>
      obtain ⟨child, _, heq⟩ := hheap
      exact hupdate child _ False.elim heq
  | exec f => exact hupdate c _ (fun h => absurd hop.holeless h) hheap
  | allocate => exact absurd rfl hne
  | free va =>
      rcases hheap with ⟨heq, _⟩ | heq
      · exact hsame heq
      · exact hupdate c _ And.left heq
  | fault mcause stval =>
      rcases hheap with heq | ⟨hstore, _⟩
      · exact hsame heq
      · exact absurd hstore hop.1
  | tick => exact hsame hheap
  | yield => exact hsame hheap
  | exit => exact hsame hheap
  | wait pid => exact hsame hheap
  | store va b => exact hsame hheap

/-- The next heap address after a step. -/
def Op.ufreeAfter (s : Kernel) : Op → Nat
  | .allocate => u64 (s.gUfreePage + pgSize)
  | _ => s.gUfreePage

/-- Code is shared by fork only. -/
def Op.CodeAfter (c : Slot) (s : Kernel) (own own' : Nat → Owner)
    (op : Op) : Prop :=
  ∀ p, own' p = .code → own p = .code ∨
    (op = .fork ∧ ∃ v, own p = .frame c v ∧ codePage s c v)

theorem Passes.code (hp : Passes i own own') : op.CodeAfter c s own own' := by
  intro p hcode
  by_cases hin : own p = .free ∨ (own p).tag = some i.val
  · rcases hp.yield p hin with hfree | hheld | htag
    · rw [hfree] at hcode; cases hcode
    · rw [hheld] at hcode; cases hcode
    · rw [hcode] at htag; cases htag
  · rw [not_or] at hin
    rw [← hp.keep p hin.1 hin.2]
    exact Or.inl hcode

theorem code_refl : op.CodeAfter c s own own := fun _ => Or.inl

theorem Passes.refl : Passes i own own where
  keep _ _ _ := rfl
  yield _ hp := hp.imp_right Or.inr

/-- What a tame step of `c` did to memory: the unrecorded pages, shared
code and next heap address after it, the pages that changed hands, and
the page a call of `sys_user_free_page` gave back, if any. -/
structure SpaceStep (cfg : Config) (op : Op) (c : Slot) (q : List Slot)
    (heap : Slot → Nat → Nat → Prop) (s : Kernel) (own : Nat → Owner)
    (fl : List Nat) (heap' : Slot → Nat → Nat → Prop) (s' : Kernel)
    (own' : Nat → Owner) : Prop where
  unrecorded : op.HeapAfter c s heap heap'
  code : op.CodeAfter c s own own'
  ufree : s'.gUfreePage = op.ufreeAfter s
  passes : op ≠ .fork → (∀ pid, op ≠ .wait pid) → Passes c own own'
  still : op = .tick ∨ op = .yield → own' = own
  freed : ∀ va, op = .free va →
    s' = s ∨ ∃ w, FreedHeap cfg heap c va w q s own fl s' own'

/-- A call of `sys_user_free_page`. -/
def Op.frees : Op → Bool
  | .free _ => true
  | _ => false

/-- The scheduler alone. -/
def Op.idles : Op → Bool
  | .tick | .yield => true
  | _ => false

/-- No owner changed. -/
theorem SpaceStep.stays (hheap : op.HeapAfter c s heap heap)
    (hufree : s'.gUfreePage = op.ufreeAfter s)
    (hfreed : op.frees = false ∨ s' = s) :
    SpaceStep cfg op c q heap s own fl heap s' own where
  unrecorded := hheap
  code := code_refl
  ufree := hufree
  passes _ _ := .refl
  still _ := rfl
  freed va hop := by
    rcases hfreed with hno | hsame
    · rw [hop] at hno
      cases hno
    · exact Or.inl hsame

/-- Owners changed, and no page was given back by the process. -/
theorem SpaceStep.moves (hheap : op.HeapAfter c s heap heap')
    (hcode : op.CodeAfter c s own own')
    (hufree : s'.gUfreePage = op.ufreeAfter s)
    (hpasses : op ≠ .fork → (∀ pid, op ≠ .wait pid) → Passes c own own')
    (hidle : op.idles = false) (hfree : op.frees = false) :
    SpaceStep cfg op c q heap s own fl heap' s' own' where
  unrecorded := hheap
  code := hcode
  ufree := hufree
  passes := hpasses
  still hop := by
    rcases hop with hop | hop
    · rw [hop] at hidle
      cases hidle
    · rw [hop] at hidle
      cases hidle
  freed va hop := by
    rw [hop] at hfree
    cases hfree

/-- What a tame step can do to memory. -/
theorem wp_stepSpace (hS : Sys cfg heap s own fl q c) (ht : op.Tame cfg s)
    (hroom : Room bad (op.pages s) fl) :
    Wp bad (fun _ _ => True) (step cfg op) (fun _ s' =>
      ∃ heap' own' fl' q' c', Sys cfg heap' s' own' fl' q' c' ∧
        SpaceStep cfg op c q heap s own fl heap' s' own') s := by
  have hcur := hS.running.current
  cases op with
  | tick =>
      refine (wp_tickSpace hS).mono fun _ s' hres => ?_
      obtain ⟨hi, q', c', hS'⟩ := hres
      exact ⟨heap, own, fl, q', c', hS', .stays rfl hi.ufree (Or.inl rfl)⟩
  | yield =>
      refine (wp_yieldSpace hS).mono fun _ s' hres => ?_
      obtain ⟨hi, h, t, _, hS'⟩ := hres
      exact ⟨heap, own, fl, t, h, hS', .stays rfl hi.ufree (Or.inl rfl)⟩
  | fork =>
      simp only [Pke.step, sysUserFork, wp_bind, wp_pure]
      refine wp_theCurrent hcur ?_
      unfold Op.pages at hroom
      rw [hcur] at hroom
      refine (wp_forkSpace hS (fun _ _ _ => trivial)
        (ht fl hS.inv.pages.pool.chain) hroom).mono ?_
      intro _ s' hres
      obtain ⟨child, own', fl', hslot, ho, hS'⟩ := hres
      refine ⟨_, own', fl', _, _, hS', .moves ⟨child, hslot, rfl⟩
        (fun p hp => ?_) ho.ufree (fun hne => absurd rfl hne) rfl rfl⟩
      by_cases hfree : own p = .free
      · rcases ho.fresh p hfree with hown | hown | hown
        · rw [hp] at hown; cases hown
        · rw [hp] at hown; cases hown
        · rw [hp] at hown; cases hown
      · rw [ho.spawned.keep p hfree] at hp
        rcases shareCode_cases c (codePage s c) own p with hsh | hsh
        · exact Or.inr ⟨rfl, hsh.2⟩
        · exact Or.inl (hsh.1.symm.trans hp)
  | exit =>
      refine (wp_exitSpace hS fun _ _ => trivial).mono fun _ s' hres => ?_
      obtain ⟨hi, _, h, t, _, hS'⟩ := hres
      exact ⟨heap, own, fl, t, h, hS', .stays rfl hi.ufree (Or.inl rfl)⟩
  | wait pid =>
      simp only [Pke.step, wp_bind, wp_pure]
      refine (wp_waitSpace hS).mono fun _ s' hres => ?_
      rcases hres with ⟨rfl, _⟩ | ⟨i, own', fl', _, _, hr⟩
      · exact ⟨heap, own, fl, q, c, hS, .stays rfl rfl (Or.inl rfl)⟩
      · exact ⟨heap, own', fl', q, c, hr.sys, .moves rfl hr.touches.passes.code
          (ufree_of_apart hr.touches.apart)
          (fun _ hne => absurd rfl (hne pid)) rfl rfl⟩
  | exec f =>
      refine (wp_execSpace hS (fun _ _ => trivial) _ ht.below ht.count
        (em _) hroom).mono fun _ s' hres => ?_
      obtain ⟨own', fl', hS', htouch⟩ := hres
      exact ⟨_, own', fl', q, c, hS', .moves rfl htouch.passes.code
        (ufree_of_apart htouch.apart) (fun _ _ => htouch.passes) rfl rfl⟩
  | allocate =>
      simp only [Pke.step, wp_bind, wp_pure]
      refine (wp_allocateSpace hS (Or.inr fun _ _ => trivial)
        hroom).mono fun _ s' hres => ?_
      obtain ⟨pa, own', fl', rfl, hpa, hS', hpass, hnew, hufree, -⟩ := hres
      have hhead : s.gFreeMemList = pa := by
        have hlink := hS.inv.pages.pool.chain.head_eq
        rw [hpa] at hlink
        exact (link_eq_some hlink).1
      refine ⟨_, own', fl', q, c, hS', .moves ⟨hnew.below, ?_⟩ hpass.code hufree
        (fun _ _ => hpass) rfl rfl⟩
      rw [← hhead]
  | free va =>
      simp only [Pke.step, wp_bind, wp_pure]
      refine (wp_freeSpace hS (Or.inr fun _ _ => trivial) ht.1
        (ht.2 c hcur)).mono fun _ s' hres => ?_
      rcases hres with ⟨rfl, hbig⟩ | ⟨w, own', hf⟩
      · exact ⟨heap, own, fl, q, c, hS,
          .stays (Or.inl ⟨rfl, hbig⟩) rfl (Or.inr rfl)⟩
      · refine ⟨_, own', _, q, c, hf.sys, Or.inr rfl, hf.passes.code,
          hf.ufree, fun _ _ => hf.passes, fun hop => ?_,
          fun va' hop => Or.inr ⟨w, ?_⟩⟩
        · rcases hop with hop | hop
          · cases hop
          · cases hop
        · obtain rfl := Op.free.inj hop
          exact hf
  | fault mcause stval =>
      refine (wp_faultSpace hS (Or.inr fun _ _ => trivial) ht hroom).mono ?_
      intro _ s' hres
      rcases hres with rfl | ⟨hstore, pa, own', fl', hS', hpass, _, hufree, -⟩
      · exact ⟨heap, own, fl, q, c, hS, .stays (Or.inl rfl) rfl (Or.inl rfl)⟩
      · exact ⟨_, own', fl', q, c, hS', .moves (Or.inr ⟨hstore, pa, rfl⟩)
          hpass.code hufree (fun _ _ => hpass) rfl rfl⟩
  | store va b =>
      refine (wp_storeSpace hS).mono fun _ s' hres => ?_
      exact ⟨heap, own, fl, q, c, hres.2.1,
        .stays rfl hres.1.ufree (Or.inl rfl)⟩

/-- There are pages enough, or their running out counts as bad. -/
theorem Sys.room (hS : Sys cfg heap s own fl q c) (op : Op) :
    Room (fun e => outOfPages e ∧ ¬ op.Enough s) (op.pages s) fl := by
  by_cases hpages : op.Enough s
  · obtain ⟨fl', hfl', hlen⟩ := hpages
    rw [hfl'.unique hS.inv.pages.pool.chain] at hlen
    exact Or.inl hlen
  · exact Or.inr ⟨rfl, hpages⟩

/-- An invariant of the owners and the unrecorded pages, over runs
without a failed allocation whose steps are tame. `H` admits that the
application loses the page of a segment. -/
theorem KernelRun.space {J : List (Entry Kernel Op) → Kernel →
      (Slot → Nat → Nat → Prop) → (Nat → Owner) → Prop}
    (hrun : KernelRun outOfPages cfg C h s) (happ : Loadable cfg.app)
    (hC : ∀ op s, C op s → op.Tame cfg s) (H : Prop)
    (hhole : Holeless (segments cfg.app) ∨ H)
    (hboot : ∀ s own, s.gUfreePage = userFreeAddressStart →
      (∀ p, own p ≠ .code) → J [] s (fun _ _ _ => H) own)
    (hstep : ∀ h s heap own fl q c op s' heap' own', J h s heap own →
      Sys cfg heap s own fl q c → C op s →
      SpaceStep cfg op c q heap s own fl heap' s' own' →
      J (⟨op, s, s'⟩ :: h) s' heap' own') :
    ∃ heap own fl q c, Sys cfg heap s own fl q c ∧ J h s heap own := by
  refine hrun.invariant (I := fun h s => ∃ heap own fl q c,
    Sys cfg heap s own fl q c ∧ J h s heap own) ?_ ?_
  · intro b hb
    refine (wp_bootSome (fun _ _ => trivial) (hb.imp_left fun h => h ▸ rfl)
      H happ.below happ.count hhole).mono fun _ s' hres => ?_
    obtain ⟨own, fl, hb⟩ := hres
    exact ⟨_, own, fl, _, _, hb.sys, hboot s' own hb.ufree hb.unshared⟩
  · intro h s op hinv hop
    obtain ⟨heap, own, fl, q, c, hS, hJ⟩ := hinv
    refine (wp_stepSpace hS (hC op s hop) (hS.room op)).mono ?_
    intro _ s' hres
    obtain ⟨heap', own', fl', q', c', hS', hst⟩ := hres
    exact ⟨heap', own', fl', q', c', hS',
      hstep h s heap own fl q c op s' heap' own' hJ hS hop hst⟩

/-- The memory invariant holds after all of these. -/
theorem KernelRun.sys (hrun : KernelRun outOfPages cfg C h s)
    (happ : Loadable cfg.app) (hC : ∀ op s, C op s → op.Tame cfg s) :
    ∃ heap own fl q c, Sys cfg heap s own fl q c := by
  obtain ⟨heap, own, fl, q, c, hS, _⟩ := hrun.space
    (J := fun _ _ _ _ => True) happ hC True (Or.inr trivial)
    (fun _ _ _ _ => trivial) fun _ _ _ _ _ _ _ _ _ _ _ _ _ _ _ => trivial
  exact ⟨heap, own, fl, q, c, hS⟩

end Pke
