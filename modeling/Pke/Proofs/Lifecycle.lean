/-
The life of a process.

Everything here follows from what one step does to the rows of the
process table (`Op.Rows`, Queue.lean): a slot is filled by fork, is
terminated by the exit of the process in it, and is emptied by the wait
of its parent, in this order and once each.

# What the status says

The dispatcher compares where it should assign (`current->status ==
RUNNING;`), so the process that runs is READY, and `do_getinfo` counts
it among the waiting ones.

# Incarnations

A process names its parent by slot, and slots are reused. `origin` reads
off the history which process a slot holds: when it was forked, and by
which process, itself named by its slot and its time of birth. An orphan
whose parent was reaped can end up as the child of a stranger; if no
process is reaped while a child of it is in use, this cannot happen.
-/
import Pke.Proofs.Plain

namespace Pke

open ByteMem Traced

variable {bad : Event → Prop} {cfg : Config} {C : Op → Kernel → Prop}
variable {s s' : Kernel} {c i x : Slot} {q : List Slot}
variable {h : List (Entry Kernel Op)} {op : Op}

-- ==== transitions

/-- How the status of slot `i` may change in a step of process `c`. -/
inductive Moves (op : Op) (c i : Slot) : ProcStatus → ProcStatus → Prop where
  | same {st : ProcStatus} : Moves op c i st st
  | fork (hop : op = .fork) : Moves op c i .free .ready
  | exit (hop : op = .exit) (hi : i = c) : Moves op c i .ready .zombie
  | wait {pid : Int} (hop : op = .wait pid) : Moves op c i .zombie .free

/-- The status of one row changed, if at all, and as allowed. -/
theorem moves_update {r : Row}
    (hrow : s'.row = Function.update s.row x r)
    (hx : Moves op c x (s.row x).status r.status) (i : Slot) :
    Moves op c i (s.row i).status (s'.row i).status := by
  rw [hrow]
  by_cases hi : i = x
  · rw [hi, Function.update_self]
    exact hx
  · rw [Function.update_of_ne hi]
    exact .same

/-- A step moves every slot along its life cycle. -/
theorem Op.Rows.moves (hrow : op.Rows c s s') (hr : Running s q c)
    (i : Slot) : Moves op c i (s.row i).status (s'.row i).status := by
  have hsame : s'.row = s.row →
      Moves op c i (s.row i).status (s'.row i).status := by
    intro h
    rw [h]
    exact .same
  cases op with
  | tick => exact moves_update hrow .same i
  | yield => exact hsame hrow
  | fork =>
      obtain ⟨x, hx, hrow⟩ := hrow
      have hfree : (s.row x).status = .free := freeSlot_status hx
      refine moves_update hrow ?_ i
      rw [hfree]
      exact .fork rfl
  | exit =>
      have hready : (s.row c).status = .ready := hr.ready
      refine moves_update hrow ?_ i
      rw [hready]
      exact .exit rfl rfl
  | wait pid =>
      rcases hrow with ⟨hrow, _⟩ | ⟨x, hx, hrow⟩
      · exact hsame hrow
      · refine moves_update hrow ?_ i
        rw [hx.2]
        exact .wait rfl
  | exec image => exact moves_update hrow .same i
  | allocate => exact hsame hrow
  | free va => exact hsame hrow
  | fault mcause stval => exact hsame hrow
  | store va b => exact hsame hrow

-- ==== counting

/-- How often slot `i` was filled. -/
def fills (h : List (Entry Kernel Op)) (i : Slot) : Nat :=
  h.countP fun e => (e.pre.row i).status = .free ∧
    (e.post.row i).status ≠ .free

/-- How often a process in slot `i` was terminated. -/
def exits (h : List (Entry Kernel Op)) (i : Slot) : Nat :=
  h.countP fun e => (e.pre.row i).status ≠ .zombie ∧
    (e.post.row i).status = .zombie

/-- How often slot `i` was emptied. -/
def reaps (h : List (Entry Kernel Op)) (i : Slot) : Nat :=
  h.countP fun e => (e.pre.row i).status ≠ .free ∧
    (e.post.row i).status = .free

/-- One step of the three counts. -/
theorem Moves.count {st st' : ProcStatus} (hm : Moves op c i st st') :
    (if st = .free ∧ st' ≠ .free then 1 else 0)
        + (if st ≠ .free ∧ st ≠ .zombie then 1 else 0)
      = (if st ≠ .zombie ∧ st' = .zombie then 1 else 0)
        + (if st' ≠ .free ∧ st' ≠ .zombie then 1 else 0) ∧
    (if st ≠ .zombie ∧ st' = .zombie then 1 else 0)
        + (if st = .zombie then 1 else 0)
      = (if st ≠ .free ∧ st' = .free then 1 else 0)
        + (if st' = .zombie then 1 else 0) := by
  cases hm with
  | same => cases st <;> decide
  | fork hop => decide
  | exit hop hi => decide
  | wait hop => decide

/-- Every filling of a slot is followed by one exit, and every exit by
one reaping, up to what is still to come. -/
structure Counted (h : List (Entry Kernel Op)) (s : Kernel) : Prop where
  filled : ∀ i, (if i = 0 then 1 else 0) + fills h i = exits h i +
    if (s.row i).status ≠ .free ∧ (s.row i).status ≠ .zombie then 1 else 0
  reported : ∀ i, exits h i = reaps h i +
    if (s.row i).status = .zombie then 1 else 0

theorem Counted.step (hc : Counted h s)
    (hm : ∀ i, Moves op c i (s.row i).status (s'.row i).status) :
    Counted (⟨op, s, s'⟩ :: h) s' := by
  constructor
  · intro i
    have hold := hc.filled i
    have hnew := (hm i).count.1
    unfold fills exits at hold ⊢
    simp only [List.countP_cons, decide_eq_true_eq]
    omega
  · intro i
    have hold := hc.reported i
    have hnew := (hm i).count.2
    unfold exits reaps at hold ⊢
    simp only [List.countP_cons, decide_eq_true_eq]
    omega

/-- The running process is READY, and so is everybody on the queue. -/
theorem Ordered.notRunning (ho : Ordered s q c) (i : Slot) :
    (s.row i).status ≠ .running := by
  intro hi
  have hlive : Live s i := by
    refine ⟨fun h => ?_, fun h => ?_⟩
    · rw [show (s.procs i).status = .running from hi] at h
      cases h
    · rw [show (s.procs i).status = .running from hi] at h
      cases h
  have hready : (s.row i).status = .ready := by
    rcases ho.running.queued.live i hlive with hmem | hmem
    · exact ho.running.queued.ready i hmem
    · rw [List.mem_singleton.mp hmem]
      exact ho.running.ready
  rw [hready] at hi
  cases hi

/-- `do_getinfo` finds nobody running, and prints the caller as
waiting. -/
theorem Ordered.getinfo (ho : Ordered s q c) {E : Halt → Kernel → Prop} :
    Wp bad E doGetinfo (fun info s' => s' = s ∧ info.running = 0 ∧
      ∃ r ∈ info.procs, r.pid = c ∧ r.stat = 'S') s := by
  simp only [doGetinfo, wp_bind, wp_get, wp_pure]
  refine ⟨trivial, ?_, ?_⟩
  · rw [List.countP_eq_zero]
    intro i _ hi
    exact ho.notRunning i (of_decide_eq_true hi)
  · refine ⟨_, List.mem_map.mpr ⟨c, ?_, rfl⟩, ho.pid c, ?_⟩
    · rw [List.mem_filter]
      refine ⟨List.mem_finRange c, ?_⟩
      rw [ho.running.ready]
      rfl
    · show (s.procs c).status.letter = 'S'
      rw [ho.running.ready]
      rfl

/-- The status of the running process is never RUNNING: after every run
it is READY, no process has status RUNNING, and `do_getinfo` counts
nobody as running and prints the caller as waiting. -/
theorem status_of_current_ready (cfg : Config) (ops : List Op) :
    Wp anyEvent (fun _ _ => True) (run cfg ops) (fun _ s =>
      ∃ c q, s.current = some c ∧ (s.procs c).status = .ready ∧
        ReadyQueue s q ∧ (∀ i ∈ q, (s.procs i).status = .ready) ∧
        (∀ i, (s.procs i).status ≠ .running) ∧
        Returns doGetinfo (fun info s' => s' = s ∧ info.running = 0 ∧
          ∃ r ∈ info.procs, r.pid = c ∧ r.stat = 'S') s) cfg.init := by
  refine Wp.mono (wp_runKeeps (I := fun s => ∃ q c, Ordered s q c) ?_ ?_ ops)
    fun _ s hinv => ?_
  · exact ordered_boot.mono fun _ s' hres => ⟨[], 0, hres.1⟩
  · intro s op hinv
    obtain ⟨q, c, ho⟩ := hinv
    refine (ho.step op).mono fun _ s' hres => ?_
    obtain ⟨a, q', c', _, ho'⟩ := hres
    exact ⟨q', c', ho'⟩
  · obtain ⟨q, c, ho⟩ := hinv
    exact ⟨c, q, ho.running.current, ho.running.ready, ho.running.queued.chain,
      ho.running.queued.ready, ho.notRunning, ho.getinfo⟩

/-- On the small machine, right after boot. -/
theorem status_of_current_boot : ∃ s,
    KernelRun anyEvent (tinyMachine 0x10000) anyOp [] s ∧
      s.current = some 0 ∧ (s.procs 0).status ≠ .running := by
  obtain ⟨s, hA, -⟩ := plainRun_boot tinyImage_low (by decide)
  refine ⟨s, hA.any, hA.ordered.running.current, ?_⟩
  rw [hA.ordered.running.ready]
  exact nofun

-- ==== incarnations

/-- When the process in a slot was forked, counted in steps since boot,
and by which process: its slot, and when that one was forked. Boot's own
process has no creator. -/
def origin : List (Entry Kernel Op) → Slot → Nat × Option (Slot × Nat)
  | [], _ => (0, none)
  | e :: h, i =>
      if (e.pre.row i).status = .free ∧ (e.post.row i).status ≠ .free then
        (h.length + 1, e.pre.current.map fun c => (c, (origin h c).1))
      else origin h i

/-- The process in slot `x` was forked by the process that is in slot
`c` now. -/
def OwnChild (h : List (Entry Kernel Op)) (c x : Slot) : Prop :=
  (origin h x).2 = some (c, (origin h c).1)

/-- Every wait of the run reaped a child of the very process that
waited. -/
def ReapsOwn : List (Entry Kernel Op) → Prop
  | [] => True
  | e :: h => (∀ c x, e.pre.current = some c →
      (e.pre.row x).status = .zombie → (e.post.row x).status = .free →
        OwnChild h c x) ∧ ReapsOwn h

/-- A wait reaps nobody who is still the parent of a process in use. -/
def Op.NoOrphans : Op → Kernel → Prop
  | .wait pid, s => ∀ c x, s.current = some c → Reapable s c pid x →
      ∀ j, (s.row j).status ≠ .free → (s.row j).parent ≠ some x
  | _, _ => True

/-- Parents of processes in use are in use, and are the ones that forked
them. -/
def Kindred (h : List (Entry Kernel Op)) (s : Kernel) : Prop :=
  ∀ i p, (s.row i).status ≠ .free → (s.row i).parent = some p →
    (s.row p).status ≠ .free ∧ OwnChild h p i

theorem origin_same {e : Entry Kernel Op}
    (hi : (e.pre.row i).status ≠ .free ∨ (e.post.row i).status = .free) :
    origin (e :: h) i = origin h i := by
  refine if_neg fun hboth => ?_
  rcases hi with hi | hi
  · exact hi hboth.1
  · exact hboth.2 hi

theorem origin_new {e : Entry Kernel Op} (hcur : e.pre.current = some c)
    (hpre : (e.pre.row i).status = .free)
    (hpost : (e.post.row i).status ≠ .free) :
    origin (e :: h) i = (h.length + 1, some (c, (origin h c).1)) := by
  refine (if_pos ⟨hpre, hpost⟩).trans ?_
  rw [hcur]
  rfl

/-- A row whose status and parent are as before, of a process whose
parent is in use. -/
theorem OwnChild.same {e : Entry Kernel Op} (ho : OwnChild h c x)
    (hx : (e.pre.row x).status ≠ .free)
    (hc : (e.pre.row c).status ≠ .free) : OwnChild (e :: h) c x := by
  unfold OwnChild at ho ⊢
  rw [origin_same (Or.inl hx), origin_same (Or.inl hc), ho]

/-- A step that leaves parents and unused slots alone. -/
theorem Kindred.same (hk : Kindred h s)
    (hst : ∀ i, (s'.row i).status = .free ↔ (s.row i).status = .free)
    (hpar : ∀ i, (s'.row i).parent = (s.row i).parent) :
    Kindred (⟨op, s, s'⟩ :: h) s' := by
  intro i p hi hp
  rw [hpar] at hp
  have hi' : (s.row i).status ≠ .free := fun hf => hi ((hst i).mpr hf)
  obtain ⟨hpu, hown⟩ := hk i p hi' hp
  exact ⟨fun hf => hpu ((hst p).mp hf), hown.same hi' hpu⟩

theorem Kindred.update {r : Row} (hk : Kindred h s)
    (hrow : s'.row = Function.update s.row x r)
    (hst : r.status = .free ↔ (s.row x).status = .free)
    (hpar : r.parent = (s.row x).parent) : Kindred (⟨op, s, s'⟩ :: h) s' := by
  refine hk.same (fun i => ?_) fun i => ?_
  · rw [hrow]
    by_cases hi : i = x
    · rw [hi, Function.update_self]
      exact hst
    · rw [Function.update_of_ne hi]
  · rw [hrow]
    by_cases hi : i = x
    · rw [hi, Function.update_self, hpar]
    · rw [Function.update_of_ne hi]

/-- Fork fills an unused slot with a child of the caller. -/
theorem Kindred.fork (hk : Kindred h s) (hcur : s.current = some c)
    (hc : (s.row c).status ≠ .free) (hx : (s.row x).status = .free)
    (hrow : s'.row = Function.update s.row x ((s.row x).child c)) :
    Kindred (⟨op, s, s'⟩ :: h) s' := by
  have hxc : c ≠ x := by
    intro hcx
    rw [hcx] at hc
    exact hc hx
  intro i p hi hp
  by_cases hix : i = x
  · subst hix
    rw [hrow, Function.update_self] at hp
    obtain rfl : c = p := Option.some.inj hp
    rw [hrow, Function.update_of_ne hxc]
    refine ⟨hc, ?_⟩
    unfold OwnChild
    rw [origin_new hcur hx hi, origin_same (i := c) (Or.inl hc)]
  · rw [hrow, Function.update_of_ne hix] at hi hp
    obtain ⟨hpu, hown⟩ := hk i p hi hp
    have hpx : p ≠ x := by
      intro hpx
      rw [hpx] at hpu
      exact hpu hx
    rw [hrow, Function.update_of_ne hpx]
    exact ⟨hpu, hown.same hi hpu⟩

/-- Reaping a process that is nobody's parent. -/
theorem Kindred.reap (hk : Kindred h s)
    (hrow : s'.row = Function.update s.row x (s.row x).reap)
    (hno : ∀ j, (s.row j).status ≠ .free → (s.row j).parent ≠ some x) :
    Kindred (⟨op, s, s'⟩ :: h) s' := by
  intro i p hi hp
  have hix : i ≠ x := by
    intro hix
    rw [hrow, hix, Function.update_self] at hi
    exact hi rfl
  rw [hrow, Function.update_of_ne hix] at hi hp
  obtain ⟨hpu, hown⟩ := hk i p hi hp
  have hpx : p ≠ x := by
    intro hpx
    exact hno i hi (hpx ▸ hp)
  rw [hrow, Function.update_of_ne hpx]
  exact ⟨hpu, hown.same hi hpu⟩

/-- A step that orphans nobody keeps every child with its parent. -/
theorem Kindred.step (hk : Kindred h s) (ho : Ordered s q c)
    (hrow : op.Rows c s s') (hop : op.NoOrphans s) :
    Kindred (⟨op, s, s'⟩ :: h) s' := by
  have hcur := ho.running.current
  have hready : (s.row c).status = .ready := ho.running.ready
  have hsame : s'.row = s.row → Kindred (⟨op, s, s'⟩ :: h) s' := fun hrow =>
    hk.same (fun i => by rw [hrow]) fun i => by rw [hrow]
  cases op with
  | tick => exact hk.update hrow Iff.rfl rfl
  | yield => exact hsame hrow
  | fork =>
      obtain ⟨x, hx, hrow⟩ := hrow
      refine hk.fork hcur ?_ (freeSlot_status hx) hrow
      rw [hready]
      exact nofun
  | exit =>
      refine hk.update hrow ?_ rfl
      rw [hready]
      exact ⟨nofun, nofun⟩
  | wait pid =>
      rcases hrow with ⟨hrow, _⟩ | ⟨x, hx, hrow⟩
      · exact hsame hrow
      · exact hk.reap hrow (hop c x hcur hx)
  | exec image => exact hk.update hrow Iff.rfl rfl
  | allocate => exact hsame hrow
  | free va => exact hsame hrow
  | fault mcause stval => exact hsame hrow
  | store va b => exact hsame hrow

/-- Who is reaped in a step was a zombie child of the running process. -/
theorem Op.Rows.reaped (hrow : op.Rows c s s') (hr : Running s q c)
    (hz : (s.row x).status = .zombie) (hf : (s'.row x).status = .free) :
    (s.row x).parent = some c := by
  have hone : ∀ {y r}, s'.row = Function.update s.row y r → r.status ≠ .free →
      (s.row x).parent = some c := by
    intro y r hrow hr
    rw [hrow] at hf
    by_cases hxy : x = y
    · rw [hxy, Function.update_self] at hf
      exact absurd hf hr
    · rw [Function.update_of_ne hxy, hz] at hf
      cases hf
  have hsame : s'.row = s.row → (s.row x).parent = some c := by
    intro hrow
    rw [hrow, hz] at hf
    cases hf
  have hready : (s.row c).status ≠ .free := by
    rw [show (s.row c).status = .ready from hr.ready]
    exact nofun
  cases op with
  | tick => exact hone hrow hready
  | yield => exact hsame hrow
  | fork =>
      obtain ⟨y, _, hrow⟩ := hrow
      exact hone hrow nofun
  | exit => exact hone hrow nofun
  | wait pid =>
      rcases hrow with ⟨hrow, _⟩ | ⟨y, hy, hrow⟩
      · exact hsame hrow
      · rw [hrow] at hf
        by_cases hxy : x = y
        · rw [hxy]
          exact hy.1.1
        · rw [Function.update_of_ne hxy, hz] at hf
          cases hf
  | exec image => exact hone hrow hready
  | allocate => exact hsame hrow
  | free va => exact hsame hrow
  | fault mcause stval => exact hsame hrow
  | store va b => exact hsame hrow

/-- In every run in which no process is reaped while it is the parent of
a process in use, wait reports only children of the very process that
waits. -/
theorem wait_reports_own_children
    (hrun : KernelRun anyEvent cfg Op.NoOrphans h s) : ReapsOwn h := by
  have hinv : ReapsOwn h ∧ Kindred h s ∧ ∃ q c, Ordered s q c := by
    refine hrun.invariant (I := fun h s =>
      ReapsOwn h ∧ Kindred h s ∧ ∃ q c, Ordered s q c) ?_ ?_
    · intro _ _
      refine ordered_boot.mono fun _ s' hres => ?_
      refine ⟨trivial, fun i p _ hp => ?_, [], 0, hres.1⟩
      have hnone : (s'.row i).parent = none :=
        (congrArg Row.parent (hres.2.2 i) :)
      rw [hnone] at hp
      cases hp
    · intro h s op hinv hop
      obtain ⟨hreaps, hk, q, c, ho⟩ := hinv
      refine (ho.step op).mono fun _ s' hres => ?_
      obtain ⟨a, q', c', hst, ho'⟩ := hres
      refine ⟨⟨fun d x hd hz hf => ?_, hreaps⟩,
        hk.step ho hst.rows hop, q', c', ho'⟩
      obtain rfl : d = c :=
        Option.some.inj (hd.symm.trans ho.running.current)
      have hparent := hst.rows.reaped ho.running hz hf
      refine (hk x d ?_ hparent).2
      rw [show (s.row x).status = .zombie from hz]
      exact nofun
  exact hinv.1

/-- Such a run: slot 0 forks, the child exits and is reaped. -/
theorem wait_reports_own_children_one : ∃ s₀ s₁ s₂ s₃ s₄,
    KernelRun anyEvent (tinyMachine 0x10000) Op.NoOrphans
      [⟨.wait (-1), s₃, s₄⟩, ⟨.exit, s₂, s₃⟩, ⟨.yield, s₁, s₂⟩,
        ⟨.fork, s₀, s₁⟩] s₄ ∧
    (s₃.row 1).status = .zombie ∧ (s₄.row 1).status = .free ∧
    ReapsOwn [⟨.wait (-1), s₃, s₄⟩, ⟨.exit, s₂, s₃⟩, ⟨.yield, s₁, s₂⟩,
      ⟨.fork, s₀, s₁⟩] := by
  obtain ⟨s₀, hA₀, -⟩ := plainRun_boot tinyImage_low (by decide)
  obtain ⟨s₁, hA₁⟩ := PlainRun.fork (n := 31975) (x := 1) hA₀ (by decide)
    (by decide)
  obtain ⟨s₂, hA₂⟩ := hA₁.yield rfl
  obtain ⟨s₃, hA₃⟩ := hA₂.exit
  obtain ⟨s₄, hA₄⟩ := hA₃.wait 1 (by decide) (by decide)
  -- nobody is a child of a child of slot 0
  have hwait : Op.NoOrphans (.wait (-1)) s₃ := by
    intro c x hcur hx j hused hj
    have hparent := hx.1.1
    rw [hA₃.parent, Option.some.inj (hcur.symm.trans hA₃.current)] at hparent
    rw [hA₃.parent] at hj
    clear hx hused
    revert x j
    decide
  have hrun := hA₄.guarded (C := Op.NoOrphans) (by
    simp only [List.forall_mem_cons]
    exact ⟨hwait, trivial, trivial, trivial, nofun⟩)
  exact ⟨s₀, s₁, s₂, s₃, s₄, hrun, (hA₃.status 1).trans (by decide),
    (hA₄.status 1).trans (by decide), wait_reports_own_children hrun⟩

/-- A process reaped before its child leaves the child to whoever gets
its slot. Slot 0 forks 1, which forks 2 and exits; 0 reaps 1 and forks
again, into slot 1; then 2 exits, and the new process in slot 1 reaps
it. -/
theorem wait_reports_stranger : ∃ h s,
    KernelRun anyEvent (tinyMachine 0x10000) anyOp h s ∧ ¬ ReapsOwn h := by
  obtain ⟨s₀, hA₀, -⟩ := plainRun_boot tinyImage_low (by decide)
  obtain ⟨s₁, hA₁⟩ := PlainRun.fork (n := 31975) (x := 1) hA₀ (by decide)
    (by decide)
  obtain ⟨s₂, hA₂⟩ := hA₁.yield rfl
  obtain ⟨s₃, hA₃⟩ := PlainRun.fork (n := 31950) (x := 2) hA₂ (by decide)
    (by decide)
  obtain ⟨s₄, hA₄⟩ := hA₃.exit
  obtain ⟨s₅, hA₅⟩ := hA₄.wait 1 (by decide) (by decide)
  obtain ⟨s₆, hA₆⟩ := PlainRun.fork (n := 31925) (x := 1) hA₅ (by decide)
    (by decide)
  obtain ⟨s₇, hA₇⟩ := hA₆.yield rfl
  obtain ⟨s₈, hA₈⟩ := hA₇.exit
  obtain ⟨s₉, hA₉⟩ := hA₈.wait 2 (by decide) (by decide)
  refine ⟨_, s₉, hA₉.any, fun hown => ?_⟩
  have hchild := hown.1 1 2 hA₈.current
    ((hA₈.status 2).trans (by decide)) ((hA₉.status 2).trans (by decide))
  simp only [OwnChild, origin, hA₀.status, hA₁.status, hA₂.status,
    hA₃.status, hA₄.status, hA₅.status, hA₆.status, hA₇.status, hA₈.status,
    hA₀.current, hA₁.current, hA₂.current, hA₃.current, hA₄.current,
    hA₅.current, hA₆.current, hA₇.current, List.length_cons,
    List.length_nil] at hchild
  revert hchild
  decide

end Pke
