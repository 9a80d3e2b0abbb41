/-
Time slices.

`sliceTicks` counts, over the history of a run, the ticks since the
last call of `schedule`: those the running process has received in its
slice. The kernel counts them too, in `tick_count`, and calls `schedule`
when the count reaches TIME_SLICE_LEN. The bound holds as long as the
counter never falls behind (`Sliced`); fork resets the counter of a
process that has had no slice yet, wait that of a dead one, and exec that
of the caller, in the middle of its slice. A process that execs often
enough is never preempted.
-/
import Pke.Proofs.Plain

namespace Pke

open Traced

variable {cfg : Config} {s s' : Kernel} {c c' : Slot} {q q' : List Slot}
variable {h : List (Entry Kernel Op)} {op : Op}

/-- The operation calls `schedule`: at the end of a time slice, on yield
and on exit. -/
def Op.schedules (op : Op) (s : Kernel) : Bool :=
  match op, s.current with
  | .tick, some c => (s.row c).ticks + 1 ≥ timeSliceLen
  | .yield, _ => true
  | .exit, _ => true
  | _, _ => false

/-- Ticks the operation is. -/
def Op.ticks : Op → Nat
  | .tick => 1
  | _ => 0

/-- Ticks since the last call of `schedule`. -/
def sliceTicks : List (Entry Kernel Op) → Nat
  | [] => 0
  | e :: h => if e.op.schedules e.pre then 0 else sliceTicks h + e.op.ticks

/-- From one dispatch to the next call of `schedule`, a process received
at most TIME_SLICE_LEN ticks, the one that ended the slice included. -/
def SliceBounded : List (Entry Kernel Op) → Prop
  | [] => True
  | e :: h => (sliceTicks h + e.op.ticks : Nat) ≤ timeSliceLen ∧
      SliceBounded h

/-- Exec is called at the start of a time slice only. -/
def Op.ExecsFresh : Op → Kernel → Prop
  | .exec _, s => ∀ c, s.current = some c → (s.row c).ticks = 0
  | _, _ => True

/-- The tick counters are within the slice, and the one of the running
process has not fallen behind. -/
structure Sliced (h : List (Entry Kernel Op)) (s : Kernel) (c : Slot) :
    Prop where
  range : ∀ i, (s.row i).status ≠ .free →
    0 ≤ (s.row i).ticks ∧ (s.row i).ticks < timeSliceLen
  counted : (sliceTicks h : Int) ≤ (s.row c).ticks

theorem Op.schedules_iff (hcur : s.current = some c) :
    op.schedules s = true ↔ op.CallsSchedule c s := by
  unfold Op.schedules
  rw [hcur]
  cases op with
  | tick => exact decide_eq_true_iff
  | yield => exact iff_of_true rfl trivial
  | exit => exact iff_of_true rfl trivial
  | fork => exact iff_of_false Bool.false_ne_true id
  | wait pid => exact iff_of_false Bool.false_ne_true id
  | exec image => exact iff_of_false Bool.false_ne_true id
  | allocate => exact iff_of_false Bool.false_ne_true id
  | free va => exact iff_of_false Bool.false_ne_true id
  | fault mcause stval => exact iff_of_false Bool.false_ne_true id
  | store va b => exact iff_of_false Bool.false_ne_true id

-- ==== the counters

/-- A row in use that is as before, or whose counter is in range, is in
range. -/
theorem Sliced.rangeUpdate {x : Slot} {r : Row} (hs : Sliced h s c)
    (hrow : s'.row = Function.update s.row x r)
    (hr : r.status ≠ .free → 0 ≤ r.ticks ∧ r.ticks < timeSliceLen)
    (i : Slot) (hi : (s'.row i).status ≠ .free) :
    0 ≤ (s'.row i).ticks ∧ (s'.row i).ticks < timeSliceLen := by
  rw [hrow] at hi ⊢
  by_cases hix : i = x
  · rw [hix, Function.update_self] at hi ⊢
    exact hr hi
  · rw [Function.update_of_ne hix] at hi ⊢
    exact hs.range i hi

theorem tick_range (r : Row)
    (hr : 0 ≤ r.ticks ∧ r.ticks < timeSliceLen) :
    0 ≤ r.tick.ticks ∧ r.tick.ticks < timeSliceLen := by
  unfold Row.tick
  simp only [timeSliceLen] at hr ⊢
  split
  · omega
  · omega

/-- A step leaves the counters of all processes in use in range. -/
theorem Sliced.rangeStep (hs : Sliced h s c) (ho : Ordered s q c)
    (hrow : op.Rows c s s') : ∀ i, (s'.row i).status ≠ .free →
      0 ≤ (s'.row i).ticks ∧ (s'.row i).ticks < timeSliceLen := by
  have hc : (s.row c).status ≠ .free := by
    rw [show (s.row c).status = .ready from ho.running.ready]
    exact nofun
  have hzero : (0 : Int) ≤ 0 ∧ (0 : Int) < timeSliceLen := by decide
  have hsame : s'.row = s.row → ∀ i, (s'.row i).status ≠ .free →
      0 ≤ (s'.row i).ticks ∧ (s'.row i).ticks < timeSliceLen := by
    intro hrow
    rw [hrow]
    exact hs.range
  cases op with
  | tick => exact hs.rangeUpdate hrow fun _ => tick_range _ (hs.range c hc)
  | yield => exact hsame hrow
  | fork =>
      obtain ⟨x, _, hrow⟩ := hrow
      exact hs.rangeUpdate hrow fun _ => hzero
  | exit => exact hs.rangeUpdate hrow fun _ => hs.range c hc
  | wait pid =>
      rcases hrow with ⟨hrow, _⟩ | ⟨x, _, hrow⟩
      · exact hsame hrow
      · exact hs.rangeUpdate hrow fun _ => hzero
  | exec image => exact hs.rangeUpdate hrow fun _ => hzero
  | allocate => exact hsame hrow
  | free va => exact hsame hrow
  | fault mcause stval => exact hsame hrow
  | store va b => exact hsame hrow

/-- Within a slice, the counter of the running process keeps up. -/
theorem Sliced.countStep (hs : Sliced h s c) (ho : Ordered s q c)
    (hrow : op.Rows c s s') (hop : op.ExecsFresh s)
    (hstay : ¬ op.CallsSchedule c s) :
    ((sliceTicks h + op.ticks : Nat) : Int) ≤ (s'.row c).ticks := by
  have hcount := hs.counted
  have hready : (s.row c).status = .ready := ho.running.ready
  have hsame : op.ticks = 0 → s'.row c = s.row c →
      ((sliceTicks h + op.ticks : Nat) : Int) ≤ (s'.row c).ticks := by
    intro h0 hrow
    rw [h0, hrow]
    exact hcount
  cases op with
  | tick =>
      rw [show s'.row = _ from hrow, Function.update_self]
      have hstay : ¬ (s.row c).ticks + 1 ≥ timeSliceLen := hstay
      unfold Row.tick
      rw [if_neg hstay]
      show ((sliceTicks h + 1 : Nat) : Int) ≤ (s.row c).ticks + 1
      omega
  | yield => exact absurd trivial hstay
  | fork =>
      obtain ⟨x, hx, hrow⟩ := hrow
      have hcx : c ≠ x := by
        intro hcx
        have hfree : (s.row x).status = .free := freeSlot_status hx
        rw [← hcx, hready] at hfree
        cases hfree
      exact hsame rfl (by rw [hrow, Function.update_of_ne hcx])
  | exit => exact absurd trivial hstay
  | wait pid =>
      rcases hrow with ⟨hrow, _⟩ | ⟨x, hx, hrow⟩
      · exact hsame rfl (by rw [hrow])
      · have hcx : c ≠ x := by
          intro hcx
          have hz := hx.2
          rw [← hcx, hready] at hz
          cases hz
        exact hsame rfl (by rw [hrow, Function.update_of_ne hcx])
  | exec image =>
      -- the counter is reset, but it was 0
      rw [hop c ho.running.current] at hcount
      rw [show s'.row = _ from hrow, Function.update_self]
      exact hcount
  | allocate => exact hsame rfl (congrFun hrow c)
  | free va => exact hsame rfl (congrFun hrow c)
  | fault mcause stval => exact hsame rfl (congrFun hrow c)
  | store va b => exact hsame rfl (congrFun hrow c)

/-- The tick that ends a slice is within the bound too. -/
theorem Sliced.bounded (hs : Sliced h s c) (ho : Ordered s q c) :
    (sliceTicks h + op.ticks : Nat) ≤ timeSliceLen := by
  have hcount := hs.counted
  have hrange := hs.range c (by
    rw [show (s.row c).status = .ready from ho.running.ready]
    exact nofun)
  have hone : op.ticks ≤ 1 := by
    unfold Op.ticks
    split
    · exact Nat.le_refl 1
    · exact Nat.zero_le 1
  simp only [timeSliceLen] at hrange ⊢
  omega

/-- A step that meets the condition on exec keeps the invariant. -/
theorem Sliced.step {a : RoundRobin.Act Slot} (hs : Sliced h s c)
    (ho : Ordered s q c) (hst : Stepped op q c s s' a q' c')
    (ho' : Ordered s' q' c') (hop : op.ExecsFresh s) :
    Sliced (⟨op, s, s'⟩ :: h) s' c' := by
  have hrange := hs.rangeStep ho hst.rows
  refine ⟨hrange, ?_⟩
  have hiff : op.schedules s = true ↔ op.CallsSchedule c s :=
    Op.schedules_iff ho.running.current
  show ((if op.schedules s then 0 else sliceTicks h + op.ticks : Nat) : Int)
    ≤ (s'.row c').ticks
  by_cases hsched : op.schedules s = true
  · -- whoever was dispatched, its counter is not negative
    rw [if_pos hsched]
    refine (hrange c' ?_).1
    rw [show (s'.row c').status = .ready from ho'.running.ready]
    exact nofun
  · rw [if_neg hsched]
    have hstay : ¬ op.CallsSchedule c s := fun hc => hsched (hiff.mpr hc)
    rw [hst.stays.resolve_left hstay]
    exact hs.countStep ho hst.rows hop hstay

-- ==== whole runs

/-- In every run in which exec is called at the start of a time slice
only, no process receives more than TIME_SLICE_LEN ticks between its
dispatch and the next call of `schedule`. -/
theorem time_slice_bounded
    (hrun : KernelRun anyEvent cfg Op.ExecsFresh h s) : SliceBounded h := by
  have hinv : SliceBounded h ∧ ∃ q c, Ordered s q c ∧ Sliced h s c := by
    refine hrun.invariant (I := fun h s =>
      SliceBounded h ∧ ∃ q c, Ordered s q c ∧ Sliced h s c) ?_ ?_
    · intro _ _
      refine ordered_boot.mono fun _ s' hres => ?_
      obtain ⟨ho, hticks, hrow⟩ := hres
      refine ⟨trivial, [], 0, ho, fun i hi => ?_, ?_⟩
      · have hst : (s'.row i).status = if i = 0 then .ready else .free :=
          (congrArg Row.status (hrow i) :)
        have hi0 : i = 0 := by
          by_contra hne
          rw [hst, if_neg hne] at hi
          exact hi rfl
        rw [hi0, hticks]
        decide
      · rw [hticks]
        exact Int.le_refl 0
    · intro h s op hinv hop
      obtain ⟨hb, q, c, ho, hs⟩ := hinv
      refine (ho.step op).mono fun _ s' hres => ?_
      obtain ⟨a, q', c', hst, ho'⟩ := hres
      exact ⟨⟨hs.bounded ho, hb⟩, q', c', ho', hs.step ho hst ho' hop⟩
  exact hinv.1

/-- Such a run: a process forks, execs and uses up its slice, and its child
gets a tick. -/
theorem time_slice_bounded_slices : ∃ h s,
    ops h = [.tick, .tick, .tick, .exec (tinyImage 0x10000), .fork] ∧
    KernelRun anyEvent (tinyMachine 0x10000) Op.ExecsFresh h s ∧
      SliceBounded h := by
  obtain ⟨s₀, hA₀, ht₀, -⟩ := plainRun_boot (b := false) tinyImage_low (by decide)
  obtain ⟨s₁, hA₁, x, hx, hrow₁⟩ :=
    PlainRun.forkRows (n := 31975) (x := 1) hA₀ (by decide) (by decide)
  obtain rfl : x = 1 :=
    Option.some.inj (hx.symm.trans (hA₀.freeSlot.trans (by decide)))
  have hparent : (s₁.row 0).ticks = 0 := by
    rw [hrow₁, Function.update_of_ne (by decide), ht₀]
  have hchild : (s₁.row 1).ticks = 0 := by rw [hrow₁, Function.update_self]; rfl
  obtain ⟨s₂, hA₂, hrow₂⟩ := PlainRun.exec (n := 31962) hA₁ tinyImage_low rfl
    (by decide) (by simp)
  have ht₂ : (s₂.row 0).ticks = 0 := by rw [hrow₂, Function.update_self]
  obtain ⟨s₃, hA₃, hrow₃⟩ := hA₂.tick (by rw [ht₂]; decide)
  have ht₃ : (s₃.row 0).ticks = 1 := by rw [hrow₃, Function.update_self, ht₂]; rfl
  obtain ⟨s₄, hA₄, hrow₄⟩ := hA₃.lastTick (y := 1) (by rw [ht₃]; decide) rfl
  have ht₄ : (s₄.row 1).ticks = 0 := by
    rw [hrow₄, Function.update_of_ne (by decide), hrow₃,
      Function.update_of_ne (by decide), hrow₂, Function.update_of_ne (by decide), hchild]
  obtain ⟨s₅, hA₅, -⟩ := hA₄.tick (by rw [ht₄]; decide)
  have hrun := hA₅.guarded (C := Op.ExecsFresh) <| by
    have hfresh : ∀ c, s₁.current = some c → (s₁.row c).ticks = 0 := by
      intro c hc
      rw [hA₁.current] at hc
      cases hc
      exact hparent
    simp only [List.forall_mem_cons]
    exact ⟨trivial, trivial, trivial, hfresh, trivial, nofun⟩
  exact ⟨_, s₅, rfl, hrun, time_slice_bounded hrun⟩

/-- A process that execs between ticks gets a third tick before
`schedule` is called. -/
theorem time_slice_exec : ∃ h s,
    KernelRun anyEvent (tinyMachine 0x10000) anyOp h s ∧
      ¬ SliceBounded h := by
  have hone := tinyImage_low
  obtain ⟨s₀, hA₀, ht₀, -⟩ := plainRun_boot (b := false) tinyImage_low (by decide)
  obtain ⟨s₁, hA₁, -⟩ := hA₀.tick (by rw [ht₀]; decide)
  obtain ⟨s₂, hA₂, hrow₂⟩ := PlainRun.exec (n := 31987) hA₁ hone rfl (by decide)
    (by simp)
  have ht₂ : (s₂.row 0).ticks = 0 := by rw [hrow₂, Function.update_self]
  obtain ⟨s₃, hA₃, -⟩ := hA₂.tick (by rw [ht₂]; decide)
  obtain ⟨s₄, hA₄, hrow₄⟩ := PlainRun.exec (n := 31974) hA₃ hone rfl (by decide)
    (by simp)
  have ht₄ : (s₄.row 0).ticks = 0 := by rw [hrow₄, Function.update_self]
  obtain ⟨s₅, hA₅, -⟩ := hA₄.tick (by rw [ht₄]; decide)
  refine ⟨_, s₅, hA₅.any, fun hb => ?_⟩
  have hthree := hb.1
  simp only [sliceTicks, Op.schedules, Op.ticks, hA₀.current, hA₂.current,
    ht₀, ht₂, timeSliceLen] at hthree
  revert hthree
  decide

end Pke
