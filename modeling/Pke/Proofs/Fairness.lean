/-
Nobody starves, and the machine goes on for as long as somebody lives.

A process that is ready and does not run is in the queue, and a switch
takes the front of it, so with every switch there is one less in front of
a process that waits. At first there are less than NPROC. When the running
process exits, the queue is empty exactly if no other is alive.
-/
import Pke.Proofs.Plain

namespace Pke

open Traced

variable {cfg : Config} {s s' : Kernel} {c c' : Slot} {q q' : List Slot}
variable {h : List (Entry Kernel Op)} {op : Op} {a : RoundRobin.Act Slot}

/-- Process `i` is ready, and neither before nor after the step it runs. -/
def WaitsThrough (i : Slot) (e : Entry Kernel Op) : Prop :=
  (e.pre.procs i).status = .ready ∧ e.pre.current ≠ some i ∧
    e.post.current ≠ some i

instance (i : Slot) (e : Entry Kernel Op) : Decidable (WaitsThrough i e) :=
  inferInstanceAs (Decidable (_ ∧ _))

/-- The switches between others while `i` has been waiting. -/
def passedOver (i : Slot) : List (Entry Kernel Op) → Nat
  | [] => 0
  | e :: h =>
      if WaitsThrough i e then
        passedOver i h + if e.pre.current = e.post.current then 0 else 1
      else 0

/-- Who is in front of a process and who was add up to less than NPROC. -/
structure Fair (h : List (Entry Kernel Op)) (q : List Slot) : Prop where
  ahead : ∀ l i r, q = l ++ i :: r → l.length + passedOver i h < nproc
  others : ∀ i, i ∉ q → passedOver i h = 0

theorem Ordered.length_lt (ho : Ordered s q c) : q.length < nproc := by
  have hle := ho.distinct.length_le_card
  rw [Fintype.card_fin, List.length_cons] at hle
  exact hle

/-- Whoever waits through a step is in the queue before it. -/
theorem WaitsThrough.mem {i : Slot} {e : Entry Kernel Op} (hw : WaitsThrough i e)
    (ho : Ordered e.pre q c) : i ∈ q := by
  obtain ⟨hready, hpre, -⟩ := hw
  have hlive : Live e.pre i := by
    unfold Live
    rw [hready]
    exact ⟨ProcStatus.noConfusion, ProcStatus.noConfusion⟩
  rcases ho.running.queued.live i hlive with hmem | hmem
  · exact hmem
  · rw [List.mem_singleton.mp hmem] at hpre
    exact absurd ho.running.current hpre

theorem Fair.step (hf : Fair h q) (ho : Ordered s q c)
    (hst : Stepped op q c s s' a q' c') (ho' : Ordered s' q' c') :
    Fair (⟨op, s, s'⟩ :: h) q' := by
  constructor
  · intro l i r hq'
    rw [passedOver]
    by_cases hw : WaitsThrough i ⟨op, s, s'⟩
    · rw [if_pos hw]
      rcases hst.queue.ahead ho.distinct hq' with ⟨l₀, r₀, hq, hlen⟩ | hnew
      · have hold := hf.ahead l₀ i r₀ hq
        simp only [ho.running.current, ho'.running.current, Option.some_inj]
        rcases hlen with ⟨hlen, hrun⟩ | hlen
        · have hrun : c = c' := hrun
          rw [if_pos hrun]
          omega
        · split <;> omega
      · exact absurd (hw.mem ho) hnew
    · have hlt := ho'.length_lt
      rw [hq', List.length_append, List.length_cons] at hlt
      rw [if_neg hw]
      omega
  · intro i hi
    rw [passedOver, if_neg]
    intro hw
    rcases hst.queue.mem (hw.mem ho) with hmem | heq
    · exact hi hmem
    · have heq : i = c' := heq
      exact hw.2.2 (heq ▸ ho'.running.current)

/-- An exit hands over to the front of the queue, or shuts down. -/
theorem wp_exit_ends (cfg : Config) (ho : Ordered s q c) :
    Wp (fun _ => False) (fun e _ => q = [] ∧ e = .shutdown 0) (step cfg .exit)
      (fun _ s' => ∃ x t, q = x :: t ∧ s'.current = some x) s := by
  show Wp _ _ (sysUserExit cfg) _ s
  unfold sysUserExit freeProcess
  rw [wp_bind]
  refine wp_theCurrent ho.running.current ?_
  simp only [wp_bind, setProc, wp_modify]
  refine (wp_schedule_queued cfg (q := q) ?_ fun hq => ⟨hq, rfl⟩).mono ?_
  · refine ((ho.running.queued.write _ ho.apart).forget ?_).forget ?_
    · exact fun _ => Or.inr (List.mem_singleton_self c)
    · exact fun hlive => absurd (by simp) hlive.2
  · intro _ s' hres
    obtain ⟨x, t, hq, hrun⟩ := hres
    exact ⟨x, t, hq, hrun.current⟩

theorem Ordered.alone_iff (ho : Ordered s q c) :
    q = [] ↔ ∀ i, Live s i → s.current = some i := by
  constructor
  · rintro rfl i hi
    rcases ho.running.queued.live i hi with hmem | hmem
    · cases hmem
    · rw [List.mem_singleton.mp hmem]
      exact ho.running.current
  · intro hall
    cases q with
    | nil => rfl
    | cons x t =>
        have hready := ho.running.queued.ready x List.mem_cons_self
        have hx := hall x (by unfold Live; rw [hready]; decide)
        rw [ho.running.current] at hx
        cases hx
        exact absurd List.mem_cons_self ho.apart

/-- The process at the front of the queue is alive, and not the one that
runs. -/
theorem Ordered.front {x : Slot} {t : List Slot} (ho : Ordered s (x :: t) c) :
    Live s x ∧ s.current ≠ some x := by
  have hready := ho.running.queued.ready x List.mem_cons_self
  refine ⟨by unfold Live; rw [hready]; decide, fun hx => ?_⟩
  rw [ho.running.current] at hx
  cases hx
  exact ho.apart List.mem_cons_self

/-- After every run, an exit shuts the machine down if no other process is
alive; else it returns, and one of the others runs. `schedule` does not
panic for want of a process that is ready. -/
theorem exit_shuts_down_iff (hrun : KernelRun anyEvent cfg anyOp h s) :
    ((∃ es s', step cfg .exit s = (es, .halt (.shutdown 0) s')) ↔
      ∀ i, Live s i → s.current = some i) ∧
    ((∃ i, Live s i ∧ s.current ≠ some i) → Returns (step cfg .exit)
      (fun _ s' => ∃ i, Live s i ∧ s.current ≠ some i ∧ s'.current = some i) s) := by
  obtain ⟨q, c, ho⟩ := hrun.ordered
  have hends := wp_exit_ends cfg ho
  refine ⟨?_, fun ⟨i, hi, hne⟩ => ?_⟩
  · rw [← ho.alone_iff]
    unfold Wp at hends
    rcases hstep : step cfg .exit s with ⟨es, r⟩
    rw [hstep] at hends
    have hends := hends.resolve_left fun ⟨_, _, hbad⟩ => hbad
    cases r with
    | ok a s' =>
        obtain ⟨x, t, hq, -⟩ := hends
        refine ⟨fun hshut => ?_, fun hnil => ?_⟩
        · obtain ⟨_, _, heq⟩ := hshut
          cases heq
        · rw [hnil] at hq
          cases hq
    | halt e s' =>
        obtain ⟨hq, rfl⟩ := hends
        exact ⟨fun _ => hq, fun _ => ⟨es, s', rfl⟩⟩
  · have hq : q ≠ [] := fun hnil => hne (ho.alone_iff.mp hnil i hi)
    refine (hends.mono_halt fun _ _ he => hq he.1).mono fun _ s' hres => ?_
    obtain ⟨x, t, rfl, hx⟩ := hres
    exact ⟨x, ho.front.1, ho.front.2, hx⟩

/-- Who is alive, by the table. -/
theorem PlainRun.live {cfg : Config} {seg : SegType} {n k : Nat} {f : Table}
    (hA : PlainRun cfg seg n k h s f q c) (i : Slot) :
    Live s i ↔ (f i).1 ≠ .free ∧ (f i).1 ≠ .zombie := by
  rw [← hA.status i]
  rfl

theorem PlainRun.of_live {cfg : Config} {seg : SegType} {n k : Nat} {f : Table}
    {P : Slot → Prop} (hA : PlainRun cfg seg n k h s f q c)
    (hP : ∀ i, (f i).1 ≠ .free ∧ (f i).1 ≠ .zombie → P i) {i : Slot}
    (hi : Live s i) : P i := hP i ((hA.live i).mp hi)

/-- With a child alive the exit of the first process returns, and the child
runs; then its exit is the end. -/
theorem exit_shuts_down_two : ∃ h s s₁,
    KernelRun anyEvent (tinyMachine 0x10000) anyOp (⟨.exit, s, s₁⟩ :: h) s₁ ∧
    s.current = some 0 ∧ Live s 1 ∧
    Returns (step (tinyMachine 0x10000) .exit) (fun _ s' => s'.current = some 1) s ∧
    ∃ es s₂, step (tinyMachine 0x10000) .exit s₁ = (es, .halt (.shutdown 0) s₂) := by
  obtain ⟨s₀, hA₀, -⟩ := plainRun_boot (b := false) tinyImage_low (by decide)
  obtain ⟨s, hA⟩ := PlainRun.fork (n := 31975) (x := 1) hA₀ (by decide) (by decide)
  obtain ⟨s₁, hA₁⟩ := hA.exit
  have hchild : Live s 1 := (hA.live 1).mpr (by decide)
  have hreturns := (exit_shuts_down_iff hA.any).2
    ⟨1, hchild, by rw [hA.current]; decide⟩
  refine ⟨_, s, s₁, hA₁.any, hA.current, hchild, hreturns.mono fun _ s' hres => ?_,
    (exit_shuts_down_iff hA₁.any).1.mpr fun i hi => ?_⟩
  · obtain ⟨i, hi, hne, hcur⟩ := hres
    rcases hA.of_live (P := fun i => i = 0 ∨ i = 1) (by decide) hi with rfl | rfl
    · exact absurd hA.current hne
    · exact hcur
  · rw [hA₁.of_live (P := fun i => i = 1) (by decide) hi]
    exact hA₁.current

end Pke
