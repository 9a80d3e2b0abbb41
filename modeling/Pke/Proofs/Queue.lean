/-
The ready queue is a first-in first-out list.

The queue lives in the `queue_next` fields of the process table. The
pop leaves a stale link in the process it dispatches, `do_wait` clears
the link of a slot it reaps, and `alloc_process` hands out slots with
whatever link they had; none of this can be seen from the queue,
because all of it happens to processes that are not on it. `Queued`
is the joint invariant that says so:

- the links from `ready_queue_head` run through exactly `q` and end;
- everything on `q` is READY;
- every live process (neither FREE nor ZOMBIE) is on `q` or among the
  few named in `out`: the running process, or the child being forked.

The five operations move processes between `q` and `out`; the memory
side of each is quiet (Control.lean). The abstract machine is
`RoundRobin`, and `Op.Acts` says which of its acts each kernel entry
can cause.
-/
import Pke.Lib.Chain
import Pke.Lib.RoundRobin
import Pke.Proofs.Control
import Mathlib.Data.Fintype.Card

namespace Pke

open Traced Intrusive

/-- The ready queue holds exactly `q`, front first. -/
def ReadyQueue (s : Kernel) (q : List Slot) : Prop :=
  Chain (fun i => (s.procs i).queueNext) s.readyQueueHead q

/-- Neither unused nor terminated. -/
def Live (s : Kernel) (i : Slot) : Prop :=
  (s.procs i).status ≠ .free ∧ (s.procs i).status ≠ .zombie

/-- The queue is `q`, and the live processes off it are among `out`. -/
structure Queued (s : Kernel) (q out : List Slot) : Prop where
  chain : ReadyQueue s q
  ready : ∀ i ∈ q, (s.procs i).status = .ready
  live : ∀ i, Live s i → i ∈ q ∨ i ∈ out

variable {bad : Event → Prop} {E : Halt → Kernel → Prop}
variable {s s' : Kernel} {q t out : List Slot} {c h x : Slot}

-- ==== reading the view

theorem schedFields_eq (hv : schedView s' = schedView s) (i : Slot) :
    (s'.procs i).schedFields = (s.procs i).schedFields :=
  congrFun (congrArg Prod.fst hv) i

theorem status_eq (hv : schedView s' = schedView s) (i : Slot) :
    (s'.procs i).status = (s.procs i).status :=
  congrArg Prod.fst (schedFields_eq hv i)

theorem queueNext_eq (hv : schedView s' = schedView s) (i : Slot) :
    (s'.procs i).queueNext = (s.procs i).queueNext :=
  congrArg (fun f => f.2.1) (schedFields_eq hv i)

theorem current_eq (hv : schedView s' = schedView s) :
    s'.current = s.current := congrArg (fun v => v.2.1) hv

theorem readyQueueHead_eq (hv : schedView s' = schedView s) :
    s'.readyQueueHead = s.readyQueueHead := congrArg (fun v => v.2.2) hv

theorem ReadyQueue.congr (hv : schedView s' = schedView s)
    (hq : ReadyQueue s q) : ReadyQueue s' q := by
  unfold ReadyQueue at hq ⊢
  rw [readyQueueHead_eq hv]
  exact Chain.congr hq fun i _ => queueNext_eq hv i

theorem Queued.congr (hv : schedView s' = schedView s)
    (hq : Queued s q out) : Queued s' q out where
  chain := hq.chain.congr hv
  ready i hi := by rw [status_eq hv, hq.ready i hi]
  live i hi := by
    refine hq.live i ?_
    unfold Live at hi ⊢
    rwa [status_eq hv] at hi

/-- A queue without repetition fits the process table. -/
theorem ReadyQueue.length_le (hq : ReadyQueue s q) : q.length ≤ nproc := by
  have hcard := hq.nodup.length_le_card
  rwa [Fintype.card_fin] at hcard

-- ==== the tail walk

/-- The walk of `insert_to_ready_queue` finds `x` or ends at the last
element, and the table bounds its length. -/
theorem wp_findTail :
    ∀ fuel (p : Slot) rest, (p :: rest).length ≤ fuel →
      Chain (fun i => (s.procs i).queueNext) (some p) (p :: rest) →
      Wp bad E (findTail x fuel p) (fun o s' => s' = s ∧
        if x ∈ p :: rest then o = none
        else ∃ ini l, p :: rest = ini ++ [l] ∧ o = some l) s := by
  intro fuel
  induction fuel with
  | zero => intro p rest hlen; simp at hlen
  | succ fuel ih =>
      intro p rest hlen hc
      simp only [findTail, proc, wp_bind, wp_get, wp_pure]
      cases rest with
      | nil =>
          have hend : (s.procs p).queueNext = none := hc.2
          rw [hend]
          simp only [wp_pure, List.mem_singleton, true_and]
          by_cases hpx : p = x
          · simp [hpx]
          · rw [if_neg hpx, if_neg fun hxp => hpx hxp.symm]
            exact ⟨[], p, rfl, rfl⟩
      | cons p' rest =>
          have hnext : (s.procs p).queueNext = some p' := hc.2.1
          rw [hnext]
          by_cases hpx : p = x
          · simp [hpx]
          · simp only [if_neg hpx]
            have hlen' : (p' :: rest).length ≤ fuel := by
              simp only [List.length_cons] at hlen ⊢
              omega
            refine (ih p' rest hlen' ⟨rfl, hc.2.2⟩).mono fun o s' hres => ?_
            obtain ⟨rfl, hres⟩ := hres
            refine ⟨rfl, ?_⟩
            have hmem : x ∈ p :: p' :: rest ↔ x ∈ p' :: rest := by
              rw [List.mem_cons]
              exact or_iff_right fun hxp => hpx hxp.symm
            simp only [hmem]
            split at hres
            case isTrue hin => rw [if_pos hin]; exact hres
            case isFalse hout =>
              rw [if_neg hout]
              obtain ⟨ini, l, hini, ho⟩ := hres
              exact ⟨p :: ini, l, by rw [hini]; rfl, ho⟩

-- ==== what queueing leaves alone

/-- A process without the two fields the queue code writes. -/
def Process.fixed (p : Process) : Process :=
  { p with status := .free, queueNext := none }

/-- An observation that cannot see the queue: neither its head nor the
two fields of a process it is kept in. -/
structure QueueBlind {γ : Type} (f : Kernel → γ) : Prop where
  head : ∀ s o, f { s with readyQueueHead := o } = f s
  fixed : ∀ s i p, p.fixed = (s.procs i).fixed →
    f { s with procs := Function.update s.procs i p } = f s

theorem keeps_proc {γ : Type} {P : Halt → Prop} {f : Kernel → γ} (i : Slot) :
    Keeps P f (proc i) := keeps_bind keeps_get fun _ => keeps_pure _

theorem keeps_findTail {γ : Type} {f : Kernel → γ} (x : Slot) :
    ∀ fuel p, Keeps (fun _ => True) f (findTail x fuel p) := by
  intro fuel
  induction fuel with
  | zero => intro p; exact keeps_halt trivial
  | succ fuel ih =>
      intro p
      refine keeps_bind (keeps_proc p) fun q => ?_
      cases q.queueNext with
      | none => exact keeps_pure _
      | some p' => exact keeps_ite (keeps_pure _) (ih p')

theorem keeps_insertToReadyQueue {γ : Type} {f : Kernel → γ}
    (hf : QueueBlind f) (x : Slot) :
    Keeps (fun _ => True) f (insertToReadyQueue x) := by
  have hset : ∀ (i : Slot) (g : Process → Process),
      (∀ q, (g q).fixed = q.fixed) → Keeps (fun _ => True) f (setProc i g) :=
    fun i g hg => keeps_modify fun s => hf.fixed s i _ (hg _)
  have hready := hset x (fun q => { q with status := .ready }) fun _ => rfl
  have hlast := hset x (fun q => { q with queueNext := none }) fun _ => rfl
  refine keeps_bind keeps_get fun s => ?_
  cases s.readyQueueHead with
  | none =>
      refine keeps_bind hready fun _ => keeps_bind hlast fun _ => ?_
      exact keeps_modify fun s => hf.head s _
  | some h =>
      refine keeps_bind (keeps_findTail x nproc h) fun o => ?_
      cases o with
      | none => exact keeps_pure _
      | some last =>
          have hlink := hset last (fun q => { q with queueNext := some x })
            fun _ => rfl
          exact keeps_bind hlink fun _ => keeps_bind hready fun _ => hlast

/-- An observation the switch to another process does not show in. -/
structure SwitchBlind {γ : Type} (f : Kernel → γ) : Prop where
  mem : ∀ s m, f { s with mem := m } = f s
  current : ∀ s o, f { s with current := o } = f s
  head : ∀ s o, f { s with readyQueueHead := o } = f s
  csr : ∀ s r, f { s with csr := r } = f s

theorem keeps_switchTo {γ : Type} {f : Kernel → γ} (hf : SwitchBlind f)
    (cfg : Config) (i : Slot) : Keeps (fun _ => True) f (switchTo cfg i) := by
  have hsd : ∀ a v, Keeps (fun _ => True) f (sd a v) :=
    fun a v => keeps_modify fun s => hf.mem s _
  refine keeps_bind (keeps_modify fun s => hf.current s _) fun _ => ?_
  refine keeps_bind (keeps_modify fun s => hf.csr s _) fun _ => ?_
  refine keeps_bind (keeps_proc i) fun p => keeps_bind keeps_get fun s => ?_
  refine keeps_bind (hsd _ _) fun _ => keeps_bind (hsd _ _) fun _ => ?_
  refine keeps_bind (hsd _ _) fun _ => ?_
  refine keeps_bind (keeps_modify fun s => hf.csr s _) fun _ => ?_
  refine keeps_bind (keeps_bind keeps_get fun _ => keeps_pure _) fun _ => ?_
  exact keeps_modify fun s => hf.csr s _

theorem keeps_schedule {γ : Type} {f : Kernel → γ} (hf : SwitchBlind f)
    (cfg : Config) : Keeps (fun _ => True) f (schedule cfg) := by
  refine keeps_bind keeps_get fun s => ?_
  cases s.readyQueueHead with
  | none => exact keeps_ite (keeps_halt trivial) (keeps_halt trivial)
  | some h =>
      refine keeps_bind (keeps_modify fun s => hf.current s _) fun _ => ?_
      refine keeps_bind (keeps_proc h) fun p => ?_
      refine keeps_ite (keeps_halt trivial) ?_
      refine keeps_bind (keeps_modify fun s => hf.head s _) fun _ => ?_
      exact keeps_switchTo hf cfg h

/-- The process table and the accounts. -/
def tables (s : Kernel) : (Slot → Process) × (Slot → Account) :=
  (s.procs, s.acct)

theorem tables_switch : SwitchBlind tables :=
  ⟨fun _ _ => rfl, fun _ _ => rfl, fun _ _ => rfl, fun _ _ => rfl⟩

theorem hostFiles_switch : SwitchBlind Kernel.hostFiles :=
  ⟨fun _ _ => rfl, fun _ _ => rfl, fun _ _ => rfl, fun _ _ => rfl⟩

theorem hostFiles_queue : QueueBlind Kernel.hostFiles :=
  ⟨fun _ _ => rfl, fun _ _ _ _ => rfl⟩

-- ==== insertion

/-- `s'` is `s` with `x` appended to the queue `q`. -/
structure Enqueued (s s' : Kernel) (q : List Slot) (x : Slot) : Prop where
  chain : ReadyQueue s' (q ++ [x])
  status : ∀ i, (s'.procs i).status
    = if i = x then .ready else (s.procs i).status
  current : s'.current = s.current

/-- `insert_to_ready_queue` appends at the tail, or does nothing if the
process is queued already. -/
theorem wp_insertToReadyQueue (hq : ReadyQueue s q) :
    Wp bad E (insertToReadyQueue x)
      (fun _ s' => if x ∈ q then s' = s else Enqueued s s' q x) s := by
  have hhead := hq.head_eq
  simp only [insertToReadyQueue, wp_bind, wp_get]
  cases q with
  | nil =>
      rw [hhead]
      simp only [List.head?_nil, wp_bind, wp_modify, setProc,
        List.not_mem_nil, if_false]
      refine ⟨⟨rfl, ?_⟩, fun i => ?_, rfl⟩
      · simp
      · by_cases hi : i = x
        · subst hi; simp
        · simp [hi]
  | cons p rest =>
      rw [hhead]
      simp only [List.head?_cons, wp_bind]
      have hc : Chain (fun i => (s.procs i).queueNext) (some p) (p :: rest) :=
        ⟨rfl, hq.2⟩
      refine (wp_findTail nproc p rest hq.length_le hc).mono fun o s' hres => ?_
      obtain ⟨rfl, hres⟩ := hres
      split at hres
      case isTrue hin =>
        rw [hres]
        simp only [wp_pure, if_pos hin]
      case isFalse hout =>
        obtain ⟨ini, l, hini, rfl⟩ := hres
        simp only [wp_bind, wp_modify, setProc, if_neg hout]
        have hxl : x ≠ l := by
          intro hxl
          rw [hini, hxl] at hout
          exact hout (by simp)
        rw [hini] at hc hout ⊢
        refine ⟨?_, fun i => ?_, rfl⟩
        · -- three field writes, one append of the chain
          have happ := Chain.snoc hc hout
          unfold ReadyQueue
          rw [List.append_assoc]
          show Chain _ s'.readyQueueHead (ini ++ [l, x])
          rw [hhead]
          refine happ.congr fun i _ => ?_
          by_cases hix : i = x
          · subst hix; simp
          · by_cases hil : i = l
            · subst hil; simp [hix]
            · simp [hix, hil]
        · by_cases hix : i = x
          · subst hix; simp
          · by_cases hil : i = l
            · subst hil; simp [hix]
            · simp [hix, hil]

/-- Queueing a process that was off the queue. -/
theorem Queued.enqueue (hq : Queued s q (x :: out))
    (he : Enqueued s s' q x) : Queued s' (q ++ [x]) out where
  chain := he.chain
  ready i hi := by
    rw [he.status]
    split
    case isTrue => rfl
    case isFalse hix =>
      rcases List.mem_append.mp hi with hi | hi
      · exact hq.ready i hi
      · exact absurd (List.mem_singleton.mp hi) hix
  live i hi := by
    by_cases hix : i = x
    · exact Or.inl (by simp [hix])
    · have hold : Live s i := by
        unfold Live at hi ⊢
        rwa [he.status, if_neg hix] at hi
      rcases hq.live i hold with hmem | hmem
      · exact Or.inl (List.mem_append_left _ hmem)
      · rcases List.mem_cons.mp hmem with rfl | hmem
        · exact absurd rfl hix
        · exact Or.inr hmem

/-- Writing a process that is off the queue leaves the queue as it is;
the process has to be kept track of. -/
theorem Queued.write (hq : Queued s q out) (p : Process) (hx : x ∉ q) :
    Queued { s with procs := Function.update s.procs x p } q
      (x :: out) where
  chain := by
    refine Chain.congr hq.chain fun i hi => ?_
    have hix : i ≠ x := fun hix => hx (hix ▸ hi)
    simp only [Function.update_of_ne hix]
  ready i hi := by
    have hix : i ≠ x := fun hix => hx (hix ▸ hi)
    simp only [Function.update_of_ne hix]
    exact hq.ready i hi
  live i hi := by
    by_cases hix : i = x
    · exact Or.inr (by simp [hix])
    · unfold Live at hi
      simp only [Function.update_of_ne hix] at hi
      exact (hq.live i hi).imp_right (List.mem_cons_of_mem x)

/-- A process that is not live, or is accounted for otherwise, need not
be kept track of. -/
theorem Queued.forget (hq : Queued s q (x :: out))
    (hx : Live s x → x ∈ q ∨ x ∈ out) : Queued s q out where
  chain := hq.chain
  ready := hq.ready
  live i hi := by
    rcases hq.live i hi with hmem | hmem
    · exact Or.inl hmem
    · rcases List.mem_cons.mp hmem with rfl | hmem
      · exact hx hi
      · exact Or.inr hmem

-- ==== scheduling

/-- `c` runs, `q` waits, `out` are the live processes off the queue. -/
structure Active (s : Kernel) (q out : List Slot) (c : Slot) : Prop where
  queued : Queued s q out
  current : s.current = some c
  ready : (s.procs c).status = .ready

/-- User code of `c` runs and every other live process waits. -/
abbrev Running (s : Kernel) (q : List Slot) (c : Slot) : Prop :=
  Active s q [c] c

theorem Active.congr (hv : schedView s' = schedView s)
    (hr : Active s q out c) : Active s' q out c where
  queued := hr.queued.congr hv
  current := by rw [current_eq hv, hr.current]
  ready := by rw [status_eq hv, hr.ready]

theorem wp_switchTo (cfg : Config) :
    Wp bad E (switchTo cfg h) (fun _ s' => s'.procs = s.procs ∧
      s'.readyQueueHead = s.readyQueueHead ∧ s'.current = some h) s := by
  simp only [switchTo, proc, sd, ld, onMem, wp_bind, wp_modify, wp_get,
    wp_pure, and_self]

/-- `schedule` removes the head of the queue and runs it. -/
theorem wp_schedule (cfg : Config) (hq : ReadyQueue s (h :: t))
    (hready : (s.procs h).status = .ready) :
    Wp bad E (schedule cfg) (fun _ s' => s'.procs = s.procs ∧
      ReadyQueue s' t ∧ s'.current = some h) s := by
  have hhead : s.readyQueueHead = some h := hq.1
  simp only [schedule, wp_bind, wp_get]
  rw [hhead]
  simp only [wp_bind, wp_modify, proc, wp_get, wp_pure, ne_eq, hready,
    not_true, if_false]
  refine (wp_switchTo cfg).mono fun _ s' hres => ?_
  obtain ⟨hprocs, hrq, hcur⟩ := hres
  refine ⟨hprocs, ?_, hcur⟩
  unfold ReadyQueue
  rw [hprocs, hrq]
  exact hq.2

/-- With nobody queued and nobody live, `schedule` shuts down. -/
theorem wp_schedule_empty (cfg : Config) {Q : Unit → Kernel → Prop}
    (hq : Queued s [] []) (hE : E (.shutdown 0) s) :
    Wp bad E (schedule cfg) Q s := by
  have hhead : s.readyQueueHead = none := hq.chain
  have hdone : allDone s = true := by
    unfold allDone
    rw [List.all_eq_true]
    intro i _
    rw [decide_eq_true_eq]
    by_contra hlive
    rcases hq.live i (not_or.mp hlive) with hmem | hmem
    · exact List.not_mem_nil hmem
    · exact List.not_mem_nil hmem
  simp only [schedule, wp_bind, wp_get]
  rw [hhead]
  simp only [hdone, if_true, wp_halt]
  exact hE

/-- `schedule` with every live process queued: the head runs, or the
machine shuts down because there is none. -/
theorem wp_schedule_queued (cfg : Config) (hq : Queued s q [])
    (hE : q = [] → E (.shutdown 0) s) :
    Wp bad E (schedule cfg)
      (fun _ s' => ∃ h t, q = h :: t ∧ Running s' t h) s := by
  cases q with
  | nil => exact wp_schedule_empty cfg hq (hE rfl)
  | cons h t =>
      have hready := hq.ready h (List.mem_cons_self ..)
      refine (wp_schedule cfg hq.chain hready).mono fun _ s' hres => ?_
      obtain ⟨hprocs, hchain, hcur⟩ := hres
      refine ⟨h, t, rfl, ⟨hchain, fun i hi => ?_, fun i hi => ?_⟩, hcur, ?_⟩
      · rw [hprocs]
        exact hq.ready i (List.mem_cons_of_mem _ hi)
      · have hold : Live s i := by
          unfold Live at hi ⊢
          rwa [hprocs] at hi
        rcases hq.live i hold with hmem | hmem
        · rcases List.mem_cons.mp hmem with rfl | hmem
          · exact Or.inr (List.mem_singleton_self _)
          · exact Or.inl hmem
        · exact absurd hmem List.not_mem_nil
      · rw [hprocs]
        exact hready

-- ==== the operations

/-- A halt the scheduler is not to blame for, in any state. -/
def benignHalt : Halt → Kernel → Prop := fun e _ => e.benign

theorem benign_shutdown : (Halt.shutdown 0).benign := by
  refine ⟨?_, ?_, ?_, ?_⟩
  · unfold waitPanic; simp
  · unfold readyAssert; simp
  · simp
  · simp

theorem wp_theCurrent {Q : Slot → Kernel → Prop}
    (hcur : s.current = some c) (hQ : Q c s) : Wp bad E theCurrent Q s := by
  simp only [theCurrent, wp_bind, wp_get]
  rw [hcur]
  simp only [wp_pure]
  exact hQ

/-- A program that leaves the rows alone as well. -/
theorem Leaves.rows {α : Type} {m : K α} (hm : Leaves slotView m)
    (hr : Active s q out c) : Wp bad benignHalt m
      (fun _ s' => Active s' q out c ∧ s'.row = s.row) s :=
  hm.wp_self (fun _ _ he _ => he) fun _ _ hv =>
    ⟨hr.congr (congrArg Prod.fst hv), congrArg Prod.snd hv⟩

/-- A program whose outcome does not matter. -/
theorem Leaves.past {α β γ : Type} {f : Kernel → γ} {m : K α}
    {k : α → K β} {Q : β → Kernel → Prop} (hm : Leaves f m)
    (hk : ∀ a s', Wp bad benignHalt (k a) Q s') :
    Wp bad benignHalt (m >>= k) Q s := by
  rw [wp_bind]
  exact hm.wp_self (fun _ _ he _ => he) fun a s' _ => hk a s'

theorem row_of_fixed {i : Slot}
    (hf : (s'.procs i).fixed = (s.procs i).fixed) (ha : s'.acct = s.acct) :
    s'.row i = { s.row i with status := (s'.procs i).status } := by
  have hparent : (s'.procs i).parent = (s.procs i).parent :=
    (congrArg Process.parent hf :)
  have hpid : (s'.procs i).pid = (s.procs i).pid :=
    (congrArg Process.pid hf :)
  simp only [Kernel.row, hparent, hpid, ha]

/-- What queueing writes, in terms of rows. -/
def offQueue (s : Kernel) : (Slot → Process) × (Slot → Account) :=
  (fun i => (s.procs i).fixed, s.acct)

theorem offQueue_blind : QueueBlind offQueue where
  head _ _ := rfl
  fixed s i p hp := by
    unfold offQueue
    simp only [Prod.mk.injEq, and_true]
    funext j
    by_cases hj : j = i
    · subst hj
      rw [Function.update_self, hp]
    · rw [Function.update_of_ne hj]

theorem Enqueued.rows (he : Enqueued s s' q x)
    (hv : offQueue s' = offQueue s) :
    s'.row = Function.update s.row x { s.row x with status := .ready } := by
  funext i
  rw [row_of_fixed (congrFun (congrArg Prod.fst hv) i)
    (congrArg Prod.snd hv), he.status]
  by_cases hi : i = x
  · subst hi
    rw [if_pos rfl, Function.update_self]
  · rw [if_neg hi, Function.update_of_ne hi]
    rfl

theorem row_of_tables (hv : tables s' = tables s) : s'.row = s.row := by
  have hprocs : s'.procs = s.procs := congrArg Prod.fst hv
  have hacct : s'.acct = s.acct := congrArg Prod.snd hv
  funext i
  simp only [Kernel.row, hprocs, hacct]

/-- The running process to the back, the front one runs. -/
theorem wp_rotate (cfg : Config) (hr : Running s q c) (hc : c ∉ q) :
    Wp bad benignHalt (do insertToReadyQueue c; schedule cfg)
      (fun _ s' => s'.row = s.row ∧
        ∃ h t, q ++ [c] = h :: t ∧ Running s' t h) s := by
  rw [wp_bind]
  refine ((keeps_insertToReadyQueue offQueue_blind c).wp
    (wp_insertToReadyQueue hr.queued.chain)).mono fun _ s₁ hres => ?_
  obtain ⟨hins, hv⟩ := hres
  rw [if_neg hc] at hins
  have hrow : s₁.row = s.row := by
    rw [hins.rows hv]
    have hready : { s.row c with status := .ready } = s.row c := by
      simp only [Kernel.row, hr.ready]
    rw [hready, Function.update_eq_self]
  refine ((keeps_schedule tables_switch cfg).wp (wp_schedule_queued cfg
    (hr.queued.enqueue hins) fun hnil => absurd hnil (by simp))).mono ?_
  intro _ s₂ hres
  exact ⟨(row_of_tables hres.2).trans hrow, hres.1⟩

theorem wp_sysUserYield (cfg : Config) (hr : Running s q c) (hc : c ∉ q) :
    Wp bad benignHalt (sysUserYield cfg) (fun _ s' => s'.row = s.row ∧
      ∃ h t, q ++ [c] = h :: t ∧ Running s' t h) s := by
  unfold sysUserYield
  rw [wp_bind]
  exact wp_theCurrent hr.current (wp_rotate cfg hr hc)

/-- Writing an account, as a change of its row. -/
theorem row_setAcct (f : Account → Account) (g : Row → Row)
    (hg : ∀ s : Kernel, { s.row x with ticks := (f (s.acct x)).tickCount }
      = g (s.row x)) :
    Kernel.row { s with acct := Function.update s.acct x (f (s.acct x)) }
      = Function.update s.row x (g (s.row x)) := by
  funext i
  by_cases hi : i = x
  · subst hi
    rw [Function.update_self, ← hg]
    simp only [Kernel.row, Function.update_self]
  · simp only [Kernel.row, Function.update_of_ne hi]

/-- Writing a process, as a change of its row. -/
theorem row_setProc (f : Process → Process) (g : Row → Row)
    (hg : ∀ s : Kernel, { s.row x with
      status := (f (s.procs x)).status, parent := (f (s.procs x)).parent
      pid := (f (s.procs x)).pid } = g (s.row x)) :
    Kernel.row { s with procs := Function.update s.procs x (f (s.procs x)) }
      = Function.update s.row x (g (s.row x)) := by
  funext i
  by_cases hi : i = x
  · subst hi
    rw [Function.update_self, ← hg]
    simp only [Kernel.row, Function.update_self]
  · simp only [Kernel.row, Function.update_of_ne hi]

/-- The tick counter after a tick. -/
def Row.tick (r : Row) : Row :=
  { r with
    ticks := if r.ticks + 1 ≥ timeSliceLen then 0 else r.ticks + 1 }

/-- A timer tick counts, and rotates when the time slice is used up. -/
theorem wp_timerTick (cfg : Config) (hr : Running s q c) (hc : c ∉ q) :
    Wp bad benignHalt (timerTick cfg) (fun _ s' =>
      s'.row = Function.update s.row c (s.row c).tick ∧
      if (s.row c).ticks + 1 ≥ timeSliceLen then
        ∃ h t, q ++ [c] = h :: t ∧ Running s' t h
      else Running s' q c) s := by
  unfold timerTick rrsched
  rw [wp_bind, wp_modify, wp_bind]
  have hr₀ : Running { s with gTicks := s.gTicks + 1 } q c :=
    hr.congr (by rfl)
  refine wp_theCurrent hr₀.current ?_
  simp only [wp_bind, setAcct, wp_modify, wp_get, Function.update_self,
    Function.update_idem, wp_ite]
  refine ⟨fun hslice => ?_, fun hslice => ?_⟩
  · rw [← wp_bind]
    refine Wp.mono (wp_rotate cfg (hr.congr (by rfl)) hc) fun _ s' hres => ?_
    obtain ⟨hrow, hrot⟩ := hres
    have hslice' : (s.row c).ticks + 1 ≥ timeSliceLen := hslice
    rw [if_pos hslice']
    refine ⟨hrow.trans ?_, hrot⟩
    unfold Row.tick
    rw [if_pos hslice']
    exact row_setAcct (fun a => { a with
        tickCount := 0, totalTickCount := a.totalTickCount + 1 })
      (fun r => { r with ticks := 0 }) fun _ => rfl
  · have hslice' : ¬ (s.row c).ticks + 1 ≥ timeSliceLen := hslice
    rw [wp_pure, if_neg hslice']
    refine ⟨?_, hr₀.congr (by rfl)⟩
    unfold Row.tick
    rw [if_neg hslice']
    exact row_setAcct (fun a => { a with
        tickCount := a.tickCount + 1
        totalTickCount := a.totalTickCount + 1 })
      (fun r => { r with ticks := r.ticks + 1 }) fun _ => rfl

/-- Writing to a process that neither runs nor waits. -/
theorem wp_setProc_off {f : Process → Process} (g : Row → Row)
    (hg : ∀ s : Kernel, { s.row x with
      status := (f (s.procs x)).status, parent := (f (s.procs x)).parent
      pid := (f (s.procs x)).pid } = g (s.row x))
    (hr : Active s q out c) (hx : x ∉ c :: q) :
    Wp bad E (setProc x f) (fun _ s' => Active s' q (x :: out) c ∧
      s'.row = Function.update s.row x (g (s.row x))) s := by
  rw [List.mem_cons, not_or] at hx
  simp only [setProc, wp_modify]
  refine ⟨⟨hr.queued.write _ hx.2, hr.current, ?_⟩, row_setProc f g hg⟩
  simp only [Function.update_of_ne fun hcx => hx.1 hcx.symm]
  exact hr.ready

/-- Resetting the tick counter of a process. -/
theorem wp_resetAcct {f : Account → Account} (hr : Active s q out c)
    (hf : ∀ a, (f a).tickCount = 0) :
    Wp bad E (setAcct x f) (fun _ s' => Active s' q out c ∧
      s'.row = Function.update s.row x { s.row x with ticks := 0 }) s := by
  simp only [setAcct, wp_modify]
  refine ⟨hr.congr (by rfl), row_setAcct f (fun r => { r with ticks := 0 }) ?_⟩
  intro s
  rw [hf]

/-- Exit: the caller is terminated and the front process runs. -/
theorem wp_sysUserExit (cfg : Config) (hr : Running s q c) (hc : c ∉ q) :
    Wp bad benignHalt (sysUserExit cfg) (fun _ s' =>
      s'.row = Function.update s.row c { s.row c with status := .zombie } ∧
      ∃ h t, q = h :: t ∧ Running s' t h) s := by
  unfold sysUserExit freeProcess
  rw [wp_bind]
  refine wp_theCurrent hr.current ?_
  simp only [wp_bind, setProc, wp_modify]
  have hqueued : Queued { s with
      procs := (Function.update s.procs c
        { s.procs c with status := .zombie }) } q [] := by
    refine ((hr.queued.write _ hc).forget ?_).forget ?_
    · exact fun _ => Or.inr (List.mem_singleton_self c)
    · exact fun hlive => absurd (by simp) hlive.2
  refine ((keeps_schedule tables_switch cfg).wp (wp_schedule_queued cfg hqueued
    fun _ => benign_shutdown)).mono fun _ s' hres => ?_
  exact ⟨(row_of_tables hres.2).trans (row_setProc
    (fun q => { q with status := .zombie })
    (fun r => { r with status := .zombie }) fun _ => rfl), hres.1⟩

/-- The row of a slot that was reaped. -/
def Row.reap (r : Row) : Row :=
  { r with status := .free, parent := none, ticks := 0 }

/-- Reaping a terminated process. -/
theorem wp_reap (hr : Running s q c) (hz : (s.procs x).status = .zombie) :
    Wp bad benignHalt (reap x) (fun _ s' => Running s' q c ∧
      s'.row = Function.update s.row x (s.row x).reap) s := by
  have hxc : c ≠ x := by
    intro hcx
    rw [← hcx, hr.ready] at hz
    cases hz
  have hxq : x ∉ q := by
    intro hx
    rw [hr.queued.ready x hx] at hz
    cases hz
  have hx : x ∉ c :: q := by
    rw [List.mem_cons, not_or]
    exact ⟨hxc.symm, hxq⟩
  unfold reap
  rw [wp_bind]
  refine ((leaves_releasePages slot_blind x).rows hr).mono fun _ s₁ hres => ?_
  obtain ⟨hr₁, hrow₁⟩ := hres
  rw [wp_bind]
  refine (wp_setProc_off (fun r => { r with status := .free, parent := none })
    (fun _ => rfl) hr₁ hx).mono fun _ s₂ hres => ?_
  obtain ⟨hr₂, hrow₂⟩ := hres
  have hfree : (s₂.row x).status = .free := by
    rw [hrow₂, Function.update_self]
  have hr₃ : Running s₂ q c := ⟨hr₂.queued.forget fun hlive =>
    absurd hfree hlive.1, hr₂.current, hr₂.ready⟩
  refine (wp_resetAcct hr₃ fun _ => rfl).mono fun _ s₃ hres => ?_
  refine ⟨hres.1, ?_⟩
  rw [hres.2, hrow₂, Function.update_idem, Function.update_self, hrow₁]
  rfl

/-- The child `do_wait` looks for: a child of `c`, and the one asked for
if one was. -/
def Asked (s : Kernel) (c : Slot) (pid : Int) (i : Slot) : Prop :=
  (s.row i).parent = some c ∧ ¬ (pid > 0 ∧ pid ≠ (s.row i).pid)

/-- Process `x` is a terminated child that `do_wait` looks for. -/
def Reapable (s : Kernel) (c : Slot) (pid : Int) (x : Slot) : Prop :=
  Asked s c pid x ∧ (s.row x).status = .zombie

/-- With nothing to reap, the scan of `do_wait` changes nothing and says
whether it met a child. -/
theorem wp_waitLoop_idle {pid : Int} :
    ∀ slots havekids, (∀ i ∈ slots, ¬ Reapable s c pid i) →
      Wp bad E (waitLoop c pid slots havekids) (fun r s' => s' = s ∧
        ((r = -2 ∧ (havekids = true ∨ ∃ i ∈ slots, Asked s c pid i))
          ∨ (r = -1 ∧ havekids = false ∧ ∀ i ∈ slots, ¬ Asked s c pid i)))
        s := by
  intro slots
  induction slots with
  | nil =>
      intro havekids _
      refine (wp_pure _).mpr ⟨rfl, ?_⟩
      cases havekids with
      | true => exact Or.inl ⟨rfl, Or.inl rfl⟩
      | false =>
          exact Or.inr ⟨rfl, rfl, fun _ hi => absurd hi List.not_mem_nil⟩
  | cons i rest ih =>
      intro havekids hno
      have hrest : ∀ j ∈ rest, ¬ Reapable s c pid j :=
        fun j hj => hno j (List.mem_cons_of_mem _ hj)
      -- an entry that is not asked for leaves the answer to the rest
      have hskip : ¬ Asked s c pid i →
          Wp bad E (waitLoop c pid rest havekids) (fun r s' => s' = s ∧
            ((r = -2 ∧ (havekids = true ∨ ∃ j ∈ i :: rest, Asked s c pid j))
              ∨ (r = -1 ∧ havekids = false ∧
                ∀ j ∈ i :: rest, ¬ Asked s c pid j))) s := by
        intro hi
        refine (ih havekids hrest).mono fun r s' hres => ⟨hres.1, ?_⟩
        rcases hres.2 with ⟨hr, hkids⟩ | ⟨hr, hkids, hnone⟩
        · exact Or.inl ⟨hr, hkids.imp_right fun ⟨j, hj, ha⟩ =>
            ⟨j, List.mem_cons_of_mem _ hj, ha⟩⟩
        · exact Or.inr ⟨hr, hkids, List.forall_mem_cons.mpr ⟨hi, hnone⟩⟩
      simp only [waitLoop, proc, wp_bind, wp_get, wp_pure]
      split
      case isTrue hp => exact hskip fun ha => hp ha.1
      case isFalse hp =>
        split
        case isTrue hpid => exact hskip fun ha => ha.2 hpid
        case isFalse hpid =>
          have hi : Asked s c pid i := ⟨not_not.mp hp, hpid⟩
          have hz : (s.procs i).status ≠ .zombie :=
            fun hz => hno i (List.mem_cons_self ..) ⟨hi, hz⟩
          rw [if_neg hz]
          refine (ih true hrest).mono fun r s' hres => ⟨hres.1, Or.inl ?_⟩
          rcases hres.2 with ⟨hr, _⟩ | ⟨_, hkids, _⟩
          · exact ⟨hr, Or.inr ⟨i, List.mem_cons_self .., hi⟩⟩
          · exact absurd hkids (by decide)

/-- With something to reap, the scan of `do_wait` reaps one child it
looks for and returns its pid. -/
theorem wp_waitLoop_reap {pid : Int} {Q : Int → Kernel → Prop}
    (hreap : ∀ i, Reapable s c pid i →
      Wp bad E (reap i) (fun _ s' => Q (s.row i).pid s') s) :
    ∀ slots havekids, (∃ i ∈ slots, Reapable s c pid i) →
      Wp bad E (waitLoop c pid slots havekids) Q s := by
  intro slots
  induction slots with
  | nil => intro _ hex; obtain ⟨i, hi, _⟩ := hex; exact absurd hi List.not_mem_nil
  | cons i rest ih =>
      intro havekids hex
      have hrest : ¬ Reapable s c pid i → ∃ j ∈ rest, Reapable s c pid j := by
        intro hi
        obtain ⟨j, hj, hrj⟩ := hex
        rcases List.mem_cons.mp hj with rfl | hj
        · exact absurd hrj hi
        · exact ⟨j, hj, hrj⟩
      simp only [waitLoop, proc, wp_bind, wp_get, wp_pure]
      split
      case isTrue hp => exact ih _ (hrest fun hi => hp hi.1.1)
      case isFalse hp =>
        split
        case isTrue hpid => exact ih _ (hrest fun hi => hi.1.2 hpid)
        case isFalse hpid =>
          split
          case isTrue hz =>
            simp only [wp_bind, wp_pure]
            exact hreap i ⟨⟨not_not.mp hp, hpid⟩, hz⟩
          case isFalse hz => exact ih _ (hrest fun hi => hz hi.2)

/-- Wait reaps one terminated child or nothing; the queue cannot tell. -/
theorem wp_doWait {pid : Int} (hr : Running s q c) :
    Wp bad benignHalt (doWait pid) (fun _ s' => Running s' q c ∧
      ((s'.row = s.row ∧ ∀ i, ¬ Reapable s c pid i) ∨
        ∃ x, Reapable s c pid x ∧
          s'.row = Function.update s.row x (s.row x).reap)) s := by
  unfold doWait
  rw [wp_bind]
  refine wp_theCurrent hr.current ?_
  by_cases hex : ∃ i ∈ List.finRange nproc, Reapable s c pid i
  · refine wp_waitLoop_reap (fun i hi => ?_) _ _ hex
    refine (wp_reap hr hi.2).mono fun _ s' hres => ?_
    exact ⟨hres.1, Or.inr ⟨i, hi, hres.2⟩⟩
  · refine (wp_waitLoop_idle _ _ fun i hi hri => hex ⟨i, hi, hri⟩).mono ?_
    intro r s' hres
    rw [hres.1]
    exact ⟨hr, Or.inl ⟨rfl, fun i hri => hex ⟨i, List.mem_finRange i, hri⟩⟩⟩

/-- A slot found unused is off the queue and is not the running
process. -/
theorem Running.free_slot (hr : Running s q c)
    (hx : (s.procs x).status = .free) : x ∉ c :: q := by
  intro hmem
  rcases List.mem_cons.mp hmem with rfl | hmem
  · rw [hr.ready] at hx
    cases hx
  · rw [hr.queued.ready x hmem] at hx
    cases hx

theorem freeSlot_status (hf : freeSlot s = some x) :
    (s.procs x).status = .free := by
  have hfound := List.find?_some hf
  simpa using hfound

/-- A program that can only reset the time slice of `i`, and does. -/
theorem row_reset {i : Slot} (hv : slotViewOff i s' = slotViewOff i s)
    (hticks : (s'.row i).ticks = 0) :
    s'.row = Function.update s.row i { s.row i with ticks := 0 } := by
  funext j
  by_cases hj : j = i
  · subst hj
    have hfields := schedFields_eq (congrArg Prod.fst hv) j
    unfold Process.schedFields at hfields
    simp only [Prod.mk.injEq] at hfields
    rw [Function.update_self]
    simp only [Kernel.row, hfields] at hticks ⊢
    rw [hticks]
  · have hrow : (if j = i then none else some (s'.row j))
        = if j = i then none else some (s.row j) :=
      congrFun (congrArg Prod.snd hv) j
    rw [if_neg hj, if_neg hj, Option.some.injEq] at hrow
    rw [Function.update_of_ne hj, hrow]

theorem wp_setAcct_ticks {f : Account → Account} {i : Slot}
    (hf : ∀ a, (f a).tickCount = 0) :
    Wp bad E (setAcct i f) (fun _ s' => (s'.row i).ticks = 0) s := by
  simp only [setAcct, wp_modify, Kernel.row, Function.update_self]
  exact hf _

/-- A process is built with an unused time slice. -/
theorem wp_buildProcess_ticks (cfg : Config) (i : Slot) :
    Wp bad benignHalt (buildProcess cfg i)
      (fun _ s' => (s'.row i).ticks = 0) s := by
  have hf := slot_blind
  have hspace : Wp bad benignHalt (buildSpace cfg i)
      (fun _ s' => (s'.row i).ticks = 0) s := by
    unfold buildSpace
    refine (quiet_setAcct ..).past fun _ _ => ?_
    refine (leaves_allocPage hf).past fun _ _ => ?_
    refine (leaves_setProc hf (by intro _; rfl)).past fun _ _ => ?_
    refine (leaves_memset hf _ _ _).past fun _ _ => ?_
    refine (leaves_allocPage hf).past fun _ _ => ?_
    refine (leaves_setProc hf (by intro _; rfl)).past fun _ _ => ?_
    refine (leaves_memset hf _ _ _).past fun _ _ => ?_
    refine (leaves_allocPage hf).past fun _ _ => ?_
    refine (leaves_setProc hf (by intro _; rfl)).past fun _ _ => ?_
    refine (leaves_allocPage hf).past fun _ _ => ?_
    refine (leaves_sd hf _ _).past fun _ _ => ?_
    refine (leaves_allocPage hf).past fun _ _ => ?_
    refine (leaves_setProc hf (by intro _; rfl)).past fun _ _ => ?_
    refine (leaves_memset hf _ _ _).past fun _ _ => ?_
    refine (leaves_mapSystemRegions hf ..).past fun _ _ => ?_
    exact wp_setAcct_ticks fun _ => rfl
  -- the counter is not touched again
  unfold buildProcess
  rw [wp_bind]
  refine hspace.mono fun _ s₂ hticks => ?_
  have hrest : Leaves slotView (do
      let pfiles ← filesCreate cfg
      setProc i fun q => { q with pfiles := pfiles }) :=
    (leaves_filesCreate hf cfg).bind fun _ =>
      leaves_setProc hf (by intro _; rfl)
  refine hrest.wp_self (fun _ _ he _ => he) fun _ s' hv => ?_
  have hrow : s'.row i = s₂.row i := congrFun (congrArg Prod.snd hv) i
  rw [hrow, hticks]

/-- A free slot is taken and its time slice is unused; no other process
changes its row. -/
theorem wp_allocProcess_slot (cfg : Config) :
    Wp bad benignHalt (allocProcess cfg) (fun i s' =>
      schedView s' = schedView s ∧ freeSlot s = some i ∧
      s'.row = Function.update s.row i { s.row i with ticks := 0 }) s := by
  simp only [allocProcess, wp_bind, wp_get]
  cases hfree : freeSlot s with
  | none =>
      have hpanic : Quiet (panic (α := Slot)
        "cannot find any free process structure.\n") := leaves_panic (by decide)
      exact (wp_halt _).mpr (hpanic.run s).1
  | some i =>
      simp only [wp_bind, wp_pure]
      refine ((leaves_buildProcess (slotOff_blind i) cfg
        (slotOff_account i)).wp (wp_buildProcess_ticks cfg i)).mono ?_
      intro _ s' hres
      obtain ⟨hticks, hv⟩ := hres
      exact ⟨congrArg Prod.fst hv, trivial, row_reset hv hticks⟩

/-- The row of a new child of `c`. -/
def Row.child (r : Row) (c : Slot) : Row :=
  { r with status := .ready, parent := some c, ticks := 0 }

/-- Fork takes the first free slot, appends it to the queue and returns
its pid. -/
theorem wp_doFork (cfg : Config) (hr : Running s q c) :
    Wp bad benignHalt (doFork cfg c) (fun n s' =>
      ∃ child, child ∉ c :: q ∧ Running s' (q ++ [child]) c ∧
        freeSlot s = some child ∧ n = (s.row child).pid ∧
        s'.row = Function.update s.row child ((s.row child).child c)) s := by
  unfold doFork
  rw [wp_bind]
  refine (wp_allocProcess_slot cfg).mono fun child s₁ hres => ?_
  obtain ⟨hv, hfree, hrow₁⟩ := hres
  have hr₁ := hr.congr hv
  have hchild := hr.free_slot (freeSlot_status hfree)
  have hcq : child ∉ q := fun hmem => hchild (List.mem_cons_of_mem _ hmem)
  have hcc : c ≠ child := fun hcc => hchild (hcc ▸ List.mem_cons_self ..)
  rw [wp_bind]
  refine (Leaves.rows (leaves_proc c) hr₁).mono fun p s₂ hres => ?_
  obtain ⟨hr₂, hrow₂⟩ := hres
  have hcopy : Leaves slotView
      ((List.range p.totalMappedRegion).forM fun i => do
        let r ← getRegion p.mappedInfo i
        forkRegion c child r) :=
    keeps_forM fun i => (leaves_getRegion ..).bind fun r =>
      leaves_forkRegion slot_blind ..
  rw [wp_bind]
  refine (hcopy.rows hr₂).mono fun _ s₃ hres => ?_
  obtain ⟨hr₃, hrow₃⟩ := hres
  -- from here on the child is live, and tracked until it is queued
  rw [wp_bind]
  refine (wp_setProc_off (fun r => { r with status := .ready })
    (fun _ => rfl) hr₃ hchild).mono fun _ s₄ hres => ?_
  obtain ⟨hr₄, hrow₄'⟩ := hres
  have hrow₄ : s₄.row = Function.update s.row child
      { s.row child with status := .ready, ticks := 0 } := by
    rw [hrow₄', hrow₃, hrow₂, hrow₁, Function.update_idem,
      Function.update_self]
  simp only [wp_bind, proc, wp_get, wp_pure]
  refine ((leaves_sd slot_blind _ _).rows hr₄).mono fun _ s₅ hres => ?_
  obtain ⟨hr₅, hrow₅⟩ := hres
  refine (wp_setProc_off (fun r => { r with parent := some c })
    (fun _ => rfl) hr₅ hchild).mono fun _ s₆ hres => ?_
  obtain ⟨hr₆, hrow₆⟩ := hres
  refine (wp_resetAcct hr₆ fun _ => rfl).mono fun _ s₇ hres => ?_
  obtain ⟨hr₇, hrow₇'⟩ := hres
  have hrow₇ : s₇.row
      = Function.update s.row child ((s.row child).child c) := by
    rw [hrow₇', hrow₆, hrow₅, hrow₄]
    simp only [Function.update_idem, Function.update_self]
    rfl
  refine ((keeps_insertToReadyQueue offQueue_blind child).wp
    (wp_insertToReadyQueue hr₇.queued.chain)).mono fun _ s₈ hres => ?_
  obtain ⟨hins, hv₈⟩ := hres
  rw [if_neg hcq] at hins
  refine ⟨child, hchild, ⟨?_, ?_, ?_⟩, hfree, ?_, ?_⟩
  · refine (hr₇.queued.enqueue hins).forget fun _ => Or.inl ?_
    exact List.mem_append_right _ (List.mem_singleton_self child)
  · rw [hins.current, hr₇.current]
  · rw [hins.status, if_neg hcc, hr₇.ready]
  · show (s₄.row child).pid = (s.row child).pid
    rw [hrow₄, Function.update_self]
  · rw [hins.rows hv₈, hrow₇]
    simp only [Function.update_idem, Function.update_self]
    rfl

/-- Rebuilding a process gives it an unused time slice. -/
theorem wp_reallocProcess_ticks (cfg : Config) (i : Slot) :
    Wp bad benignHalt (reallocProcess cfg i)
      (fun _ s' => (s'.row i).ticks = 0) s := by
  have hf := slot_blind
  unfold reallocProcess
  refine (leaves_freeRegions hf i).past fun _ _ => ?_
  refine Leaves.past (leaves_proc i : Quiet _) fun _ _ => ?_
  refine (leaves_freePage hf _).past fun _ _ => ?_
  refine (leaves_allocPage hf).past fun _ _ => ?_
  refine (leaves_setProc hf (by intro _; rfl)).past fun _ _ => ?_
  refine (leaves_memset hf _ _ _).past fun _ _ => ?_
  refine (leaves_allocPage hf).past fun _ _ => ?_
  refine (leaves_setProc hf (by intro _; rfl)).past fun _ _ => ?_
  refine (leaves_memset hf _ _ _).past fun _ _ => ?_
  refine (leaves_allocPage hf).past fun _ _ => ?_
  refine (leaves_sd hf _ _).past fun _ _ => ?_
  refine (leaves_memset hf _ _ _).past fun _ _ => ?_
  refine (leaves_mapSystemRegions hf ..).past fun _ s₁ => ?_
  exact wp_setAcct_ticks fun _ => rfl

theorem wp_execImage (cfg : Config) (f : HostFile) (hr : Running s q c) :
    Wp bad benignHalt (execImage cfg f) (fun _ s' => Running s' q c ∧
      s'.row = Function.update s.row c { s.row c with ticks := 0 }) s := by
  unfold execImage
  rw [wp_bind]
  refine wp_theCurrent hr.current ?_
  rw [wp_bind]
  refine ((leaves_reallocProcess (slotOff_blind c) cfg
    (slotOff_account c)).wp (wp_reallocProcess_ticks cfg c)).mono ?_
  intro _ s₁ hres
  obtain ⟨hticks, hv⟩ := hres
  have hr₁ : Running s₁ q c := hr.congr (congrArg Prod.fst hv)
  rw [← row_reset hv hticks]
  exact (leaves_loadBincode slot_blind (fun _ _ => rfl) f c).rows hr₁

/-- A program that reads who runs and leaves the slots alone. -/
theorem wp_ofCurrent {α : Type} {k : Slot → K α} (hr : Running s q c)
    (hk : Leaves slotView (k c)) : Wp bad benignHalt (theCurrent >>= k)
      (fun _ s' => Running s' q c ∧ s'.row = s.row) s := by
  rw [wp_bind]
  exact wp_theCurrent hr.current (hk.rows hr)

theorem wp_sysUserAllocatePage (hr : Running s q c) :
    Wp bad benignHalt sysUserAllocatePage
      (fun _ s' => Running s' q c ∧ s'.row = s.row) s := by
  unfold sysUserAllocatePage
  rw [wp_bind]
  refine ((leaves_allocPage slot_blind).rows hr).mono fun pa s₁ hres => ?_
  rw [wp_bind, wp_get, wp_bind, wp_modify]
  -- the address stored is generalised, so that it is never evaluated
  have hr₂ : ∀ v, Running { s₁ with gUfreePage := v } q c :=
    fun v => hres.1.congr (by rfl)
  have hrow₂ : ∀ v, Kernel.row { s₁ with gUfreePage := v } = s.row :=
    fun _ => hres.2
  refine (wp_ofCurrent (hr₂ _) ?_).mono fun _ s' hres =>
    ⟨hres.1, hres.2.trans (hrow₂ _)⟩
  exact (leaves_proc c).bind fun _ => (leaves_userVmMap slot_blind ..).bind fun _ =>
    leaves_pure _

theorem wp_sysUserFreePage (va : Nat) (hr : Running s q c) :
    Wp bad benignHalt (sysUserFreePage va)
      (fun _ s' => Running s' q c ∧ s'.row = s.row) s := by
  refine wp_ofCurrent hr ?_
  exact (leaves_proc c).bind fun _ =>
    (leaves_userVmUnmap slot_blind ..).bind fun _ => leaves_pure _

theorem wp_handleUserPageFault (mcause stval : Nat) (hr : Running s q c) :
    Wp bad benignHalt (handleUserPageFault mcause stval)
      (fun _ s' => Running s' q c ∧ s'.row = s.row) s := by
  unfold handleUserPageFault
  rw [wp_ite]
  refine ⟨fun _ => ?_, fun _ => (wp_pure _).mpr ⟨hr, rfl⟩⟩
  rw [wp_bind]
  refine ((leaves_allocPage slot_blind).rows hr).mono fun pa s₁ hres => ?_
  rw [← hres.2]
  refine wp_ofCurrent hres.1 ?_
  exact (leaves_proc c).bind fun _ => leaves_userVmMap slot_blind ..

theorem wp_userStore (va : Nat) (b : UInt8) (hr : Running s q c) :
    Wp bad benignHalt (userStore va b)
      (fun _ s' => Running s' q c ∧ s'.row = s.row) s := by
  refine wp_ofCurrent hr ?_
  refine (leaves_proc c).bind fun p => Leaves.ite (leaves_pure _) ?_
  refine (leaves_pageWalk slot_blind ..).bind fun pte => ?_
  refine Leaves.ite (leaves_pure _) ?_
  exact (leaves_ld _).bind fun e =>
    Leaves.ite (leaves_onMem slot_blind _) (leaves_pure _)

/-- What a kernel entry can do to the queue. -/
def Op.Acts : Op → RoundRobin.Act Slot → Prop
  | .tick, a => a = .keep ∨ a = .rotate
  | .yield, a => a = .rotate
  | .fork, a => ∃ child, a = .spawn child
  | .exit, a => a = .retire
  | _, a => a = .keep

/-- What a kernel entry of `c` does to the rows of the process table. -/
def Op.Rows (c : Slot) (s s' : Kernel) : Op → Prop
  | .tick => s'.row = Function.update s.row c (s.row c).tick
  | .fork => ∃ x, freeSlot s = some x ∧
      s'.row = Function.update s.row x ((s.row x).child c)
  | .exit => s'.row
      = Function.update s.row c { s.row c with status := .zombie }
  | .wait pid => (s'.row = s.row ∧ ∀ x, ¬ Reapable s c pid x) ∨
      ∃ x, Reapable s c pid x ∧
        s'.row = Function.update s.row x (s.row x).reap
  | .exec _ => s'.row = Function.update s.row c { s.row c with ticks := 0 }
  | _ => s'.row = s.row

/-- The kernel entry of `c` calls `schedule`. -/
def Op.CallsSchedule (c : Slot) (s : Kernel) : Op → Prop
  | .tick => (s.row c).ticks + 1 ≥ timeSliceLen
  | .yield => True
  | .exit => True
  | _ => False

/-- What a kernel entry of `c` can do, all in all: to the queue what the
abstract machine does, to the rows what `Op.Rows` says, and another
process runs only if `schedule` was called. -/
structure Stepped (op : Op) (q : List Slot) (c : Slot) (s s' : Kernel)
    (a : RoundRobin.Act Slot) (q' : List Slot) (c' : Slot) : Prop where
  acts : op.Acts a
  queue : RoundRobin.Step a ⟨q, c⟩ ⟨q', c'⟩
  running : Running s' q' c'
  rows : op.Rows c s s'
  stays : op.CallsSchedule c s ∨ c' = c

theorem wp_step (cfg : Config) (op : Op) (hr : Running s q c) (hc : c ∉ q) :
    Wp bad benignHalt (step cfg op)
      (fun _ s' => ∃ a q' c', Stepped op q c s s' a q' c') s := by
  have hkeep : ∀ s', op.Acts .keep → Running s' q c ∧ op.Rows c s s' →
      ∃ a q' c', Stepped op q c s s' a q' c' := fun s' hop hres =>
    ⟨.keep, q, c, hop, .keep, hres.1, hres.2, Or.inr rfl⟩
  cases op with
  | tick =>
      refine (wp_timerTick cfg hr hc).mono fun _ s' hres => ?_
      obtain ⟨hrow, hres⟩ := hres
      split at hres
      case isTrue hslice =>
        obtain ⟨h, t, hq, hr'⟩ := hres
        exact ⟨.rotate, t, h, Or.inr rfl, .rotate hq, hr', hrow,
          Or.inl hslice⟩
      case isFalse => exact hkeep s' (Or.inl rfl) ⟨hres, hrow⟩
  | yield =>
      refine (wp_sysUserYield cfg hr hc).mono fun _ s' hres => ?_
      obtain ⟨hrow, h, t, hq, hr'⟩ := hres
      exact ⟨.rotate, t, h, rfl, .rotate hq, hr', hrow, Or.inl trivial⟩
  | fork =>
      simp only [step, sysUserFork, wp_bind, wp_pure]
      refine wp_theCurrent hr.current ?_
      refine (wp_doFork cfg hr).mono fun _ s' hres => ?_
      obtain ⟨child, hchild, hr', hfree, _, hrow⟩ := hres
      exact ⟨.spawn child, q ++ [child], c, ⟨child, rfl⟩, .spawn hchild, hr',
        ⟨child, hfree, hrow⟩, Or.inr rfl⟩
  | exit =>
      refine (wp_sysUserExit cfg hr hc).mono fun _ s' hres => ?_
      obtain ⟨hrow, h, t, rfl, hr'⟩ := hres
      exact ⟨.retire, t, h, rfl, .retire, hr', hrow, Or.inl trivial⟩
  | wait pid =>
      simp only [step, wp_bind, wp_pure]
      exact (wp_doWait hr).mono fun _ s' => hkeep s' rfl
  | exec image => exact (wp_execImage cfg image hr).mono fun _ s' => hkeep s' rfl
  | allocate =>
      simp only [step, wp_bind, wp_pure]
      exact (wp_sysUserAllocatePage hr).mono fun _ s' => hkeep s' rfl
  | free va =>
      simp only [step, wp_bind, wp_pure]
      exact (wp_sysUserFreePage va hr).mono fun _ s' => hkeep s' rfl
  | fault mcause stval =>
      exact (wp_handleUserPageFault mcause stval hr).mono fun _ s' => hkeep s' rfl
  | store va b => exact (wp_userStore va b hr).mono fun _ s' => hkeep s' rfl

-- ==== whole runs

/-- No process exists yet. -/
structure NoProcess (s : Kernel) : Prop where
  current : s.current = none
  head : s.readyQueueHead = none
  free : ∀ i, (s.procs i).status = .free

theorem NoProcess.congr (hv : schedView s' = schedView s) (he : NoProcess s) :
    NoProcess s' where
  current := by rw [current_eq hv, he.current]
  head := by rw [readyQueueHead_eq hv, he.head]
  free i := by rw [status_eq hv, he.free]

theorem Leaves.noProcess {α : Type} {m : K α} (hm : Quiet m) (he : NoProcess s) :
    Wp bad benignHalt m (fun _ s' => NoProcess s') s :=
  hm.wp_self (fun _ _ h _ => h) fun _ _ hv => he.congr hv

theorem NoProcess.queued (he : NoProcess s) : Queued s [] out where
  chain := he.head
  ready _ hi := absurd hi List.not_mem_nil
  live i hi := absurd (he.free i) hi.1

theorem NoProcess.freeSlot (he : NoProcess s) : freeSlot s = some 0 := by
  have hslots : List.finRange nproc = 0 :: (List.finRange 31).map Fin.succ :=
    List.finRange_succ
  unfold Pke.freeSlot
  rw [hslots, List.find?_cons_of_pos (by simp [he.free])]

/-- The row of slot `i` after boot. -/
def bootRow (i : Slot) : Row :=
  { status := if i = 0 then .ready else .free
    parent := none, pid := i, ticks := 0 }

/-- Boot leaves the first process running and nobody waiting. -/
theorem wp_sStart (cfg : Config) :
    Wp bad benignHalt (sStart cfg) (fun _ s' => Running s' [] 0 ∧
      (s'.row 0).ticks = 0 ∧
      ∀ i, { s'.row i with ticks := 0 } = bootRow i) cfg.init := by
  unfold sStart
  have hinit : NoProcess cfg.init := ⟨rfl, rfl, fun _ => rfl⟩
  have hcsr : ∀ g : Csr → Csr, Quiet (modify fun s =>
      { s with csr := g s.csr }) := fun g => keeps_modify fun _ => rfl
  rw [wp_bind]
  refine Wp.mono ((hcsr fun r => { r with satp := 0 }).noProcess hinit) ?_
  intro _ s₁ he
  rw [wp_bind]
  refine ((leaves_pmmInit sched_boot _).noProcess he).mono fun _ s₂ he => ?_
  rw [wp_bind]
  refine ((leaves_kernVmInit sched_boot _).noProcess he).mono fun _ s₃ he => ?_
  rw [wp_bind, wp_modify, wp_bind]
  unfold initProcPool
  rw [wp_modify, wp_bind]
  have he₄ : NoProcess { s₃ with
      csr := { s₃.csr with satp := makeSatp s₃.gKernelPagetable }
      procs := fun i => { blankProcess with status := .free, pid := i }
      acct := fun _ =>
        { tickCount := 0, totalTickCount := 0, totalMemCount := 0 } } :=
    ⟨he.current, he.head, fun _ => rfl⟩
  refine (leaves_fsInit sched_boot).wp_self (fun _ _ h _ => h) fun _ s₅ hv₅ => ?_
  have he₅ := he₄.congr hv₅
  unfold loadUserProgram
  rw [wp_bind, wp_bind]
  refine (wp_allocProcess_slot cfg).mono fun i s₆ hres => ?_
  obtain ⟨hv₆, hslot, hrow₆⟩ := hres
  obtain rfl : i = 0 := by
    rw [he₅.freeSlot] at hslot
    exact (Option.some.inj hslot).symm
  rw [wp_bind]
  refine (leaves_loadBincode slot_blind (fun _ _ => rfl) cfg.app 0).wp_self
    (fun _ _ h _ => h) fun _ s₇ hv₇ => ?_
  have hsched₇ : schedView s₇ = schedView s₅ :=
    (congrArg Prod.fst hv₇).trans hv₆
  have he₇ := he₅.congr hsched₇
  rw [wp_pure, wp_bind]
  have hnil : ReadyQueue s₇ [] := he₇.head
  refine ((keeps_insertToReadyQueue offQueue_blind 0).wp
    (wp_insertToReadyQueue hnil)).mono fun _ s₈ hres => ?_
  obtain ⟨hins, hv₈⟩ := hres
  rw [if_neg List.not_mem_nil] at hins
  have hq : Queued s₈ [0] [] := he₇.queued.enqueue hins
  refine ((keeps_schedule tables_switch cfg).wp
    (wp_schedule_queued cfg hq fun hnil => absurd hnil (by simp))).mono ?_
  intro _ s₉ hres
  obtain ⟨⟨h, t, ht, hr⟩, hv₉⟩ := hres
  obtain ⟨rfl, rfl⟩ := List.cons.inj ht
  have hrow : s₉.row = Function.update (Function.update s₅.row 0
      { s₅.row 0 with ticks := 0 }) 0
      { s₅.row 0 with status := .ready, ticks := 0 } := by
    rw [row_of_tables hv₉, hins.rows hv₈,
      show s₇.row = s₆.row from congrArg Prod.snd hv₇, hrow₆,
      Function.update_self]
  refine ⟨hr, ?_, fun i => ?_⟩
  · rw [hrow, Function.update_self]
  · have hpool := schedFields_eq hv₅ i
    unfold Process.schedFields at hpool
    simp only [Prod.mk.injEq, blankProcess] at hpool
    unfold bootRow
    rw [hrow, Function.update_idem]
    by_cases hi : i = 0
    · subst hi
      rw [Function.update_self]
      simp only [Kernel.row, hpool, if_true]
    · rw [Function.update_of_ne hi]
      simp only [Kernel.row, hpool, if_neg hi]

/-- The state after a run is the abstract machine's state after the
same operations. -/
theorem wp_run (cfg : Config) (ops : List Op) :
    Wp bad benignHalt (run cfg ops) (fun _ s => ∃ f,
      RoundRobin.Run Op.Acts 0 ops f ∧ Running s f.queue f.running)
      cfg.init := by
  unfold run
  rw [wp_bind]
  refine (wp_sStart cfg).mono fun _ s hboot => ?_
  refine wp_forM (fun done s => ∃ f,
    RoundRobin.Run Op.Acts 0 done f ∧ Running s f.queue f.running) ?_ ?_
  · exact ⟨⟨[], 0⟩, .boot, hboot.1⟩
  · intro done op rest hops s hinv
    obtain ⟨f, hrun, hr⟩ := hinv
    have hc : f.running ∉ f.queue := (List.nodup_cons.mp hrun.distinct).1
    refine (wp_step cfg op hr hc).mono fun _ s' hres => ?_
    obtain ⟨a, q', c', hst⟩ := hres
    exact ⟨⟨q', c'⟩, .snoc hrun hst.acts hst.queue, hst.running⟩

/-- The ready queue refines a first-in first-out list: over every run,
the queue is a chain of distinct READY processes that does not hold
the running one and holds every other live one, it is what the
abstract round-robin machine has after the same operations, and no run
stops in the scheduler's assertion or its "let system wait" panic. -/
theorem ready_queue_refines_fifo (cfg : Config) (ops : List Op) :
    Wp (fun _ => False) benignHalt (run cfg ops) (fun _ s =>
      ∃ f : RoundRobin.State Slot, RoundRobin.Run Op.Acts 0 ops f ∧
        s.current = some f.running ∧ ReadyQueue s f.queue ∧
        f.queue.Nodup ∧ f.running ∉ f.queue ∧
        (∀ i ∈ f.queue, (s.procs i).status = .ready) ∧
        (∀ i, Live s i → i = f.running ∨ f.queue.count i = 1)) cfg.init
    ∧ (∀ s q x, ReadyQueue s q → Returns (insertToReadyQueue x) (fun _ s' =>
        ReadyQueue s' (if x ∈ q then q else q ++ [x])) s)
    ∧ (∀ s h t, ReadyQueue s (h :: t) → (s.procs h).status = .ready →
        Returns (schedule cfg) (fun _ s' =>
          ReadyQueue s' t ∧ s'.current = some h) s) := by
  refine ⟨?_, fun s q x hq => ?_, fun s h t hq hready => ?_⟩
  · refine (wp_run cfg ops).mono fun _ s hres => ?_
    obtain ⟨f, hrun, hr⟩ := hres
    obtain ⟨hc, hnd⟩ := List.nodup_cons.mp hrun.distinct
    refine ⟨f, hrun, hr.current, hr.queued.chain, hnd, hc, hr.queued.ready, ?_⟩
    intro i hi
    rcases hr.queued.live i hi with hmem | hmem
    · exact Or.inr (List.count_eq_one_of_mem hnd hmem)
    · exact Or.inl (List.mem_singleton.mp hmem)
  · refine (wp_insertToReadyQueue hq).mono fun _ s' hins => ?_
    by_cases hx : x ∈ q
    · rw [if_pos hx] at hins ⊢
      rw [hins]
      exact hq
    · rw [if_neg hx] at hins ⊢
      exact hins.chain
  · exact (wp_schedule cfg hq hready).mono fun _ s' hres => hres.2

end Pke
