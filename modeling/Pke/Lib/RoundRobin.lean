/-
A round-robin scheduler, abstractly: one running process, the others
waiting in a first-in first-out list.

A step rotates (the running process goes to the back and the front one
runs), spawns a new process at the back, retires the running process
in favour of the front one, or changes nothing. Which of these a client
operation may cause is a parameter (`allow`), so a run is a list of the
client's own operations. No process is ever queued twice or queued
while it runs (`Run.nodup`): the only step that could break this is
`spawn`, and it takes a process that is neither.
-/
import Mathlib.Data.List.Nodup

namespace RoundRobin

variable {P Op : Type _}

/-- Who runs and who waits, front first. -/
structure State (P : Type _) where
  queue : List P
  running : P

/-- What can happen to the queue. -/
inductive Act (P : Type _) where
  | keep
  | rotate
  | spawn (p : P)
  | retire

/-- The effect of each act. -/
inductive Step : Act P → State P → State P → Prop where
  | keep {f : State P} : Step .keep f f
  | rotate {q t : List P} {c h : P} :
      q ++ [c] = h :: t → Step .rotate ⟨q, c⟩ ⟨t, h⟩
  | spawn {q : List P} {c p : P} :
      p ∉ c :: q → Step (.spawn p) ⟨q, c⟩ ⟨q ++ [p], c⟩
  | retire {t : List P} {c h : P} : Step .retire ⟨h :: t, c⟩ ⟨t, h⟩

/-- The states a list of operations can lead to from one process. -/
inductive Run (allow : Op → Act P → Prop) (init : P) :
    List Op → State P → Prop where
  | boot : Run allow init [] ⟨[], init⟩
  | snoc {ops : List Op} {op : Op} {a : Act P} {f g : State P} :
      Run allow init ops f → allow op a → Step a f g →
      Run allow init (ops ++ [op]) g

/-- No process is waiting twice, or waiting and running. -/
def State.Distinct (f : State P) : Prop := (f.running :: f.queue).Nodup

theorem Step.distinct {a : Act P} {f g : State P} (hs : Step a f g)
    (hf : f.Distinct) : g.Distinct := by
  unfold State.Distinct at hf ⊢
  cases hs with
  | keep => exact hf
  | rotate hq =>
      rename_i q t c h
      -- the new state is the old list, turned by one
      have hperm : (c :: q).Perm (q ++ [c]) :=
        List.perm_append_singleton c q |>.symm
      show (h :: t).Nodup
      rw [← hq]
      exact hperm.nodup hf
  | spawn hp =>
      rename_i q c p
      have hnew : ((c :: q) ++ [p]).Nodup := by
        refine List.nodup_append.mpr ⟨hf, List.nodup_singleton p, ?_⟩
        intro x hx y hy hxy
        rw [List.mem_singleton.mp hy] at hxy
        exact hp (hxy ▸ hx)
      exact hnew
  | retire => exact (List.nodup_cons.mp hf).2

/-- What was waiting waits or runs. -/
theorem Step.mem {a : Act P} {f g : State P} {p : P} (hs : Step a f g)
    (hp : p ∈ f.queue) : p ∈ g.queue ∨ p = g.running := by
  cases hs with
  | keep => exact Or.inl hp
  | @rotate q t c h hq =>
      have hmem : p ∈ q ++ [c] := List.mem_append_left [c] hp
      rw [hq] at hmem
      exact (List.mem_cons.mp hmem).symm
  | spawn _ => exact Or.inl (List.mem_append_left _ hp)
  | retire => exact (List.mem_cons.mp hp).symm

theorem split_snoc {q l r : List P} {x p : P} (h : q ++ [x] = l ++ p :: r) :
    p = x ∨ ∃ r₀, q = l ++ p :: r₀ := by
  rcases List.eq_nil_or_concat r with rfl | ⟨r₀, y, rfl⟩
  · obtain ⟨-, hp⟩ := List.append_inj' h rfl
    exact Or.inl (List.cons.inj hp).1.symm
  · have hsplit : q ++ [x] = (l ++ p :: r₀) ++ [y] := by
      simpa using h
    exact Or.inr ⟨r₀, (List.append_inj' hsplit rfl).1⟩

/-- Whoever waits has been waiting, behind one more if another process
runs now, or has just come. -/
theorem Step.ahead {a : Act P} {f g : State P} {p : P} {l r : List P}
    (hs : Step a f g) (hf : f.Distinct) (hg : g.queue = l ++ p :: r) :
    (∃ l₀ r₀, f.queue = l₀ ++ p :: r₀ ∧
      (l₀.length = l.length ∧ f.running = g.running ∨ l₀.length = l.length + 1)) ∨
    p ∉ f.queue := by
  cases hs with
  | keep => exact Or.inl ⟨l, r, hg, Or.inl ⟨rfl, rfl⟩⟩
  | @rotate q t c h hq =>
      cases q with
      | nil => exact Or.inr List.not_mem_nil
      | cons x t₀ =>
          obtain ⟨rfl, rfl⟩ := List.cons.inj hq
          rcases split_snoc hg with rfl | ⟨r₀, rfl⟩
          · exact Or.inr (List.nodup_cons.mp hf).1
          · exact Or.inl ⟨x :: l, r₀, rfl, Or.inr rfl⟩
  | @spawn q c x hx =>
      rcases split_snoc hg with rfl | ⟨r₀, rfl⟩
      · exact Or.inr fun hmem => hx (List.mem_cons_of_mem _ hmem)
      · exact Or.inl ⟨l, r₀, rfl, Or.inl ⟨rfl, rfl⟩⟩
  | @retire t c h => exact Or.inl ⟨h :: l, r, congrArg (h :: ·) hg, Or.inr rfl⟩

theorem Run.distinct {allow : Op → Act P → Prop} {init : P} {ops : List Op}
    {f : State P} (hr : Run allow init ops f) : f.Distinct := by
  induction hr with
  | boot => exact List.nodup_singleton init
  | snoc _ _ hs ih => exact hs.distinct ih

end RoundRobin
