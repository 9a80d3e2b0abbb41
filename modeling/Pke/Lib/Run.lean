/-
Runs of a machine whose steps are traced programs, with their history.

`Run bad C f s₀ h s` says that the machine got from `s₀` to `s` by the
steps of `h`: each met the guard `C` in the state it was taken in,
returned, and emitted nothing bad. The history lists the steps latest
first, each with the states before and after it, so a property that
speaks of the past is a function of the history, and no ghost state has
to be threaded through the machine.

`Run.invariant` is the one induction over runs. Its step is a statement
of the weakest-precondition calculus, with every halt tolerated: a run
has no steps that halt.
-/
import Pke.Lib.Traced

namespace Traced

variable {σ ε η ω : Type}

/-- A step taken: the operation and the states around it. -/
structure Entry (σ ω : Type) where
  op : ω
  pre : σ
  post : σ

/-- The machine got from `s₀` to a state by the steps of a history. What
counts as bad may depend on the step and the state it is taken in. -/
inductive Run (bad : ω → σ → ε → Prop) (C : ω → σ → Prop)
    (f : ω → Prog σ ε η Unit) (s₀ : σ) : List (Entry σ ω) → σ → Prop where
  | start : Run bad C f s₀ [] s₀
  | step {h : List (Entry σ ω)} {s s' : σ} {op : ω} {es : List ε}
      (past : Run bad C f s₀ h s) (guard : C op s)
      (runs : f op s = (es, .ok () s')) (clean : ∀ e ∈ es, ¬ bad op s e) :
      Run bad C f s₀ (⟨op, s, s'⟩ :: h) s'

variable {bad bad' : ω → σ → ε → Prop} {C C' : ω → σ → Prop}
variable {f : ω → Prog σ ε η Unit} {s₀ s : σ} {h : List (Entry σ ω)}

/-- What holds at the start and is kept by every step that meets the
guard holds after every run. -/
theorem Run.invariant {I : List (Entry σ ω) → σ → Prop}
    (hrun : Run bad C f s₀ h s) (hstart : I [] s₀)
    (hstep : ∀ h s op, I h s → C op s →
      Wp (bad op s) (fun _ _ => True) (f op)
        (fun _ s' => I (⟨op, s, s'⟩ :: h) s') s) : I h s := by
  induction hrun with
  | start => exact hstart
  | step past guard runs clean ih =>
      exact (hstep _ _ _ ih guard).of_run runs clean

/-- A run tolerates what a stricter one does, and meets every guard its
steps do. -/
theorem Run.mono (hrun : Run bad C f s₀ h s)
    (hbad : ∀ op s e, bad' op s e → bad op s e)
    (hC : ∀ e ∈ h, C e.op e.pre → C' e.op e.pre) : Run bad' C' f s₀ h s := by
  induction hrun with
  | start => exact .start
  | step past guard runs clean ih =>
      rw [List.forall_mem_cons] at hC
      exact .step (ih hC.2) (hC.1 guard) runs fun e he hb =>
        clean e he (hbad _ _ e hb)

/-- A run has come through every state of its history. -/
theorem Run.split {h' : List (Entry σ ω)} (hrun : Run bad C f s₀ (h' ++ h) s) :
    ∃ s₁, Run bad C f s₀ h s₁ ∧ Run bad C f s₁ h' s := by
  induction h' generalizing s with
  | nil => exact ⟨s, hrun, .start⟩
  | cons e h' ih =>
      cases hrun with
      | step past guard runs clean =>
          obtain ⟨s₁, hpast, hrest⟩ := ih past
          exact ⟨s₁, hpast, .step hrest guard runs clean⟩

/-- A run goes on with a step that returns, where no event counts as
bad. -/
theorem Run.extend {op : ω} {Q : Unit → σ → Prop}
    (hrun : Run bad C f s₀ h s) (hC : C op s) (hgood : ∀ e, ¬ bad op s e)
    (hret : Returns (f op) Q s) :
    ∃ s', Run bad C f s₀ (⟨op, s, s'⟩ :: h) s' ∧ Q () s' := by
  obtain ⟨es, a, s', hm, hQ⟩ := hret.elim
  exact ⟨s', .step hrun hC hm fun e _ => hgood e, hQ⟩

end Traced
