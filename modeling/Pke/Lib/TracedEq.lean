/-
Equations between traced programs.

A program can be regrouped (`bind_then`). Two programs with the same
beginning are equal on a state as soon as the rests agree on the states
this beginning reaches (`bind_eq`); with an observation that the
beginning keeps, those are states that look like the first one
(`Keeps.bind_eq`).
-/
import Pke.Lib.Traced

namespace Traced

variable {σ ε η α β γ : Type} {s : σ}

theorem pure_then (a : α) (f : α → Prog σ ε η β) : (pure a >>= f) = f a := by
  funext s
  show ([] ++ (f a s).1, (f a s).2) = f a s
  rw [List.nil_append]

theorem bind_then (m : Prog σ ε η α) (f : α → Prog σ ε η β)
    (g : β → Prog σ ε η γ) : (m >>= f >>= g) = m >>= fun a => f a >>= g := by
  funext s
  show bind (bind m f) g s = bind m (fun a => bind (f a) g) s
  unfold bind
  rcases hm : m s with ⟨es, r⟩
  cases r with
  | halt e s' => rfl
  | ok a s' =>
      rcases hf : f a s' with ⟨es', r'⟩
      cases r' with
      | halt e s'' => simp only [hf]
      | ok b s'' => simp only [hf, List.append_assoc]

/-- The rests have to agree only where the beginning leads. -/
theorem bind_eq {m : Prog σ ε η α} {f g : α → Prog σ ε η β}
    (h : ∀ es a s', m s = (es, .ok a s') → f a s' = g a s') :
    (m >>= f) s = (m >>= g) s := by
  show bind m f s = bind m g s
  unfold bind
  rcases hm : m s with ⟨es, r⟩
  cases r with
  | ok a s' => simp only [h es a s' hm]
  | halt e s' => rfl

/-- The beginnings have to agree on the first state only. -/
theorem bind_head {m m' : Prog σ ε η α} {f : α → Prog σ ε η β} (h : m s = m' s) :
    (m >>= f) s = (m' >>= f) s := by
  show bind m f s = bind m' f s
  unfold bind
  rw [h]

/-- A beginning that returns and emits nothing. -/
theorem bind_of_run {m : Prog σ ε η α} {f : α → Prog σ ε η β} {a : α} {s' : σ}
    (h : m s = ([], .ok a s')) : (m >>= f) s = f a s' :=
  bind_run h rfl

variable {P : η → Prop} {o : σ → γ}

/-- A run that returned kept the observation. -/
theorem Keeps.of_run {m : Prog σ ε η α} (hk : Keeps P o m) {es : List ε} {a : α}
    {s' : σ} (hrun : m s = (es, .ok a s')) : o s' = o s := by
  have hs := hk.run s
  rw [hrun] at hs
  exact hs

/-- The rests have to agree only on states that look like the first. -/
theorem Keeps.bind_eq {m : Prog σ ε η α} (hk : Keeps P o m)
    {f g : α → Prog σ ε η β} (h : ∀ a s', o s' = o s → f a s' = g a s') :
    (m >>= f) s = (m >>= g) s :=
  Traced.bind_eq fun _ a s' hrun => h a s' (hk.of_run hrun)

end Traced
