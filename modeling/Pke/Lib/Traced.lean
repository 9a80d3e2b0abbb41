/-
Traced programs: computations over a state that may halt, with a trace of the
events they emit, and a weakest-precondition calculus for them.

`Prog σ ε η α` is the type of such programs. A run ends in `ok` with a
value, or in `halt` with a reason and the state it halted in, so a
stuck program still says what it did. The trace is a writer, not a
state component: no program can read or forget it.

`Wp bad E m Q s` reads: run from `s`, program `m` either emits a `bad`
event, or halts within `E`, or returns within `Q`. Choosing `bad` and
`E` picks the reading. With `bad := fun _ => False` and
`E := fun _ _ => False` it is total correctness; with `E` everywhere
true it is partial correctness; with `bad` an environment failure it is
correctness while the environment behaves. `wp_bind` is an equivalence,
so the calculus loses nothing: rewriting with the rules of this file
executes a program symbolically up to the calls one has a lemma for.
-/
import Mathlib.Logic.Basic
import Mathlib.Data.List.Basic

namespace Traced

/-- How a run ends. -/
inductive Out (σ η α : Type) where
  | ok (a : α) (s : σ)
  | halt (e : η) (s : σ)

/-- The state a run ends in, returned or halted. -/
def Out.state {σ η α : Type} : Out σ η α → σ
  | .ok _ s => s
  | .halt _ s => s

/-- The value of a run that returned. -/
def Out.value {σ η α : Type} : Out σ η α → Option α
  | .ok a _ => some a
  | .halt _ _ => none

/-- Programs over state `σ`, emitting `ε`, halting with `η`. -/
def Prog (σ ε η α : Type) : Type := σ → List ε × Out σ η α

variable {σ ε η α β γ : Type}

/-- Run the first program, then the second on its value and state. -/
def bind (m : Prog σ ε η α) (f : α → Prog σ ε η β) : Prog σ ε η β := fun s =>
  match m s with
  | (es, .ok a s') => (es ++ (f a s').1, (f a s').2)
  | (es, .halt e s') => (es, .halt e s')

instance : Monad (Prog σ ε η) where
  pure a := fun s => ([], .ok a s)
  bind := bind

/-- The current state. -/
def get : Prog σ ε η σ := fun s => ([], .ok s s)

/-- Update the state. -/
def modify (f : σ → σ) : Prog σ ε η Unit := fun s => ([], .ok () (f s))

/-- Record one event. -/
def emit (e : ε) : Prog σ ε η Unit := fun s => ([e], .ok () s)

/-- Stop here. -/
def halt (e : η) : Prog σ ε η α := fun s => ([], .halt e s)

/-- A run of two programs that returned is a run of each. -/
theorem bind_ok {m : Prog σ ε η α} {f : α → Prog σ ε η β} {s s'' : σ}
    {es : List ε} {b : β} (h : (m >>= f) s = (es, .ok b s'')) :
    ∃ es₁ a s' es₂, m s = (es₁, .ok a s') ∧ f a s' = (es₂, .ok b s'') ∧
      es = es₁ ++ es₂ := by
  change bind m f s = _ at h
  unfold bind at h
  cases hm : m s with
  | mk es₁ r =>
      rw [hm] at h
      cases r with
      | ok a s' =>
          cases hf : f a s' with
          | mk es₂ r' =>
              simp only [hf, Prod.mk.injEq] at h
              exact ⟨es₁, a, s', es₂, rfl, by rw [hf, h.2], h.1.symm⟩
      | halt e s' => simp only [Prod.mk.injEq, reduceCtorEq, and_false] at h

/-- Runs of two programs, one after the other. -/
theorem bind_run {m : Prog σ ε η α} {f : α → Prog σ ε η β} {s s' : σ}
    {es₁ es₂ : List ε} {a : α} {o : Out σ η β} (hm : m s = (es₁, .ok a s'))
    (hf : f a s' = (es₂, o)) : (m >>= f) s = (es₁ ++ es₂, o) := by
  show bind m f s = _
  unfold bind
  rw [hm]
  simp only [hf]

theorem bind_halt {m : Prog σ ε η α} {f : α → Prog σ ε η β} {s s' : σ}
    {es : List ε} {e : η} (hm : m s = (es, .halt e s')) :
    (m >>= f) s = (es, .halt e s') := by
  show bind m f s = _
  unfold bind
  rw [hm]

/-- Run a program for its effect; its events go unrecorded. -/
def silent {ε' : Type} (m : Prog σ ε η α) : Prog σ ε' η α := fun s => ([], (m s).2)

theorem bind_get {f : σ → Prog σ ε η β} {s : σ} : (get >>= f) s = f s s := rfl

theorem bind_modify {g : σ → σ} {f : Unit → Prog σ ε η β} {s : σ} :
    (modify g >>= f) s = f () (g s) := rfl

theorem bind_emit {e : ε} {f : Unit → Prog σ ε η β} {s : σ} :
    (emit e >>= f) s = (e :: (f () s).1, (f () s).2) := rfl

/-- A list is emitted item by item. -/
theorem forM_emit (l : List ε) (s : σ) :
    (l.forM emit : Prog σ ε η PUnit) s = (l, .ok () s) := by
  induction l with
  | nil => rfl
  | cons e l ih =>
      have hhead : (emit e : Prog σ ε η Unit) s = ([e], .ok () s) := rfl
      exact bind_run hhead ih

/-- A silent program is run for its value. -/
theorem bind_silent {ε' : Type} {m : Prog σ ε' η α} {f : α → Prog σ ε η β}
    {s s' : σ} {a : α} (hm : (m s).2 = .ok a s') :
    (silent m >>= f) s = f a s' := by
  show bind (silent m) f s = f a s'
  unfold bind silent
  rw [hm]
  simp only [List.nil_append]

-- ==== the calculus

/-- Run from `s`, `m` emits a `bad` event, halts within `E` or returns
within `Q`. -/
def Wp (bad : ε → Prop) (E : η → σ → Prop) (m : Prog σ ε η α)
    (Q : α → σ → Prop) (s : σ) : Prop :=
  (∃ e ∈ (m s).1, bad e) ∨
    match (m s).2 with
    | .ok a s' => Q a s'
    | .halt e s' => E e s'

variable {bad : ε → Prop} {E : η → σ → Prop} {s : σ} {Q Q' : α → σ → Prop}

@[simp] theorem wp_pure (a : α) :
    Wp bad E (pure a) Q s ↔ Q a s := by
  show (∃ e ∈ ([] : List ε), bad e) ∨ Q a s ↔ Q a s
  simp

@[simp] theorem wp_get {Q : σ → σ → Prop} :
    Wp bad E get Q s ↔ Q s s := by
  show (∃ e ∈ ([] : List ε), bad e) ∨ Q s s ↔ Q s s
  simp

@[simp] theorem wp_modify (f : σ → σ) {Q : Unit → σ → Prop} :
    Wp bad E (modify f) Q s ↔ Q () (f s) := by
  show (∃ e ∈ ([] : List ε), bad e) ∨ Q () (f s) ↔ Q () (f s)
  simp

@[simp] theorem wp_emit (e : ε) {Q : Unit → σ → Prop} :
    Wp bad E (emit e) Q s ↔ bad e ∨ Q () s := by
  show (∃ e' ∈ [e], bad e') ∨ Q () s ↔ bad e ∨ Q () s
  simp

@[simp] theorem wp_halt (e : η) :
    Wp bad E (halt e) Q s ↔ E e s := by
  show (∃ e ∈ ([] : List ε), bad e) ∨ E e s ↔ E e s
  simp

@[simp] theorem wp_bind (m : Prog σ ε η α) (f : α → Prog σ ε η β)
    {Q : β → σ → Prop} :
    Wp bad E (m >>= f) Q s
      ↔ Wp bad E m (fun a s' => Wp bad E (f a) Q s') s := by
  show Wp bad E (bind m f) Q s ↔ _
  unfold Wp bind
  cases hm : m s with
  | mk es r =>
      cases r with
      | ok a s' =>
          simp only [List.mem_append]
          constructor
          · rintro (⟨e, he | he, hb⟩ | h)
            · exact Or.inl ⟨e, he, hb⟩
            · exact Or.inr (Or.inl ⟨e, he, hb⟩)
            · exact Or.inr (Or.inr h)
          · rintro (⟨e, he, hb⟩ | ⟨e, he, hb⟩ | h)
            · exact Or.inl ⟨e, Or.inl he, hb⟩
            · exact Or.inl ⟨e, Or.inr he, hb⟩
            · exact Or.inr h
      | halt e s' => exact Iff.rfl

theorem wp_ite {c : Prop} [Decidable c] {m m' : Prog σ ε η α} :
    Wp bad E (if c then m else m') Q s
      ↔ (c → Wp bad E m Q s) ∧ (¬ c → Wp bad E m' Q s) := by
  by_cases hc : c <;> simp [hc]

/-- Weaken the postcondition. -/
theorem Wp.mono {m : Prog σ ε η α} (h : Wp bad E m Q s)
    (hQ : ∀ a s', Q a s' → Q' a s') : Wp bad E m Q' s := by
  unfold Wp at h ⊢
  refine h.imp id fun hr => ?_
  cases hm : (m s).2 with
  | ok a s' => rw [hm] at hr; exact hQ a s' hr
  | halt e s' => rw [hm] at hr; exact hr

/-- Weaken what counts as a tolerated halt. -/
theorem Wp.mono_halt {E' : η → σ → Prop} {m : Prog σ ε η α}
    (h : Wp bad E m Q s) (hE : ∀ e s', E e s' → E' e s') :
    Wp bad E' m Q s := by
  unfold Wp at h ⊢
  refine h.imp id fun hr => ?_
  cases hm : (m s).2 with
  | ok a s' => rw [hm] at hr; exact hr
  | halt e s' => rw [hm] at hr; exact hE e s' hr

/-- Two specifications of one program hold together. -/
theorem Wp.and {E' : η → σ → Prop} {m : Prog σ ε η α}
    (h : Wp bad E m Q s) (h' : Wp bad E' m Q' s) :
    Wp bad (fun e s' => E e s' ∧ E' e s') m (fun a s' => Q a s' ∧ Q' a s')
      s := by
  unfold Wp at h h' ⊢
  rcases h with hb | h
  · exact Or.inl hb
  rcases h' with hb | h'
  · exact Or.inl hb
  refine Or.inr ?_
  cases hm : (m s).2 with
  | ok a s' => rw [hm] at h h'; exact ⟨h, h'⟩
  | halt e s' => rw [hm] at h h'; exact ⟨h, h'⟩

/-- A specification that tolerates every halt adds to another one. -/
theorem Wp.also {m : Prog σ ε η α} (h : Wp bad E m Q s)
    (h' : Wp bad (fun _ _ => True) m Q' s) :
    Wp bad E m (fun a s' => Q a s' ∧ Q' a s') s :=
  (h.and h').mono_halt fun _ _ he => he.1

/-- What `Wp` says of a run that returned and emitted nothing bad. -/
theorem Wp.of_run {m : Prog σ ε η α} {es : List ε} {a : α} {s' : σ}
    (h : Wp bad E m Q s) (hrun : m s = (es, .ok a s'))
    (hes : ∀ e ∈ es, ¬ bad e) : Q a s' := by
  unfold Wp at h
  rw [hrun] at h
  rcases h with ⟨e, he, hb⟩ | h
  · exact absurd hb (hes e he)
  · exact h

/-- A run that returned where it should not have emitted a bad event. -/
theorem Wp.bad_of_run {m : Prog σ ε η α} {es : List ε} {a : α} {s' : σ}
    (h : Wp bad E m (fun _ _ => False) s) (hrun : m s = (es, .ok a s')) :
    ∃ e ∈ es, bad e := by
  by_contra hnone
  exact h.of_run hrun fun e he hbad => hnone ⟨e, he, hbad⟩

/-- Every run is a run, where halts are tolerated. -/
theorem wp_run_eq (m : Prog σ ε η α) :
    Wp bad (fun _ _ => True) m (fun a s' => ∃ es, m s = (es, .ok a s')) s := by
  refine Or.inr ?_
  rcases hm : m s with ⟨es, r⟩
  cases r with
  | ok a s' => exact ⟨es, rfl⟩
  | halt e s' => trivial

/-- Total correctness: no event is bad and no halt is tolerated. -/
abbrev Returns (m : Prog σ ε η α) (Q : α → σ → Prop) (s : σ) : Prop :=
  Wp (fun _ => False) (fun _ _ => False) m Q s

theorem Returns.elim {m : Prog σ ε η α} (h : Returns m Q s) :
    ∃ es a s', m s = (es, .ok a s') ∧ Q a s' := by
  unfold Returns Wp at h
  rcases hm : m s with ⟨es, r⟩
  rw [hm] at h
  rcases h with ⟨_, _, hb⟩ | h
  · exact hb.elim
  · cases r with
    | ok a s' => exact ⟨es, a, s', rfl, h⟩
    | halt e s' => exact h.elim

/-- The loop rule: an invariant of the part of the list already
visited. -/
theorem wp_forM {xs : List γ} {f : γ → Prog σ ε η PUnit}
    (I : List γ → σ → Prop) (hinit : I [] s)
    (hstep : ∀ done x rest, xs = done ++ x :: rest → ∀ s, I done s →
      Wp bad E (f x) (fun _ s' => I (done ++ [x]) s') s) :
    Wp bad E (xs.forM f) (fun _ s' => I xs s') s := by
  suffices key : ∀ rest done s, xs = done ++ rest → I done s →
      Wp bad E (rest.forM f) (fun _ s' => I xs s') s by
    exact key xs [] s rfl hinit
  intro rest
  induction rest with
  | nil =>
      intro done s hxs hI
      rw [List.append_nil] at hxs
      subst hxs
      exact (wp_pure _).mpr hI
  | cons x rest ih =>
      intro done s hxs hI
      show Wp bad E (f x >>= fun _ => rest.forM f) _ s
      rw [wp_bind]
      refine (hstep done x rest hxs s hI).mono fun _ s' hI' => ?_
      exact ih (done ++ [x]) s' (by simp [hxs]) hI'

/-- The loop rule for a counter. -/
theorem wp_forRange {n : Nat} {f : Nat → Prog σ ε η PUnit}
    (I : Nat → σ → Prop) (hinit : I 0 s)
    (hstep : ∀ k < n, ∀ s, I k s → Wp bad E (f k) (fun _ s' => I (k + 1) s') s) :
    Wp bad E ((List.range n).forM f) (fun _ s' => I n s') s := by
  have hloop : Wp bad E ((List.range n).forM f)
      (fun _ s' => I (List.range n).length s') s := by
    refine wp_forM (fun done s' => I done.length s') hinit ?_
    intro done x rest hxs s hI
    have hlt : done.length < n := by
      have hlen := congrArg List.length hxs
      rw [List.length_range, List.length_append, List.length_cons] at hlen
      omega
    have hx : x = done.length := by
      have hget : (List.range n)[done.length]? = some x := by
        rw [hxs, List.getElem?_append_right (Nat.le_refl _), Nat.sub_self]
        rfl
      rw [List.getElem?_range hlt] at hget
      exact (Option.some.inj hget).symm
    rw [hx, List.length_append, List.length_singleton]
    exact hstep _ hlt s hI
  rw [List.length_range] at hloop
  exact hloop

/-- A run known to return a value, in the shape `Wp.of_run` takes. -/
theorem run_eq_of_value {m : Prog σ ε η α} {a : α}
    (h : (m s).2.value = some a) : m s = ((m s).1, .ok a (m s).2.state) := by
  rcases hm : m s with ⟨es, r⟩
  rw [hm] at h
  cases r with
  | ok b s' =>
      obtain rfl : b = a := Option.some.inj h
      rfl
  | halt e s' => cases h

-- ==== invariance

/-- However it ends, `m` leaves the observation `f` of the state as it
found it, and it halts only for a reason in `P`. -/
structure Keeps (P : η → Prop) (f : σ → γ) (m : Prog σ ε η α) : Prop where
  run : ∀ s, match (m s).2 with
    | .ok _ s' => f s' = f s
    | .halt e s' => P e ∧ f s' = f s

variable {P : η → Prop} {f : σ → γ}

theorem keeps_pure (a : α) : Keeps P f (pure a : Prog σ ε η α) :=
  ⟨fun _ => rfl⟩

theorem keeps_get : Keeps P f (get : Prog σ ε η σ) := ⟨fun _ => rfl⟩

theorem keeps_emit (e : ε) : Keeps P f (emit e : Prog σ ε η Unit) :=
  ⟨fun _ => rfl⟩

theorem keeps_halt {e : η} (h : P e) :
    Keeps P f (halt e : Prog σ ε η α) := ⟨fun _ => ⟨h, rfl⟩⟩

theorem keeps_modify {g : σ → σ} (h : ∀ s, f (g s) = f s) :
    Keeps P f (modify g : Prog σ ε η Unit) := ⟨h⟩

theorem keeps_bind {m : Prog σ ε η α} {k : α → Prog σ ε η β}
    (hm : Keeps P f m) (hk : ∀ a, Keeps P f (k a)) :
    Keeps P f (m >>= k) := by
  refine ⟨fun s => ?_⟩
  show match (bind m k s).2 with
    | .ok _ s' => f s' = f s
    | .halt e s' => P e ∧ f s' = f s
  have hms := hm.run s
  unfold bind
  cases hr : m s with
  | mk es r =>
      rw [hr] at hms
      cases r with
      | ok a s' =>
          have hks := (hk a).run s'
          have hms' : f s' = f s := hms
          cases hr' : (k a s').2 with
          | ok b s'' =>
              rw [hr'] at hks
              exact Eq.trans hks hms'
          | halt e s'' =>
              rw [hr'] at hks
              exact ⟨hks.1, hks.2.trans hms'⟩
      | halt e s' => exact hms

theorem keeps_ite {c : Prop} [Decidable c] {m m' : Prog σ ε η α}
    (hm : Keeps P f m) (hm' : Keeps P f m') :
    Keeps P f (if c then m else m') := by
  by_cases hc : c
  · rw [if_pos hc]; exact hm
  · rw [if_neg hc]; exact hm'

theorem keeps_forM {xs : List β} {k : β → Prog σ ε η PUnit}
    (hk : ∀ x, Keeps P f (k x)) : Keeps P f (xs.forM k) := by
  induction xs with
  | nil => exact keeps_pure _
  | cons x xs ih => exact keeps_bind (hk x) fun _ => ih

theorem Keeps.weaken {P' : η → Prop} {m : Prog σ ε η α} (hk : Keeps P f m)
    (h : ∀ e, P e → P' e) : Keeps P' f m := by
  refine ⟨fun s => ?_⟩
  have hs := hk.run s
  cases hm : (m s).2 with
  | ok a s' => rw [hm] at hs; exact hs
  | halt e s' => rw [hm] at hs; exact hs.imp_left (h e)

/-- A kept observation is a postcondition by itself. -/
theorem Keeps.wp_self {m : Prog σ ε η α} (hk : Keeps P f m)
    (hE : ∀ e s', P e → f s' = f s → E e s')
    (hQ : ∀ a s', f s' = f s → Q a s') : Wp bad E m Q s := by
  have hs := hk.run s
  refine Or.inr ?_
  cases hm : (m s).2 with
  | ok a s' => rw [hm] at hs; exact hQ a s' hs
  | halt e s' => rw [hm] at hs; exact hE e s' hs.1 hs.2

/-- A kept observation can be carried past a program. -/
theorem Keeps.wp {m : Prog σ ε η α} (hk : Keeps P f m)
    (h : Wp bad E m Q s) :
    Wp bad E m (fun a s' => Q a s' ∧ f s' = f s) s := by
  have hs := hk.run s
  unfold Wp at h ⊢
  refine h.imp id fun hr => ?_
  cases hm : (m s).2 with
  | ok a s' =>
      rw [hm] at hr hs
      exact ⟨hr, hs⟩
  | halt e s' => rw [hm] at hr; exact hr

-- ==== events

/-- What the first of two programs emits, both together do. -/
theorem mem_bind_left {m : Prog σ ε η α} {f : α → Prog σ ε η β} {e : ε}
    (he : e ∈ (m s).1) : e ∈ ((m >>= f) s).1 := by
  show e ∈ (bind m f s).1
  unfold bind
  cases hrun : m s with
  | mk es r =>
      rw [hrun] at he
      cases r with
      | ok a s' => exact List.mem_append_left _ he
      | halt h s' => exact he

/-- What the second emits after the first has returned, both do. -/
theorem mem_bind_right {m : Prog σ ε η α} {f : α → Prog σ ε η β} {e : ε}
    {es : List ε} {a : α} {s' : σ} (hm : m s = (es, .ok a s'))
    (he : e ∈ (f a s').1) : e ∈ ((m >>= f) s).1 := by
  rw [bind_run hm rfl]
  exact List.mem_append_right _ he

/-- Every event `m` emits, wherever it is run, satisfies `P`. -/
def Emits (P : ε → Prop) (m : Prog σ ε η α) : Prop := ∀ s, ∀ e ∈ (m s).1, P e

variable {P : ε → Prop}

theorem emits_pure (a : α) : Emits P (pure a : Prog σ ε η α) := nofun

theorem emits_halt (e : η) : Emits P (halt e : Prog σ ε η α) := nofun

theorem emits_get : Emits P (get : Prog σ ε η σ) := nofun

theorem emits_modify (f : σ → σ) : Emits P (modify f : Prog σ ε η Unit) := nofun

theorem emits_silent {ε' : Type} (m : Prog σ ε' η α) :
    Emits P (silent m : Prog σ ε η α) := nofun

theorem emits_emit {e : ε} (h : P e) : Emits P (emit e : Prog σ ε η Unit) := by
  intro s e' he
  rw [List.mem_singleton.mp he]
  exact h

theorem emits_bind {m : Prog σ ε η α} {f : α → Prog σ ε η β} (hm : Emits P m)
    (hf : ∀ a, Emits P (f a)) : Emits P (m >>= f) := by
  intro s e he
  change e ∈ (bind m f s).1 at he
  unfold bind at he
  have hms := hm s
  cases hrun : m s with
  | mk es r =>
      rw [hrun] at he hms
      cases r with
      | ok a s' =>
          rcases List.mem_append.mp he with he | he
          · exact hms e he
          · exact hf a s' e he
      | halt h s' => exact hms e he

theorem emits_ite {c : Prop} [Decidable c] {m m' : Prog σ ε η α}
    (hm : Emits P m) (hm' : Emits P m') : Emits P (if c then m else m') := by
  by_cases hc : c
  · rw [if_pos hc]
    exact hm
  · rw [if_neg hc]
    exact hm'

-- ==== events of a run

/-- As `Wp`, and unless an event is `bad` all of them are `good`. -/
def WpOn (good bad : ε → Prop) (E : η → σ → Prop) (m : Prog σ ε η α)
    (Q : α → σ → Prop) (s : σ) : Prop :=
  (∃ e ∈ (m s).1, bad e) ∨ (∀ e ∈ (m s).1, good e) ∧
    match (m s).2 with
    | .ok a s' => Q a s'
    | .halt e s' => E e s'

variable {good : ε → Prop}

theorem wpOn_pure {a : α} (h : Q a s) : WpOn good bad E (pure a) Q s :=
  Or.inr ⟨nofun, h⟩

theorem wpOn_get {Q : σ → σ → Prop} (h : Q s s) : WpOn good bad E get Q s :=
  Or.inr ⟨nofun, h⟩

theorem wpOn_modify {f : σ → σ} {Q : Unit → σ → Prop} (h : Q () (f s)) :
    WpOn good bad E (modify f) Q s :=
  Or.inr ⟨nofun, h⟩

theorem wpOn_halt {e : η} (h : E e s) : WpOn good bad E (halt e) Q s :=
  Or.inr ⟨nofun, h⟩

theorem wpOn_emit {e : ε} {Q : Unit → σ → Prop} (h : bad e ∨ good e ∧ Q () s) :
    WpOn good bad E (emit e) Q s := by
  rcases h with hb | ⟨hg, hQ⟩
  · exact Or.inl ⟨e, List.mem_singleton_self e, hb⟩
  · refine Or.inr ⟨fun e' he => ?_, hQ⟩
    rw [List.mem_singleton.mp he]
    exact hg

theorem wpOn_silent {ε' : Type} {m : Prog σ ε' η α} {a : α} {s' : σ}
    (hm : (m s).2 = .ok a s') (h : Q a s') : WpOn good bad E (silent m) Q s := by
  refine Or.inr ⟨nofun, ?_⟩
  show match (m s).2 with
    | .ok a s' => Q a s'
    | .halt e s' => E e s'
  rw [hm]
  exact h

/-- A step that is known to emit nothing and return. -/
theorem wpOn_run {m : Prog σ ε η α} {a : α} {s' : σ} (hm : m s = ([], .ok a s'))
    (h : Q a s') : WpOn good bad E m Q s := by
  unfold WpOn
  rw [hm]
  exact Or.inr ⟨fun e he => absurd he List.not_mem_nil, h⟩

theorem WpOn.bind {m : Prog σ ε η α} {f : α → Prog σ ε η β}
    {Q : β → σ → Prop}
    (h : WpOn good bad E m (fun a s' => WpOn good bad E (f a) Q s') s) :
    WpOn good bad E (m >>= f) Q s := by
  show WpOn good bad E (Traced.bind m f) Q s
  unfold WpOn Traced.bind at *
  cases hm : m s with
  | mk es r =>
      rw [hm] at h
      cases r with
      | ok a s' =>
          rcases h with ⟨e, he, hb⟩ | ⟨hes, ⟨e, he, hb⟩ | ⟨hes', hr⟩⟩
          · exact Or.inl ⟨e, List.mem_append_left _ he, hb⟩
          · exact Or.inl ⟨e, List.mem_append_right _ he, hb⟩
          · refine Or.inr ⟨fun e he => ?_, hr⟩
            rcases List.mem_append.mp he with he | he
            · exact hes e he
            · exact hes' e he
      | halt e s' => exact h

theorem WpOn.mono {m : Prog σ ε η α} (h : WpOn good bad E m Q s)
    (hQ : ∀ a s', Q a s' → Q' a s') : WpOn good bad E m Q' s := by
  unfold WpOn at h ⊢
  refine h.imp id fun hr => ⟨hr.1, ?_⟩
  have hout := hr.2
  cases hm : (m s).2 with
  | ok a s' => rw [hm] at hout; exact hQ a s' hout
  | halt e s' => rw [hm] at hout; exact hout

/-- Where nothing counts as bad and no halt is tolerated, `m` returns and
emits good events only. -/
theorem WpOn.elim {m : Prog σ ε η α}
    (h : WpOn good (fun _ => False) (fun _ _ => False) m Q s) :
    ∃ es a s', m s = (es, .ok a s') ∧ (∀ e ∈ es, good e) ∧ Q a s' := by
  unfold WpOn at h
  rcases hm : m s with ⟨es, r⟩
  rw [hm] at h
  rcases h with ⟨_, _, hb⟩ | ⟨hes, h⟩
  · exact hb.elim
  · cases r with
    | ok a s' => exact ⟨es, a, s', rfl, hes, h⟩
    | halt e s' => exact h.elim

/-- What `WpOn` says of a run that returned and emitted nothing bad. -/
theorem WpOn.of_run {m : Prog σ ε η α} {es : List ε} {a : α} {s' : σ}
    (h : WpOn good bad E m Q s) (hrun : m s = (es, .ok a s'))
    (hes : ∀ e ∈ es, ¬ bad e) : Q a s' := by
  unfold WpOn at h
  rw [hrun] at h
  rcases h with ⟨e, he, hb⟩ | ⟨_, h⟩
  · exact absurd hb (hes e he)
  · exact h

end Traced
