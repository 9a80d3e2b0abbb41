/-
Radix trees held in a flat heap of tables: the shape of every
multi-level page table.

A heap `h : A → I → W` gives each table address its row of words, and
`child` decodes a word into the next table, if it holds one. Nothing
in the heap says the tables form a tree; what a client maintains is
`Separate h r n`, that the tables reached from `r` in fewer than `n`
steps sit at pairwise different addresses. Under it the two edits a
page-table walk makes have pointwise descriptions:

- writing a bottom-level word changes that one slot and no other
  (`node_put_leaf`, `slot_put_leaf`);
- hanging a fresh blank table under an empty word adds one node and
  changes no slot that was there (`node_attach`, `slot_attach`).

`node_congr` is the frame rule: a walk reads the tables it passes and
nothing else.
-/
import Mathlib.Data.List.Induction

namespace Radix

variable {A I W : Type _}

/-- The table reached from `r` along an index path. -/
def node (child : W → Option A) (h : A → I → W) : A → List I → Option A
  | r, [] => some r
  | r, i :: p => (child (h r i)).bind fun t => node child h t p

/-- The word at index `i` of the table at the end of path `p`. -/
def slot (child : W → Option A) (h : A → I → W) (r : A) (p : List I)
    (i : I) : Option W :=
  (node child h r p).map fun t => h t i

/-- The tables within `n` steps of `r` are pairwise different. -/
def Separate (child : W → Option A) (h : A → I → W) (r : A) (n : Nat) :
    Prop :=
  ∀ p q a, p.length < n → q.length < n →
    node child h r p = some a → node child h r q = some a → p = q

variable {child : W → Option A} {h h' : A → I → W} {r : A} {n : Nat}

@[simp] theorem node_nil : node child h r [] = some r := rfl

theorem node_append (p q : List I) :
    node child h r (p ++ q)
      = (node child h r p).bind fun t => node child h t q := by
  induction p generalizing r with
  | nil => rfl
  | cons i p ih =>
      simp only [List.cons_append, node, Option.bind_assoc]
      congr 1
      funext t
      exact ih

/-- One more step: the last table's word, decoded. -/
theorem node_snoc (p : List I) (i : I) :
    node child h r (p ++ [i])
      = (node child h r p).bind fun t => child (h t i) := by
  rw [node_append]
  congr 1
  funext t
  simp only [node]
  cases child (h t i) <;> rfl

/-- A walk reads the tables it passes and nothing else. -/
theorem node_congr
    (hag : ∀ p t, p.length < n → node child h r p = some t →
      ∀ i, h' t i = h t i) :
    ∀ q, q.length ≤ n → node child h' r q = node child h r q := by
  intro q
  induction q using List.reverseRecOn with
  | nil => intro _; rfl
  | append_singleton q i ih =>
      intro hlen
      simp only [List.length_append, List.length_singleton] at hlen
      rw [node_snoc, node_snoc, ih (by omega)]
      cases hq : node child h r q with
      | none => rfl
      | some t =>
          simp only [Option.bind_some]
          rw [hag q t (by omega) hq i]

variable [DecidableEq A] [DecidableEq I]

/-- Overwrite one word. -/
def put (h : A → I → W) (t : A) (i : I) (w : W) : A → I → W :=
  fun t' i' => if t' = t ∧ i' = i then w else h t' i'

/-- Blank one table: every word becomes `z`. -/
def blank (h : A → I → W) (f : A) (z : W) : A → I → W :=
  fun t' i' => if t' = f then z else h t' i'

-- ==== leaf writes

section Leaf

variable {t : A} {i : I} {w : W} {p : List I}

/-- A bottom-level write moves no table. -/
theorem node_put_leaf (hsep : Separate child h r n)
    (hp : node child h r p = some t) (hlen : p.length + 1 = n) :
    ∀ q, q.length < n →
      node child (put h t i w) r q = node child h r q := by
  intro q hq
  refine node_congr (n := p.length) (fun p' t' hp' ht' j => ?_) q (by omega)
  -- a shorter path ends at another table
  have hne : t' ≠ t := by
    rintro rfl
    have := hsep p' p t' (by omega) (by omega) ht' hp
    rw [this] at hp'
    omega
  simp only [put, hne, false_and, if_false]

/-- A bottom-level write changes its own slot and no other. -/
theorem slot_put_leaf (hsep : Separate child h r n)
    (hp : node child h r p = some t) (hlen : p.length + 1 = n)
    {q : List I} (hq : q.length + 1 = n) (j : I) :
    slot child (put h t i w) r q j
      = if q = p ∧ j = i then some w else slot child h r q j := by
  unfold slot
  rw [node_put_leaf hsep hp hlen q (by omega)]
  cases hqt : node child h r q with
  | none =>
      have hne : q ≠ p := by rintro rfl; rw [hp] at hqt; cases hqt
      simp [hne]
  | some t' =>
      have hiff : t' = t ↔ q = p := by
        constructor
        · rintro rfl
          exact hsep q p t' (by omega) (by omega) hqt hp
        · rintro rfl
          rw [hp] at hqt
          exact (Option.some.inj hqt).symm
      simp only [Option.map_some, put, hiff]
      split <;> rfl

end Leaf

-- ==== growth

section Attach

variable {t f : A} {i : I} {w z : W} {p : List I}

/-- Hanging a fresh blank table under an empty word adds exactly one
node. -/
theorem node_attach (hsep : Separate child h r n)
    (hp : node child h r p = some t) (hlen : p.length + 1 < n)
    (hempty : child (h t i) = none) (hw : child w = some f)
    (hz : child z = none)
    (hfresh : ∀ q, q.length < n → node child h r q ≠ some f) :
    ∀ q, q.length < n →
      node child (put (blank h f z) t i w) r q
        = if q = p ++ [i] then some f else node child h r q := by
  have hpi : node child h r (p ++ [i]) = none := by
    rw [node_snoc, hp]
    exact hempty
  have htf : t ≠ f := by
    rintro rfl
    exact hfresh p (by omega) hp
  intro q
  induction q using List.reverseRecOn with
  | nil =>
      intro _
      have hne : ([] : List I) ≠ p ++ [i] := by simp
      simp [hne]
  | append_singleton q j ih =>
      intro hq
      simp only [List.length_append, List.length_singleton] at hq
      rw [node_snoc, ih (by omega)]
      by_cases hqp : q = p ++ [i]
      · -- below the new table: still nothing, in both heaps
        subst hqp
        have hne : (p ++ [i]) ++ [j] ≠ p ++ [i] := by
          intro habs
          have := congrArg List.length habs
          simp at this
        rw [if_pos rfl, if_neg hne, node_snoc, hpi]
        have hft : ¬ (f = t ∧ j = i) := fun hc => htf hc.1.symm
        simp only [Option.bind_some, Option.bind_none, put, if_neg hft,
          blank, if_true, hz]
      · rw [if_neg hqp, node_snoc]
        cases hqt : node child h r q with
        | none =>
            have hne : q ++ [j] ≠ p ++ [i] := by
              intro habs
              have hq' : q = p := List.append_inj_left' habs rfl
              rw [hq', hp] at hqt
              cases hqt
            rw [if_neg hne]
            rfl
        | some t' =>
            have ht'f : t' ≠ f := by
              rintro rfl
              exact hfresh q (by omega) hqt
            simp only [Option.bind_some]
            by_cases hput : t' = t ∧ j = i
            · obtain ⟨rfl, rfl⟩ := hput
              have hq' : q = p :=
                hsep q p t' (by omega) (by omega) hqt hp
              subst hq'
              simp only [put, and_self, if_true, hw]
            · have hne : q ++ [j] ≠ p ++ [i] := by
                intro habs
                have hq' : q = p := List.append_inj_left' habs rfl
                have hj : [j] = [i] := List.append_inj_right' habs rfl
                rw [hq', hp] at hqt
                exact hput ⟨(Option.some.inj hqt).symm, by simpa using hj⟩
              rw [if_neg hne]
              simp only [put, if_neg hput, blank, ht'f, if_false]

end Attach

end Radix
