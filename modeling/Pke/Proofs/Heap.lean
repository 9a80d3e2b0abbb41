/-
The page bookkeeping: who owns which page, and what that protects.

`Heap s own fl` ties the ghost owner map to the free list: the free
pages are exactly those on the list, and every page the map has an
opinion on is a page the allocator could have handed out. Taking a page
relabels it, giving one back makes it free, and a write is harmless to
the bookkeeping whenever it stays inside pages that are not free.

Frame reasoning is by page. `Within m m' q` says a write stayed in page
`q`; every page at another address is then untouched.
-/
import Pke.Proofs.Pmm
import Pke.Proofs.PageTable

namespace Pke

open ByteMem Traced

/-- The free pages are those of the list; owned pages are pages of the
managed memory. -/
structure Heap (s : Kernel) (own : Nat → Owner) (fl : List Nat) : Prop where
  pool : Pool s fl
  free : ∀ p, own p = .free ↔ p ∈ fl
  page : ∀ p, own p ≠ .held → PageIn s p

/-- The two memories differ in page `q` at most. -/
def Within (m m' : Mem) (q : Nat) : Prop :=
  ∀ x, x < q ∨ q + 4096 ≤ x → m' x = m x

variable {bad : Event → Prop} {E : Halt → Kernel → Prop}
variable {s s' : Kernel} {own : Nat → Owner} {fl t : List Nat}
variable {m m' : Mem} {p q pa : Nat}

/-- The page at NULL is nobody's. -/
theorem Heap.null (hh : Heap s own fl) : own 0 = .held := by
  by_contra hne
  exact absurd (hh.page 0 hne).lo (Nat.not_le.mpr hh.pool.start_pos)

-- ==== writes in a page

theorem Within.refl (m : Mem) (q : Nat) : Within m m q := fun _ _ => rfl

theorem Within.trans {m₁ m₂ m₃ : Mem} (h₁ : Within m₁ m₂ q)
    (h₂ : Within m₂ m₃ q) : Within m₁ m₃ q :=
  fun x hx => (h₂ x hx).trans (h₁ x hx)

/-- Other pages are untouched. -/
theorem Within.agree (h : Within m m' q) (hp : p % pgSize = 0)
    (hq : q % pgSize = 0) (hne : p ≠ q) : Agree m m' p (p + 4096) := by
  intro x hlo hhi
  have hdis := page_disjoint hp hq hne
  exact h x (by omega)

theorem within_store {n a v : Nat} (hlo : q ≤ a) (hhi : a + n ≤ q + 4096) :
    Within m (store m n a v) q := by
  intro x hx
  unfold store
  rw [if_neg (by omega)]

theorem within_fill {a n : Nat} {b : UInt8} (hlo : q ≤ a)
    (hhi : a + n ≤ q + 4096) : Within m (fill m a b n) q := by
  intro x hx
  unfold fill
  rw [if_neg (by omega)]

theorem within_copy {dst src n : Nat} (hlo : q ≤ dst)
    (hhi : dst + n ≤ q + 4096) : Within m (copy m dst src n) q := by
  intro x hx
  unfold copy
  rw [if_neg (by omega)]

-- ==== the owners

theorem Heap.free_page (hh : Heap s own fl) (hp : own p = .free) :
    PageIn s p := hh.page p (by rw [hp]; decide)

theorem PageIn.pos (hp : PageIn s p) (hh : Heap s own fl) : 0 < p :=
  Nat.lt_of_lt_of_le hh.pool.start_pos hp.lo

/-- Page 0 is no page of the pool. -/
theorem Heap.zero_held (hh : Heap s own fl) : own 0 = .held := by
  by_contra hne
  exact absurd ((hh.page 0 hne).pos hh) (Nat.lt_irrefl 0)

theorem PageIn.lt (hp : PageIn s p) (hh : Heap s own fl) : p < 2 ^ 63 :=
  Nat.lt_of_lt_of_le hp.hi hh.pool.end_le

/-- A write that leaves the free pages alone leaves the bookkeeping
alone. -/
theorem Heap.write (hh : Heap s own fl) (hr : s'.rest = s.rest)
    (hhead : s'.gFreeMemList = s.gFreeMemList)
    (hag : ∀ p, own p = .free → Agree s.mem s'.mem p (p + 4096)) :
    Heap s' own fl where
  pool := hh.pool.write hr hhead fun p hp =>
    (hag p ((hh.free p).mpr hp)).mono (Nat.le_refl _) (by omega)
  free := hh.free
  page p hp := (hh.page p hp).congr hr

/-- A write within a page that is not free. -/
theorem Heap.within (hh : Heap s own fl) (hq : q % pgSize = 0)
    (hown : own q ≠ .free) (hw : Within s.mem m' q) :
    Heap { s with mem := m' } own fl := by
  refine hh.write rfl rfl fun p hp => ?_
  exact hw.agree (hh.free_page hp).aligned hq fun hpq => hown (hpq ▸ hp)

/-- Relabelling pages that are in use. -/
theorem Heap.relabel (hh : Heap s own fl) {own' : Nat → Owner}
    (hfree : ∀ p, own' p = .free ↔ own p = .free)
    (hheld : ∀ p, own p = .held → own' p = .held) : Heap s own' fl where
  pool := hh.pool
  free p := (hfree p).trans (hh.free p)
  page p hp := hh.page p fun h => hp (hheld p h)

/-- `alloc_page`: the page popped can be given any owner. -/
theorem wp_alloc (hh : Heap s own fl) {Q : Nat → Kernel → Prop}
    (hnull : ∀ s', fl = [] → ¬ bad (.alloc 0) → s'.rest = s.rest →
      s'.mem = s.mem → Heap s' own [] → Q 0 s')
    (hok : ∀ p t s', fl = p :: t → s'.rest = s.rest → s'.mem = s.mem →
      (∀ o, o ≠ .free → Heap s' (Function.update own p o) t) → Q p s') :
    Wp bad E allocPage Q s := by
  refine (wp_allocPage hh.pool).mono fun p s' hres => ?_
  obtain ⟨hr, hm, ⟨hnil, rfl, hb, hp⟩ | ⟨t, hcons, hp⟩⟩ := hres
  · refine hnull s' hnil hb hr hm ⟨hp, ?_, fun q hq => (hh.page q hq).congr hr⟩
    exact hnil ▸ hh.free
  · refine hok p t s' hcons hr hm fun o ho => ⟨hp, fun q => ?_, fun q hq => ?_⟩
    · have hnd : (p :: t).Nodup := hcons ▸ hh.pool.nodup
      by_cases hqp : q = p
      · subst hqp
        rw [Function.update_self]
        exact iff_of_false ho (List.nodup_cons.mp hnd).1
      · rw [Function.update_of_ne hqp, hh.free q, hcons, List.mem_cons]
        exact or_iff_right hqp
    · by_cases hqp : q = p
      · subst hqp
        have hmem : q ∈ fl := hcons ▸ List.mem_cons_self ..
        exact (hh.pool.page q hmem).congr hr
      · rw [Function.update_of_ne hqp] at hq
        exact (hh.page q hq).congr hr

/-- `free_page` of a page in use makes it free; only its link word is
written. -/
theorem wp_freeLink (hh : Heap s own fl) (hown : own pa ≠ .free)
    (hpg : PageIn s pa ∨ ∀ e s', E e s') {Q : Unit → Kernel → Prop}
    (hok : ∀ s', PageIn s pa → s'.rest = s.rest →
      s'.mem = store s.mem 8 pa s.gFreeMemList →
      Heap s' (Function.update own pa .free) (pa :: fl) → Q () s') :
    Wp bad E (freePage pa) Q s := by
  have hnew : pa ∉ fl := fun hmem => hown ((hh.free pa).mpr hmem)
  refine (wp_freePage hh.pool hpg hnew).mono fun _ s' hres => ?_
  obtain ⟨hr, hin, hm, hp⟩ := hres
  refine hok s' hin hr hm ⟨hp, fun q => ?_, fun q hq => ?_⟩
  · by_cases hqp : q = pa
    · subst hqp
      rw [Function.update_self]
      exact iff_of_true rfl (List.mem_cons_self ..)
    · rw [Function.update_of_ne hqp, hh.free q, List.mem_cons]
      exact (or_iff_right hqp).symm
  · by_cases hqp : q = pa
    · subst hqp
      exact hin.congr hr
    · rw [Function.update_of_ne hqp] at hq
      exact (hh.page q hq).congr hr

/-- `free_page` of a page in use makes it free. -/
theorem wp_free (hh : Heap s own fl) (hown : own pa ≠ .free)
    (hpg : PageIn s pa ∨ ∀ e s', E e s') {Q : Unit → Kernel → Prop}
    (hok : ∀ s', PageIn s pa → s'.rest = s.rest → Within s.mem s'.mem pa →
      Heap s' (Function.update own pa .free) (pa :: fl) → Q () s') :
    Wp bad E (freePage pa) Q s := by
  refine wp_freeLink hh hown hpg fun s' hin hr hm hh' => hok s' hin hr ?_ hh'
  rw [hm]
  exact within_store (Nat.le_refl _) (by omega)

end Pke
