/-
What the virtual memory functions do to a page table.

Each function has one specification, over any state whose bookkeeping
(`Heap`) and tree (`Tables`) are in order:

- a walk without allocation reads the tree and changes nothing;
- a walk with allocation and a mapping grow the tree (`Grown`) and set
  the leaves of the pages they map; they fail only when the free list
  is exhausted;
- an unmapping clears leaves and, if asked, frees their frames.

Functions that can panic take the reason it does not happen, or that
the halt is tolerated: `… ∨ ∀ e s, E e s`.
-/
import Pke.Proofs.Heap
import Mathlib.Data.List.Perm.Subperm

namespace Pke

open ByteMem Traced Radix

variable {bad : Event → Prop} {E : Halt → Kernel → Prop}
variable {s s' s₁ s₂ s₃ : Kernel} {own own' own₁ own₂ own₃ : Nat → Owner}
variable {fl fl' fl₁ fl₂ fl₃ : List Nat} {i root va pt t : Nat}
variable {N : List (Fin 512) → Prop}

-- ==== reading the tree

/-- The address a walk without allocation returns. -/
def walkAddr (m : Mem) (root va : Nat) : Nat :=
  match tableAt m root (vpath va) with
  | none => 0
  | some t => t + 8 * px 0 va

theorem wp_walkLevel_false {level : Nat} {Q : Option Nat → Kernel → Prop} :
    Wp bad E (walkLevel false va level pt) Q s
      ↔ Q (child (row s.mem pt (px level va))) s := by
  simp only [walkLevel, wp_bind, ld, wp_get, wp_pure]
  show Wp bad E (if row s.mem pt (px level va) &&& pteV ≠ 0 then _ else _) Q s ↔ _
  by_cases hv : row s.mem pt (px level va) &&& pteV ≠ 0
  · rw [if_pos hv, child_eq_some hv, wp_pure]
    rfl
  · rw [if_neg hv, child_eq_none (not_not.mp hv)]
    simp only [Bool.false_eq_true, if_false, wp_pure]

theorem wp_pageWalk_false (hva : va < maxVa) {Q : Nat → Kernel → Prop} :
    Wp bad E (pageWalk root va false) Q s ↔ Q (walkAddr s.mem root va) s := by
  have hpath : tableAt s.mem root (vpath va)
      = (child (row s.mem root (px 2 va))).bind fun t =>
          child (row s.mem t (px 1 va)) := by
    unfold tableAt vpath
    simp only [node]
    congr 1
    funext t
    cases child (row s.mem t (px 1 va)) <;> rfl
  unfold pageWalk walkAddr
  rw [if_neg (Nat.not_le.mpr hva), wp_bind, wp_walkLevel_false, hpath]
  cases child (row s.mem root (px 2 va)) with
  | none => simp only [Option.bind_none, wp_pure]
  | some t =>
      simp only [Option.bind_some, wp_bind, wp_walkLevel_false]
      cases child (row s.mem t (px 1 va)) with
      | none => simp only [wp_pure]
      | some t' => simp only [wp_pure]

/-- The frame a leaf gives to `lookup_pa`: only readable or writable
pages count, anything else is 0. -/
def leafPa : Option Nat → Nat
  | none => 0
  | some w => if w &&& pteR = 0 ∧ w &&& pteW = 0 then 0 else pte2pa w

/-- The bottom-level entry a walk stops at, read through `leaf`. -/
theorem leaf_eq (ht : tableAt s.mem root (vpath va) = some t) :
    leaf s.mem root va = validEntry (row s.mem t (px 0 va)) := by
  unfold leaf slot
  unfold tableAt at ht
  rw [ht]
  rfl

theorem leaf_none (ht : tableAt s.mem root (vpath va) = none) :
    leaf s.mem root va = none := by
  unfold leaf slot
  unfold tableAt at ht
  rw [ht]
  rfl

/-- The test of `lookup_pa` on a bottom-level entry. -/
theorem wp_entryPa {e : Nat} {Q : Nat → Kernel → Prop} :
    Wp bad E (if e &&& pteV = 0 ∨ (e &&& pteR = 0 ∧ e &&& pteW = 0) then
        pure 0
      else pure (pte2pa e) : K Nat) Q s
      ↔ Q (leafPa (validEntry e)) s := by
  unfold validEntry
  by_cases hv : e &&& pteV = 0
  · rw [if_pos (Or.inl hv), if_neg (not_not.mpr hv), wp_pure]
    rfl
  · rw [if_pos hv]
    unfold leafPa
    by_cases hrw : e &&& pteR = 0 ∧ e &&& pteW = 0
    · rw [if_pos (Or.inr hrw), wp_pure]
      simp only [if_pos hrw]
    · rw [if_neg (not_or.mpr ⟨hv, hrw⟩), wp_pure]
      simp only [if_neg hrw]

theorem Heap.table_page (hh : Heap s own fl) {path : List (Fin 512)}
    (ht : own t = .table i path) : PageIn s t :=
  hh.page t (by rw [ht]; exact Owner.noConfusion)

theorem wp_lookupPa (hh : Heap s own fl) (hT : Tables s.mem own i root)
    (hva : va < maxVa) {Q : Nat → Kernel → Prop} :
    Wp bad E (lookupPa root va) Q s ↔ Q (leafPa (leaf s.mem root va)) s := by
  unfold lookupPa
  rw [if_neg (Nat.not_le.mpr hva), wp_bind, wp_pageWalk_false hva]
  unfold walkAddr
  cases ht : tableAt s.mem root (vpath va) with
  | none =>
      rw [leaf_none ht]
      simp only [if_true, wp_pure]
      rfl
  | some t =>
      have hpos := (hh.table_page (hT _ t (vpath_lt va) ht)).pos hh
      have hne : t + 8 * (px 0 va : Nat) ≠ 0 := by omega
      rw [leaf_eq ht]
      simp only [if_neg hne, wp_bind, ld, wp_get, wp_pure]
      exact wp_entryPa

-- ==== growing

/-- The tree at `root` got new tables, all of them taken from the free
list and hung at paths in `N`; nothing else changed owner, and pages
that are still free, or neither free nor tables of the tree, kept their
content. -/
structure Grown (i root : Nat) (N : List (Fin 512) → Prop)
    (s : Kernel) (own : Nat → Owner) (fl : List Nat)
    (s' : Kernel) (own' : Nat → Owner) (fl' : List Nat) : Prop where
  rest : s'.rest = s.rest
  heap : Heap s' own' fl'
  tables : Tables s'.mem own' i root
  mono : ∀ path t, path.length < 3 → tableAt s.mem root path = some t →
    tableAt s'.mem root path = some t
  keep : ∀ p, own p ≠ .free → own' p = own p
  agree : ∀ p, p % pgSize = 0 → own p ≠ .free →
    (∀ path, own p ≠ .table i path) → Agree s.mem s'.mem p (p + 4096)
  taken : ∃ tk, fl = tk ++ fl' ∧ ∀ p ∈ tk, ∃ path, N path ∧
    path.length < 3 ∧ tableAt s'.mem root path = some p
  spare : ∀ p ∈ fl', Agree s.mem s'.mem p (p + 4096)

theorem Grown.refl (hh : Heap s own fl) (hT : Tables s.mem own i root) :
    Grown i root N s own fl s own fl where
  rest := rfl
  heap := hh
  tables := hT
  mono _ _ _ ht := ht
  keep _ _ := rfl
  agree p _ _ _ := Agree.refl s.mem p (p + 4096)
  taken := ⟨[], rfl, fun _ hp => absurd hp List.not_mem_nil⟩
  spare p _ := Agree.refl s.mem p (p + 4096)

theorem Grown.trans (h₁ : Grown i root N s₁ own₁ fl₁ s₂ own₂ fl₂)
    (h₂ : Grown i root N s₂ own₂ fl₂ s₃ own₃ fl₃) :
    Grown i root N s₁ own₁ fl₁ s₃ own₃ fl₃ where
  rest := h₂.rest.trans h₁.rest
  heap := h₂.heap
  tables := h₂.tables
  mono path t hlen ht := h₂.mono path t hlen (h₁.mono path t hlen ht)
  keep p hp := by
    have h := h₁.keep p hp
    rw [h₂.keep p (by rw [h]; exact hp), h]
  agree p hal hfree htab := by
    have h := h₁.keep p hfree
    refine (h₁.agree p hal hfree htab).trans (h₂.agree p hal ?_ ?_)
    · rw [h]; exact hfree
    · rw [h]; exact htab
  taken := by
    obtain ⟨tk₁, hfl₁, htk₁⟩ := h₁.taken
    obtain ⟨tk₂, hfl₂, htk₂⟩ := h₂.taken
    refine ⟨tk₁ ++ tk₂, by rw [hfl₁, hfl₂, List.append_assoc], fun p hp => ?_⟩
    rcases List.mem_append.mp hp with hp | hp
    · obtain ⟨path, hN, hlen, ht⟩ := htk₁ p hp
      exact ⟨path, hN, hlen, h₂.mono path p hlen ht⟩
    · exact htk₂ p hp
  spare p hp := by
    obtain ⟨tk₂, hfl₂, -⟩ := h₂.taken
    refine (h₁.spare p ?_).trans (h₂.spare p hp)
    rw [hfl₂]
    exact List.mem_append_right tk₂ hp

theorem Grown.weaken {N' : List (Fin 512) → Prop}
    (h : Grown i root N s own fl s' own' fl') (hN : ∀ p, N p → N' p) :
    Grown i root N' s own fl s' own' fl' :=
  { h with
    taken := by
      obtain ⟨tk, hfl, htk⟩ := h.taken
      refine ⟨tk, hfl, fun p hp => ?_⟩
      obtain ⟨path, hpath, hrest⟩ := htk p hp
      exact ⟨path, hN path hpath, hrest⟩ }

/-- An allocation that fails grows nothing. -/
theorem grown_null (hT : Tables s.mem own i root) (hr : s'.rest = s.rest)
    (hm : s'.mem = s.mem) (hh : Heap s' own fl) :
    Grown i root N s own fl s' own fl where
  rest := hr
  heap := hh
  tables := hm ▸ hT
  mono := by rw [hm]; exact fun _ _ _ h => h
  keep _ _ := rfl
  agree := by rw [hm]; exact fun p _ _ _ => Agree.refl s.mem p _
  taken := ⟨[], rfl, fun _ hp => absurd hp List.not_mem_nil⟩
  spare := by rw [hm]; exact fun p _ => Agree.refl s.mem p _

/-- The tables of the tree are aligned pages. -/
theorem Heap.table_aligned (hh : Heap s own fl) :
    ∀ (path : List (Fin 512)) t, own t = .table i path → t % 4096 = 0 :=
  fun _ _ ht => (hh.table_page ht).aligned

/-- Attaching writes to the new page and the table above it. -/
theorem agree_attach {m : Mem} {p f : Nat} {j : Fin 512} (hp : p % pgSize = 0)
    (hfal : f % pgSize = 0) (htal : t % pgSize = 0) (hpf : p ≠ f) (hpt : p ≠ t) :
    Agree m (attachTable m t f j) p (p + 4096) := by
  have hk := j.isLt
  have hfill : Within m (fill m f 0 pgSize) f :=
    within_fill (Nat.le_refl _) (Nat.le_refl _)
  have hstore : Within (fill m f 0 pgSize) (attachTable m t f j) t :=
    within_store (by omega) (by omega)
  exact (hfill.agree hp hfal hpf).trans (hstore.agree hp htal hpt)

/-- Taking a fresh page for a missing table grows the tree by it. -/
theorem grown_attach {path : List (Fin 512)} {j : Fin 512} {f : Nat}
    (hh : Heap s own (f :: fl)) (hT : Tables s.mem own i root)
    (ht : tableAt s.mem root path = some t) (hlen : path.length < 2)
    (hempty : row s.mem t j &&& pteV = 0) (hN : N (path ++ [j]))
    (hr : s₁.rest = s.rest) (hm : s₁.mem = s.mem)
    (hh₁ : ∀ o, o ≠ .free → Heap s₁ (Function.update own f o) fl) :
    Grown i root N s own (f :: fl)
      { s₁ with mem := attachTable s.mem t f j }
      (Function.update own f (.table i (path ++ [j]))) fl
    ∧ (∀ a, leaf (attachTable s.mem t f j) root a = leaf s.mem root a)
    ∧ tableAt (attachTable s.mem t f j) root (path ++ [j]) = some f := by
  have htab := hT path t (by omega) ht
  have htal := hh.table_aligned path t htab
  have hfree : own f = .free := (hh.free f).mpr (List.mem_cons_self ..)
  have hfpage := hh.free_page hfree
  have hfal : f % 4096 = 0 := hfpage.aligned
  have hflt : f < 2 ^ 64 := Nat.lt_trans (hfpage.lt hh) (by decide)
  have hlen' : (path ++ [j]).length < 3 := by
    rw [List.length_append, List.length_singleton]
    omega
  have hattach := tableAt_attach hT hh.table_aligned ht hlen hempty hfree hfal hflt
  have hnew : tableAt (attachTable s.mem t f j) root (path ++ [j]) = some f := by
    rw [hattach _ hlen', if_pos rfl]
  have hother := fun p hp => agree_attach (m := s.mem) (j := j) (p := p) hp hfal htal
  refine ⟨⟨hr, ?_, ?_, ?_, ?_, ?_, ?_, ?_⟩, fun a => ?_, hnew⟩
  · refine (hh₁ (.table i (path ++ [j])) Owner.noConfusion).write rfl rfl
      fun p hp => ?_
    have hpf : p ≠ f := by
      intro hpf
      rw [hpf, Function.update_self] at hp
      cases hp
    rw [Function.update_of_ne hpf] at hp
    have hpt : p ≠ t := fun h => by rw [h, htab] at hp; cases hp
    rw [hm]
    exact hother p (hh.free_page hp).aligned hpf hpt
  · exact hT.attach hh.table_aligned ht hlen hempty hfree hfal hflt
  · intro q t' hq hq'
    show tableAt (attachTable s.mem t f j) root q = _
    rw [hattach q hq]
    split
    case isTrue hqp =>
      have hnone : tableAt s.mem root q = none := by
        rw [hqp]
        unfold tableAt at ht ⊢
        rw [node_snoc, ht]
        exact child_eq_none hempty
      rw [hnone] at hq'
      cases hq'
    case isFalse => exact hq'
  · intro p hp
    rw [Function.update_of_ne]
    exact fun hpf => hp (hpf ▸ hfree)
  · intro p hal hpfree htable
    refine hother p hal (fun h => hpfree (h ▸ hfree)) ?_
    exact fun h => htable path (h ▸ htab)
  · refine ⟨[f], rfl, fun p hp => ?_⟩
    rw [List.mem_singleton.mp hp]
    exact ⟨path ++ [j], hN, hlen', hnew⟩
  · intro p hp
    have hmem := List.mem_cons_of_mem f hp
    refine hother p (hh.pool.page p hmem).aligned (fun h => ?_) fun h => ?_
    · exact (List.nodup_cons.mp hh.pool.nodup).1 (h ▸ hp)
    · have hused := (hh.free p).mpr hmem
      rw [h, htab] at hused
      cases hused
  · exact leaf_attach hT hh.table_aligned ht hlen hempty hfree hfal hflt

/-- One level of a walk with allocation: the table below `t`, possibly
new, or NULL with the free list exhausted and the table missing. -/
theorem wp_walkLevel_true {level : Nat} {path : List (Fin 512)}
    (hh : Heap s own fl) (hT : Tables s.mem own i root)
    (ht : tableAt s.mem root path = some t) (hlen : path.length < 2)
    (hN : N (path ++ [px level va])) :
    Wp bad E (walkLevel true va level t) (fun o s' => ∃ own' fl',
      Grown i root N s own fl s' own' fl' ∧
      (∀ a, leaf s'.mem root a = leaf s.mem root a) ∧
      match o with
      | none => fl' = [] ∧ ¬ bad (.alloc 0) ∧
          tableAt s'.mem root (path ++ [px level va]) = none
      | some t' => tableAt s'.mem root (path ++ [px level va]) = some t') s := by
  simp only [walkLevel, wp_bind, ld, wp_get, wp_pure]
  show Wp bad E (if row s.mem t (px level va) &&& pteV ≠ 0 then _ else _) _ s
  by_cases hv : row s.mem t (px level va) &&& pteV ≠ 0
  · rw [if_pos hv, wp_pure]
    refine ⟨own, fl, Grown.refl hh hT, fun _ => rfl, ?_⟩
    show node child (row s.mem) root (path ++ [px level va]) = _
    unfold tableAt at ht
    rw [node_snoc, ht, Option.bind_some, child_eq_some hv]
    rfl
  · rw [if_neg hv, if_pos trivial, wp_bind]
    refine wp_alloc hh (fun s₁ hnil hb hr hm hh₁ => ?_)
      (fun f rest s₁ hcons hr hm hh₁ => ?_)
    · subst hnil
      rw [if_neg (not_not.mpr rfl), wp_pure]
      refine ⟨own, [], grown_null hT hr hm hh₁, ?_, rfl, hb, ?_⟩
      · rw [hm]
        exact fun _ => rfl
      · unfold tableAt at ht ⊢
        rw [hm, node_snoc, ht]
        exact child_eq_none (not_not.mp hv)
    · subst hcons
      have hffree : own f = .free := (hh.free f).mpr (List.mem_cons_self ..)
      have hfpos := (hh.free_page hffree).pos hh
      have hfne : f ≠ 0 := by omega
      simp only [if_pos hfne, wp_bind, memset, sd, onMem, wp_modify, wp_pure]
      rw [hm]
      obtain ⟨hgrown, hleaf, hnew⟩ := grown_attach hh hT ht hlen (not_not.mp hv)
        hN hr hm hh₁
      exact ⟨_, rest, hgrown, hleaf, hnew⟩

/-- The tables on the way to `va`. -/
def onWay (va : Nat) (path : List (Fin 512)) : Prop :=
  path = [px 2 va] ∨ path = vpath va

/-- A walk with allocation ends at the bottom-level entry of `va`, or
returns NULL with the free list exhausted and a table missing. -/
theorem wp_pageWalk_true (hh : Heap s own fl) (hT : Tables s.mem own i root)
    (hva : va < maxVa ∨ ∀ e s', E e s') (hN : ∀ p, onWay va p → N p) :
    Wp bad E (pageWalk root va true) (fun pte s' => va < maxVa ∧ ∃ own' fl',
      Grown i root N s own fl s' own' fl' ∧
      (∀ a, leaf s'.mem root a = leaf s.mem root a) ∧
      ((pte = 0 ∧ fl' = [] ∧ ¬ bad (.alloc 0) ∧
          ∃ path, onWay va path ∧ tableAt s'.mem root path = none) ∨
        ∃ t, tableAt s'.mem root (vpath va) = some t ∧
          pte = t + 8 * px 0 va)) s := by
  unfold pageWalk
  rw [wp_ite]
  refine ⟨fun hbig => ?_, fun hsmall => ?_⟩
  · have hE := hva.resolve_left (Nat.not_lt.mpr hbig)
    simp only [panic, wp_halt]
    exact hE _ _
  · have hlt : va < maxVa := Nat.not_le.mp hsmall
    rw [wp_bind]
    refine (wp_walkLevel_true hh hT
      (show tableAt s.mem root [] = some root from rfl) (by decide)
      (hN _ (Or.inl rfl))).mono fun o s₁ hres => ?_
    obtain ⟨own₁, fl₁, hg₁, hleaf₁, ho⟩ := hres
    cases o with
    | none =>
        obtain ⟨hnil, hb, hnone⟩ := ho
        rw [wp_pure]
        exact ⟨hlt, own₁, fl₁, hg₁, hleaf₁,
          Or.inl ⟨rfl, hnil, hb, _, Or.inl rfl, hnone⟩⟩
    | some t₁ =>
        rw [wp_bind]
        refine (wp_walkLevel_true hg₁.heap hg₁.tables ho (Nat.lt_succ_self 1)
          (hN _ (Or.inr rfl))).mono fun o s₂ hres => ?_
        obtain ⟨own₂, fl₂, hg₂, hleaf₂, ho₂⟩ := hres
        have hg := hg₁.trans hg₂
        have hleaf : ∀ a, leaf s₂.mem root a = leaf s.mem root a :=
          fun a => (hleaf₂ a).trans (hleaf₁ a)
        cases o with
        | none =>
            obtain ⟨hnil, hb, hnone⟩ := ho₂
            rw [wp_pure]
            exact ⟨hlt, own₂, fl₂, hg, hleaf,
              Or.inl ⟨rfl, hnil, hb, _, Or.inr rfl, hnone⟩⟩
        | some t₂ =>
            rw [wp_pure]
            exact ⟨hlt, own₂, fl₂, hg, hleaf, Or.inr ⟨t₂, ho₂, rfl⟩⟩

-- ==== mapping

/-- Page `k` of the pages from `first` on. -/
def inPages (first n va : Nat) : Prop :=
  first / 4096 ≤ va / 4096 ∧ va / 4096 < first / 4096 + n

instance (first n va : Nat) : Decidable (inPages first n va) :=
  inferInstanceAs (Decidable (_ ∧ _))

/-- The leaves after mapping `n` pages from `first` to frames from
`pa`. -/
structure Mapped (first pa perm n : Nat) (root : Nat) (m m' : Mem) : Prop where
  unmapped : ∀ va, va < 2 ^ 39 → inPages first n va → leaf m root va = none
  leaves : ∀ va, va < 2 ^ 39 → leaf m' root va =
    if inPages first n va then
      some (pa2pte (pa + (va / 4096 - first / 4096) * 4096) ||| perm ||| pteV)
    else leaf m root va

/-- Writing the entry at the end of a walk. -/
theorem grown_store (hh : Heap s own fl) (hT : Tables s.mem own i root)
    (ht : tableAt s.mem root (vpath va) = some t) (w : Nat) :
    Grown i root N s own fl
      { s with mem := ByteMem.store s.mem 8 (t + 8 * px 0 va) w } own fl := by
  have htab := hT _ t (vpath_lt va) ht
  have htal := hh.table_aligned _ t htab
  have hj := (px 0 va).isLt
  have hw : Within s.mem (ByteMem.store s.mem 8 (t + 8 * px 0 va) w) t :=
    within_store (by omega) (by omega)
  refine ⟨rfl, ?_, ?_, ?_, fun _ _ => rfl, ?_, ?_, ?_⟩
  · exact hh.within htal (by rw [htab]; exact Owner.noConfusion) hw
  · exact hT.store hh.table_aligned ht w
  · intro path t' hlen ht'
    show tableAt (ByteMem.store s.mem 8 (t + 8 * px 0 va) w) root path = _
    rw [tableAt_store hT hh.table_aligned ht w path hlen]
    exact ht'
  · intro p hal _ htable
    exact hw.agree hal htal fun hpt => htable _ (hpt ▸ htab)
  · exact ⟨[], rfl, fun p hp => absurd hp List.not_mem_nil⟩
  · intro p hp
    refine hw.agree (hh.pool.page p hp).aligned htal fun hpt => ?_
    have hfree := (hh.free p).mpr hp
    rw [hpt, htab] at hfree
    cases hfree

theorem not_inPages_zero (first va : Nat) : ¬ inPages first 0 va := by
  unfold inPages
  omega

theorem Mapped.zero_of {first pa perm : Nat} {m m' : Mem}
    (h : ∀ va, va < 2 ^ 39 → leaf m' root va = leaf m root va) :
    Mapped first pa perm 0 root m m' where
  unmapped va _ hin := absurd hin (not_inPages_zero first va)
  leaves va hva := by rw [if_neg (not_inPages_zero first va), h va hva]

/-- The frame address may wrap once no page is left to map. -/
theorem Mapped.unwrap {first pa perm k n : Nat} {m m' : Mem}
    (h : Mapped first (u64 (pa + pgSize)) perm k root m m') (hk : k ≤ n)
    (hpa : pa + (n + 1) * pgSize ≤ 2 ^ 64) :
    Mapped first (pa + pgSize) perm k root m m' := by
  cases k with
  | zero =>
      refine Mapped.zero_of fun va hva => ?_
      have hl := h.leaves va hva
      rwa [if_neg (not_inPages_zero first va)] at hl
  | succ k =>
      have hu : u64 (pa + pgSize) = pa + pgSize := by
        unfold u64
        simp only [pgSize] at hpa ⊢
        omega
      rwa [hu] at h

/-- One page, then the pages behind it. -/
theorem Mapped.cons {first pa perm k : Nat} {m m₁ m₂ : Mem}
    (h₁ : Mapped first pa perm 1 root m m₁)
    (h₂ : Mapped (first + pgSize) (pa + pgSize) perm k root m₁ m₂) :
    Mapped first pa perm (k + 1) root m m₂ := by
  have hnext : (first + pgSize) / 4096 = first / 4096 + 1 := by
    simp only [pgSize]
    omega
  have hsplit : ∀ va, inPages first (k + 1) va ↔
      va / 4096 = first / 4096 ∨ inPages (first + pgSize) k va := by
    intro va
    unfold inPages
    omega
  have hone : ∀ va, inPages first 1 va ↔ va / 4096 = first / 4096 := by
    intro va
    unfold inPages
    omega
  have hdis : ∀ va, va / 4096 = first / 4096 →
      ¬ inPages (first + pgSize) k va := by
    intro va hva
    unfold inPages
    omega
  refine ⟨fun va hva hin => ?_, fun va hva => ?_⟩
  · rcases (hsplit va).mp hin with hpage | hin'
    · exact h₁.unmapped va hva ((hone va).mpr hpage)
    · have hun := h₂.unmapped va hva hin'
      have hnot : ¬ inPages first 1 va := fun h =>
        hdis va ((hone va).mp h) hin'
      rw [h₁.leaves va hva, if_neg hnot] at hun
      exact hun
  · rw [h₂.leaves va hva, h₁.leaves va hva]
    by_cases hpage : va / 4096 = first / 4096
    · rw [if_neg (hdis va hpage), if_pos ((hone va).mpr hpage),
        if_pos ((hsplit va).mpr (Or.inl hpage))]
    · rw [if_neg fun h => hpage ((hone va).mp h)]
      by_cases hin : inPages (first + pgSize) k va
      · have hk : pa + pgSize + (va / 4096 - (first + pgSize) / 4096) * 4096
            = pa + (va / 4096 - first / 4096) * 4096 := by
          unfold inPages at hin
          simp only [pgSize] at hnext hin ⊢
          omega
        rw [if_pos hin, if_pos ((hsplit va).mpr (Or.inr hin)), hk]
      · rw [if_neg hin, if_neg]
        exact fun h => ((hsplit va).mp h).elim hpage hin

/-- Setting the entry of an unmapped page. -/
theorem mapped_store {pa perm : Nat} (hh : Heap s own fl)
    (hT : Tables s.mem own i root)
    (ht : tableAt s.mem root (vpath va) = some t) (hva : va < 2 ^ 39)
    (hpa : pa < 2 ^ 64) (hperm : perm < 1024)
    (hfree : row s.mem t (px 0 va) &&& pteV = 0) :
    Mapped va pa perm 1 root s.mem (ByteMem.store s.mem 8 (t + 8 * px 0 va)
      (pa2pte pa ||| perm ||| pteV)) := by
  have hor : perm ||| pteV < 1024 := Nat.or_lt_two_pow hperm (by decide : 1 < 2 ^ 10)
  have hw : (pa2pte pa ||| perm ||| pteV) % 256 ^ 8
      = pa2pte pa ||| perm ||| pteV := by
    rw [Nat.or_assoc]
    exact Nat.mod_eq_of_lt (pa2pte_or_lt hpa hor)
  have hvalid : (pa2pte pa ||| perm ||| pteV) &&& pteV ≠ 0 := by
    rw [Nat.or_assoc, pa2pte_or_and hor (by decide), Nat.and_or_distrib_right]
    intro hzero
    have := (Nat.or_eq_zero_iff.mp hzero).2
    revert this
    decide
  have hnone : leaf s.mem root va = none := by
    rw [leaf_eq ht]
    unfold validEntry
    rw [if_neg (not_not.mpr hfree)]
  have hone : ∀ a, inPages va 1 a ↔ a / 4096 = va / 4096 := by
    intro a
    unfold inPages
    omega
  have hsame : ∀ a, a < 2 ^ 39 → a / 4096 = va / 4096 →
      leaf s.mem root a = leaf s.mem root va := by
    intro a ha hpage
    obtain ⟨hpath, hidx⟩ := (vpath_inj hva ha).mpr hpage
    unfold leaf
    rw [hpath, hidx]
  refine ⟨fun a ha hin => ?_, fun a ha => ?_⟩
  · rw [hsame a ha ((hone a).mp hin), hnone]
  · rw [leaf_store hT hh.table_aligned ht _ hva ha, hw]
    by_cases hpage : a / 4096 = va / 4096
    · rw [if_pos hpage, if_pos ((hone a).mpr hpage), hpage, Nat.sub_self,
        Nat.zero_mul, Nat.add_zero]
      unfold validEntry
      rw [if_pos hvalid]
    · rw [if_neg hpage, if_neg fun h => hpage ((hone a).mp h)]

/-- One round of the loop of `map_pages`, before whatever follows it. -/
theorem wp_mapRound {perm first pa : Nat} {next : K Int}
    {Q : Int → Kernel → Prop} (hperm : perm < 1024) (hpa : pa < 2 ^ 64)
    (hh : Heap s own fl) (hT : Tables s.mem own i root)
    (hN : ∀ p, onWay first p → N p)
    (hok : (first < maxVa ∧ leaf s.mem root first = none) ∨ ∀ e s', E e s')
    (hnull : ∀ s' own', Grown i root N s own fl s' own' [] →
      Mapped first pa perm 0 root s.mem s'.mem → ¬ bad (.alloc 0) →
      (∃ path, N path ∧ tableAt s'.mem root path = none) → Q (-1) s')
    (hnext : ∀ s' own' fl', first < maxVa →
      Grown i root N s own fl s' own' fl' →
      Mapped first pa perm 1 root s.mem s'.mem → Wp bad E next Q s') :
    Wp bad E (do
      let pte ← pageWalk root first true
      if pte = 0 then
        return -1
      else
        let e ← ld pte
        if e &&& pteV ≠ 0 then
          panic "map_pages fails on mapping va (0x%lx) to pa (0x%lx)"
        else
          sd pte (pa2pte pa ||| perm ||| pteV)
          next) Q s := by
  rw [wp_bind]
  refine (wp_pageWalk_true hh hT (hok.imp_left And.left) hN).mono
    fun pte s₁ hres => ?_
  obtain ⟨hlt, own₁, fl₁, hg₁, hleaf₁, hpte⟩ := hres
  have h39 : first < 2 ^ 39 := Nat.lt_trans hlt (by decide)
  rcases hpte with ⟨rfl, rfl, hb, path, hpath, hnone⟩ | ⟨t, ht, rfl⟩
  · rw [if_pos rfl, wp_pure]
    exact hnull s₁ own₁ hg₁ (Mapped.zero_of fun va _ => hleaf₁ va) hb
      ⟨path, hN path hpath, hnone⟩
  · have htab := hg₁.tables _ t (vpath_lt first) ht
    have hpos := (hg₁.heap.table_page htab).pos hg₁.heap
    have hne : t + 8 * (px 0 first : Nat) ≠ 0 := by omega
    rw [if_neg hne]
    simp only [wp_bind, ld, wp_get, wp_pure]
    show Wp bad E (if row s₁.mem t (px 0 first) &&& pteV ≠ 0 then _ else _) _ s₁
    by_cases hv : row s₁.mem t (px 0 first) &&& pteV ≠ 0
    · -- already mapped: the kernel panics
      have hsome : leaf s.mem root first ≠ none := by
        rw [← hleaf₁, leaf_eq ht]
        unfold validEntry
        rw [if_pos hv]
        exact Option.some_ne_none _
      have hE := hok.resolve_left fun h => hsome h.2
      rw [if_pos hv]
      simp only [panic, wp_halt]
      exact hE _ _
    · rw [if_neg hv]
      simp only [wp_bind, sd, onMem, wp_modify]
      have hg₂ := grown_store (N := N) hg₁.heap hg₁.tables ht
        (pa2pte pa ||| perm ||| pteV)
      have hone := mapped_store hg₁.heap hg₁.tables ht h39 hpa hperm
        (not_not.mp hv)
      refine hnext _ own₁ fl₁ hlt (hg₁.trans hg₂) ⟨fun a ha hin => ?_, fun a ha => ?_⟩
      · rw [← hleaf₁]
        exact hone.unmapped a ha hin
      · rw [← hleaf₁]
        exact hone.leaves a ha

/-- The loop of `map_pages`: it maps every page, or stops with -1 after
some of them because the free list is exhausted and a table missing. -/
theorem wp_mapLoop {perm : Nat} (hperm : perm < 1024) :
    ∀ n first pa s own fl, Heap s own fl → Tables s.mem own i root →
      pa + n * pgSize ≤ 2 ^ 64 →
      (∀ k < n, ∀ p, onWay (first + k * pgSize) p → N p) →
      ((∀ k < n, first + k * pgSize < maxVa ∧
          leaf s.mem root (first + k * pgSize) = none) ∨ ∀ e s', E e s') →
      Wp bad E (mapLoop root perm n first pa) (fun r s' => ∃ own' fl' k,
        Grown i root N s own fl s' own' fl' ∧
        Mapped first pa perm k root s.mem s'.mem ∧
        (∀ j < k, first + j * pgSize < maxVa) ∧
        ((r = 0 ∧ k = n) ∨
          (r = -1 ∧ k < n ∧ fl' = [] ∧ ¬ bad (.alloc 0) ∧
            ∃ path, N path ∧ tableAt s'.mem root path = none))) s := by
  intro n
  induction n with
  | zero =>
      intro first pa s own fl hh hT _ _ _
      unfold mapLoop
      rw [wp_pure]
      exact ⟨own, fl, 0, Grown.refl hh hT, Mapped.zero_of fun _ _ => rfl,
        fun j hj => absurd hj (Nat.not_lt_zero j), Or.inl ⟨rfl, rfl⟩⟩
  | succ n ih =>
      intro first pa s own fl hh hT hpa hN hok
      have hfirst : first + 0 * pgSize = first := by omega
      have hshift : ∀ k, first + pgSize + k * pgSize
          = first + (k + 1) * pgSize := by
        intro k
        simp only [pgSize]
        omega
      have hpa64 : pa < 2 ^ 64 := by
        simp only [pgSize] at hpa
        omega
      have hN0 := hN 0 (Nat.succ_pos n)
      have hok0 : (first < maxVa ∧ leaf s.mem root first = none)
          ∨ ∀ e s', E e s' := hok.imp_left fun h => hfirst ▸ h 0 (Nat.succ_pos n)
      rw [hfirst] at hN0
      unfold mapLoop
      refine wp_mapRound hperm hpa64 hh hT hN0 hok0 ?_ ?_
      · intro s₁ own₁ hg hm hb hmissing
        exact ⟨own₁, [], 0, hg, hm, fun j hj => absurd hj (Nat.not_lt_zero j),
          Or.inr ⟨rfl, Nat.succ_pos n, rfl, hb, hmissing⟩⟩
      · intro s₁ own₁ fl₁ hlt hg₁ hone
        refine (ih (first + pgSize) (u64 (pa + pgSize)) s₁ own₁ fl₁ hg₁.heap
          hg₁.tables ?_ ?_ ?_).mono fun r s₃ hres => ?_
        · unfold u64
          simp only [pgSize] at hpa ⊢
          omega
        · intro k hk p hp
          rw [hshift] at hp
          exact hN (k + 1) (by omega) p hp
        · refine hok.imp_left fun h k hk => ?_
          obtain ⟨hmax, hnone⟩ := h (k + 1) (by omega)
          rw [hshift]
          refine ⟨hmax, ?_⟩
          rw [hone.leaves _ (Nat.lt_trans hmax (by decide)), if_neg, hnone]
          unfold inPages
          simp only [pgSize]
          omega
        · obtain ⟨own₃, fl₃, k, hg₃, hm₃, hmax, hcase⟩ := hres
          have hk : k ≤ n := by
            rcases hcase with ⟨_, hk⟩ | ⟨_, hk, _⟩
            · exact Nat.le_of_eq hk
            · exact Nat.le_of_lt hk
          refine ⟨own₃, fl₃, k + 1, hg₁.trans hg₃, hone.cons (hm₃.unwrap hk hpa),
            ?_, ?_⟩
          · intro j hj
            cases j with
            | zero => rw [hfirst]; exact hlt
            | succ j => rw [← hshift]; exact hmax j (by omega)
          · rcases hcase with ⟨hr, hk⟩ | ⟨hr, hk, hrest⟩
            · exact Or.inl ⟨hr, by rw [hk]⟩
            · exact Or.inr ⟨hr, by omega, hrest⟩

/-- Distinct tables hang at distinct paths, so no more pages are taken
than there are paths with a table. -/
theorem Grown.length_le (h : Grown i root N s own fl s' own' fl')
    (hh : Heap s own fl) (paths : List (List (Fin 512)))
    (hpaths : ∀ p, N p → tableAt s'.mem root p ≠ none → p ∈ paths) :
    fl.length ≤ fl'.length + paths.length := by
  obtain ⟨tk, hfl, htk⟩ := h.taken
  suffices hlen : tk.length ≤ paths.length by
    rw [hfl, List.length_append]
    omega
  choose path hpath using htk
  -- send each page taken to the path it hangs at
  have hinj : (tk.attach.map fun p => path p.1 p.2).Nodup := by
    refine List.Nodup.map_on ?_ ?_
    · intro p _ q _ hpq
      have hp := (hpath p.1 p.2).2.2
      rw [hpq, (hpath q.1 q.2).2.2] at hp
      exact Subtype.ext (Option.some.inj hp).symm
    · rw [List.nodup_attach]
      have hnd := hh.pool.nodup
      rw [hfl] at hnd
      exact (List.nodup_append.mp hnd).1
  have hsub : (tk.attach.map fun p => path p.1 p.2) ⊆ paths := by
    intro q hq
    obtain ⟨p, _, rfl⟩ := List.mem_map.mp hq
    obtain ⟨hN, _, ht⟩ := hpath p.1 p.2
    refine hpaths _ hN ?_
    rw [ht]
    exact Option.some_ne_none _
  have hle := (hinj.subperm hsub).length_le
  rwa [List.length_map, List.length_attach] at hle

/-- With one of the tables missing there is a page less. -/
theorem Grown.length_lt (h : Grown i root N s own fl s' own' fl')
    (hh : Heap s own fl) {paths : List (List (Fin 512))}
    (hpaths : ∀ p, N p → p ∈ paths) {path : List (Fin 512)} (hpath : N path)
    (hnone : tableAt s'.mem root path = none) :
    fl.length < fl'.length + paths.length := by
  have hin := hpaths path hpath
  have hle := h.length_le hh (paths.erase path) fun p hp hsome => by
    refine (List.mem_erase_of_ne ?_).mpr (hpaths p hp)
    rintro rfl
    exact hsome hnone
  rw [List.length_erase_of_mem hin] at hle
  have hpos := List.length_pos_of_mem hin
  omega

/-- `map_pages` on a range, in pages. -/
theorem mapPages_eq {size pa perm : Nat} (hsize : 1 ≤ size)
    (hlt : va + size ≤ 2 ^ 64) :
    mapPages root va size pa perm
      = mapLoop root perm ((va + size - 1) / 4096 - va / 4096 + 1)
          (va / 4096 * 4096) pa := by
  have hlast : u64 (va + size + (2 ^ 64 - 1)) = va + size - 1 := by
    unfold u64
    omega
  unfold mapPages roundDown
  simp only [hlast, pgSize]
  have hle : va / 4096 * 4096 ≤ (va + size - 1) / 4096 * 4096 :=
    Nat.mul_le_mul_right _ (Nat.div_le_div_right (by omega))
  have hn : ((va + size - 1) / 4096 * 4096 - va / 4096 * 4096) / 4096
      = (va + size - 1) / 4096 - va / 4096 := by
    rw [← Nat.sub_mul, Nat.mul_div_cancel _ (by decide)]
  rw [if_pos hle, hn]

/-- Mapping one page: a mapping takes two tables at most. -/
theorem wp_mapPage {pa perm : Nat} (hal : va % pgSize = 0)
    (hperm : perm < 1024) (hpa : pa + pgSize ≤ 2 ^ 64)
    (hh : Heap s own fl) (hT : Tables s.mem own i root)
    (hlen : 3 ≤ fl.length ∨ bad (.alloc 0))
    (hok : (va < maxVa ∧ leaf s.mem root va = none)
      ∨ (va + pgSize ≤ 2 ^ 64 ∧ ∀ e s', E e s')) :
    Wp bad E (mapPages root va pgSize pa perm) (fun r s' => r = 0 ∧
      ∃ own' fl', Grown i root (onWay va) s own fl s' own' fl' ∧
        Mapped va pa perm 1 root s.mem s'.mem ∧ va < maxVa ∧
        fl.length ≤ fl'.length + 2) s := by
  have hlt : va + pgSize ≤ 2 ^ 64 := by
    rcases hok with h | h
    · have := h.1
      simp only [maxVa, pgSize] at this ⊢
      omega
    · exact h.1
  have hpage : va / 4096 * 4096 = va := by
    simp only [pgSize] at hal
    omega
  have hone : (va + pgSize - 1) / 4096 - va / 4096 + 1 = 1 := by
    simp only [pgSize] at hal ⊢
    omega
  have hbase : va + 0 * pgSize = va := by omega
  rw [mapPages_eq (by decide) hlt, hpage, hone]
  refine (wp_mapLoop (N := onWay va) hperm 1 va pa s own fl hh hT ?_ ?_ ?_).mono
    fun r s' hres => ?_
  · omega
  · intro k hk p hp
    obtain rfl : k = 0 := by omega
    rwa [hbase] at hp
  · refine hok.imp (fun h k hk => ?_) And.right
    obtain rfl : k = 0 := by omega
    rw [hbase]
    exact h
  · obtain ⟨own', fl', k, hg, hm, hmax, hcase⟩ := hres
    have hcount := hg.length_le hh [[px 2 va], vpath va] (by
      intro p hp _
      rcases hp with rfl | rfl
      · exact List.mem_cons_self ..
      · exact List.mem_cons_of_mem _ (List.mem_singleton_self _))
    rcases hcase with ⟨rfl, rfl⟩ | ⟨rfl, _, rfl, hb, _⟩
    · refine ⟨rfl, own', fl', hg, hm, ?_, hcount⟩
      have h0 := hmax 0 (by decide)
      rwa [hbase] at h0
    · -- the list held three pages
      have h3 := hlen.resolve_right hb
      simp only [List.length_cons, List.length_nil] at hcount
      omega

/-- Mapping one page for a user application. -/
theorem wp_userVmMap {pa perm : Nat} (hal : va % pgSize = 0)
    (hperm : perm < 1024) (hpa : pa + pgSize ≤ 2 ^ 64)
    (hh : Heap s own fl) (hT : Tables s.mem own i root)
    (hlen : 3 ≤ fl.length ∨ bad (.alloc 0))
    (hok : (va < maxVa ∧ leaf s.mem root va = none)
      ∨ (va + pgSize ≤ 2 ^ 64 ∧ ∀ e s', E e s')) :
    Wp bad E (userVmMap root va pgSize pa perm) (fun _ s' => ∃ own' fl',
      Grown i root (onWay va) s own fl s' own' fl' ∧
      Mapped va pa perm 1 root s.mem s'.mem ∧ va < maxVa ∧
      fl.length ≤ fl'.length + 2) s := by
  unfold userVmMap
  rw [wp_bind]
  apply (wp_mapPage hal hperm hpa hh hT hlen hok).mono
  intro r s' hres
  rw [if_neg (not_not.mpr hres.1), wp_pure]
  exact hres.2

-- ==== unmapping

/-- The frame mapped at `va`. -/
def frameAt (m : Mem) (root va : Nat) : Nat := pte2pa ((leaf m root va).getD 0)

/-- The `n` pages from `a` on were mapped and are not any more; the
frames in `freed` went to the free list, first one deepest. -/
structure Unmapped (i root a n : Nat) (freed : List Nat)
    (s : Kernel) (own : Nat → Owner) (fl : List Nat)
    (s' : Kernel) (own' : Nat → Owner) (fl' : List Nat) : Prop where
  rest : s'.rest = s.rest
  heap : Heap s' own' fl'
  tables : Tables s'.mem own' i root
  nodes : ∀ path, path.length < 3 →
    tableAt s'.mem root path = tableAt s.mem root path
  mapped : ∀ k < n, a + k * pgSize < maxVa ∧
    leaf s.mem root (a + k * pgSize) ≠ none
  leaves : ∀ va, va < 2 ^ 39 → leaf s'.mem root va =
    if inPages a n va then none else leaf s.mem root va
  list : fl' = freed.reverse ++ fl
  owner : ∀ p, own' p = if p ∈ freed then .free else own p
  agree : ∀ p, p % pgSize = 0 → p ∉ freed → (∀ path, own p ≠ .table i path) →
    Agree s.mem s'.mem p (p + 4096)

/-- A frame that can be given back: in use, no table of the tree, and a
page the allocator accepts (or its panic is tolerated). -/
structure Freeable (E : Halt → Kernel → Prop) (i : Nat) (s : Kernel)
    (own : Nat → Owner) (f : Nat) : Prop where
  used : own f ≠ .free
  no_table : ∀ path, own f ≠ .table i path
  page : PageIn s f ∨ ∀ e s', E e s'

/-- Clearing the entry of a mapped page. -/
theorem unmapped_store (hh : Heap s own fl) (hT : Tables s.mem own i root)
    (ht : tableAt s.mem root (vpath va) = some t) (hva : va < maxVa)
    (hv : row s.mem t (px 0 va) &&& pteV ≠ 0) :
    Unmapped i root va 1 [] s own fl
      { s with mem := ByteMem.store s.mem 8 (t + 8 * px 0 va) 0 } own fl := by
  have h39 : va < 2 ^ 39 := Nat.lt_trans hva (by decide)
  have hg := grown_store (N := fun _ => True) hh hT ht 0
  refine ⟨rfl, hg.heap, hg.tables, fun path hlen => ?_, fun k hk => ?_,
    fun a ha => ?_, rfl, fun p => ?_, fun p hal hp htab => ?_⟩
  · exact tableAt_store hT hh.table_aligned ht 0 path hlen
  · obtain rfl : k = 0 := by omega
    rw [Nat.zero_mul, Nat.add_zero, leaf_eq ht]
    unfold validEntry
    rw [if_pos hv]
    exact ⟨hva, Option.some_ne_none _⟩
  · have hone : inPages va 1 a ↔ a / 4096 = va / 4096 := by
      unfold inPages
      omega
    rw [leaf_store hT hh.table_aligned ht 0 h39 ha]
    simp only [hone]
    rfl
  · rw [if_neg List.not_mem_nil]
  · have htab' := hT _ t (vpath_lt va) ht
    have hj := (px 0 va).isLt
    refine Within.agree (q := t) ?_ hal (hh.table_aligned _ t htab')
      fun hpt => htab _ (hpt ▸ htab')
    exact within_store (by omega) (by omega)

/-- Freeing the frame of a mapped page, then clearing its entry. -/
theorem unmapped_free {f : Nat} (hh : Heap s own fl)
    (hT : Tables s.mem own i root)
    (ht : tableAt s.mem root (vpath va) = some t) (hva : va < maxVa)
    (hv : row s.mem t (px 0 va) &&& pteV ≠ 0)
    (hf : ∀ path, own f ≠ .table i path) (hfal : f % pgSize = 0)
    (hr : s₁.rest = s.rest) (hw : Within s.mem s₁.mem f)
    (hh₁ : Heap s₁ (Function.update own f .free) (f :: fl)) :
    Unmapped i root va 1 [f] s own fl
      { s₁ with mem := ByteMem.store s₁.mem 8 (t + 8 * px 0 va) 0 }
      (Function.update own f .free) (f :: fl) := by
  have hne : ∀ path t', own t' = .table i path → t' ≠ f :=
    fun path t' h htf => hf path (htf ▸ h)
  have hag : ∀ path t', own t' = .table i path →
      Agree s.mem s₁.mem t' (t' + 4096) :=
    fun path t' h => hw.agree (hh.table_aligned path t' h) hfal (hne path t' h)
  have hT₁ : Tables s₁.mem (Function.update own f .free) i root :=
    hT.congr hag fun path t' h => by
      rw [Function.update_of_ne (hne path t' h), h]
  have ht₁ : tableAt s₁.mem root (vpath va) = some t := by
    rw [tableAt_congr hT hag _ (Nat.le_of_lt (vpath_lt va))]
    exact ht
  have hleaf : ∀ a, leaf s₁.mem root a = leaf s.mem root a :=
    fun a => leaf_congr hT hag
  have hrow : row s₁.mem t (px 0 va) = row s.mem t (px 0 va) := by
    have hj := (px 0 va).isLt
    refine load_agree ((hag _ t (hT _ t (vpath_lt va) ht)).mono ?_ ?_)
    · omega
    · omega
  have hu := unmapped_store hh₁ hT₁ ht₁ hva (hrow ▸ hv)
  refine ⟨hr, hu.heap, hu.tables, fun path hlen => ?_, fun k hk => ?_,
    fun a ha => ?_, rfl, fun p => ?_, fun p hal hp htab => ?_⟩
  · rw [hu.nodes path hlen, tableAt_congr hT hag path (Nat.le_of_lt hlen)]
  · rw [← hleaf]
    exact hu.mapped k hk
  · rw [← hleaf]
    exact hu.leaves a ha
  · by_cases hpf : p = f
    · rw [hpf, Function.update_self, if_pos (List.mem_singleton_self f)]
    · rw [Function.update_of_ne hpf, if_neg fun h => hpf (List.mem_singleton.mp h)]
  · have hpf : p ≠ f := fun h => hp (h ▸ List.mem_singleton_self f)
    refine (hw.agree hal hfal hpf).trans (hu.agree p hal List.not_mem_nil ?_)
    intro path
    rw [Function.update_of_ne hpf]
    exact htab path

/-- One page, then the pages behind it. -/
theorem Unmapped.cons {a n : Nat} {f₁ f₂ : List Nat}
    (h₁ : Unmapped i root a 1 f₁ s₁ own₁ fl₁ s₂ own₂ fl₂)
    (h₂ : Unmapped i root (a + pgSize) n f₂ s₂ own₂ fl₂ s₃ own₃ fl₃) :
    Unmapped i root a (n + 1) (f₁ ++ f₂) s₁ own₁ fl₁ s₃ own₃ fl₃ := by
  have hnext : (a + pgSize) / 4096 = a / 4096 + 1 := by
    simp only [pgSize]
    omega
  refine ⟨h₂.rest.trans h₁.rest, h₂.heap, h₂.tables, fun path hlen => ?_,
    fun k hk => ?_, fun va hva => ?_, ?_, fun p => ?_, fun p hal hp htab => ?_⟩
  · rw [h₂.nodes path hlen, h₁.nodes path hlen]
  · cases k with
    | zero => exact h₁.mapped 0 (by decide)
    | succ k =>
        have hk' : a + pgSize + k * pgSize = a + (k + 1) * pgSize := by
          simp only [pgSize]
          omega
        obtain ⟨hmax, hleaf⟩ := h₂.mapped k (by omega)
        rw [hk'] at hmax hleaf
        refine ⟨hmax, ?_⟩
        have hnot : ¬ inPages a 1 (a + (k + 1) * pgSize) := by
          unfold inPages
          simp only [pgSize]
          omega
        rwa [h₁.leaves _ (Nat.lt_trans hmax (by decide)), if_neg hnot] at hleaf
  · rw [h₂.leaves va hva, h₁.leaves va hva]
    have hsplit : inPages a (n + 1) va ↔
        inPages (a + pgSize) n va ∨ inPages a 1 va := by
      unfold inPages
      omega
    by_cases hin : inPages (a + pgSize) n va
    · rw [if_pos hin, if_pos (hsplit.mpr (Or.inl hin))]
    · by_cases hin' : inPages a 1 va
      · rw [if_neg hin, if_pos hin', if_pos (hsplit.mpr (Or.inr hin'))]
      · rw [if_neg hin, if_neg hin', if_neg fun h => (hsplit.mp h).elim hin hin']
  · rw [h₂.list, h₁.list, List.reverse_append, List.append_assoc]
  · rw [h₂.owner, h₁.owner]
    by_cases hp₂ : p ∈ f₂
    · rw [if_pos hp₂, if_pos (List.mem_append_right _ hp₂)]
    · by_cases hp₁ : p ∈ f₁
      · rw [if_neg hp₂, if_pos hp₁, if_pos (List.mem_append_left _ hp₁)]
      · rw [if_neg hp₂, if_neg hp₁, if_neg fun h =>
          (List.mem_append.mp h).elim hp₁ hp₂]
  · have hp₁ : p ∉ f₁ := fun h => hp (List.mem_append_left _ h)
    have hp₂ : p ∉ f₂ := fun h => hp (List.mem_append_right _ h)
    refine (h₁.agree p hal hp₁ htab).trans (h₂.agree p hal hp₂ fun path => ?_)
    rw [h₁.owner, if_neg hp₁]
    exact htab path

theorem pte2pa_aligned (w : Nat) : pte2pa w % pgSize = 0 := by
  unfold pte2pa u64
  rw [Nat.shiftLeft_eq]
  simp only [pgSize]
  omega

/-- The frames an unmapping of `n` pages gives back. -/
def freedFrames (free : Bool) (m : Mem) (root a n : Nat) : List Nat :=
  if free then (List.range n).map fun k => frameAt m root (a + k * pgSize)
  else []

theorem freedFrames_succ (free : Bool) {m m' : Mem} {a n w : Nat}
    (hw : leaf m root a = some w)
    (hsame : ∀ k < n, leaf m' root (a + pgSize + k * pgSize)
      = leaf m root (a + (k + 1) * pgSize)) :
    freedFrames free m root a (n + 1)
      = (if free then [pte2pa w] else [])
        ++ freedFrames free m' root (a + pgSize) n := by
  unfold freedFrames
  cases free with
  | false => rfl
  | true =>
      simp only [if_true, List.range_succ_eq_map, List.map_cons, List.map_map,
        List.singleton_append, Nat.zero_mul, Nat.add_zero]
      refine List.cons_eq_cons.mpr ⟨?_, List.map_congr_left fun k hk => ?_⟩
      · unfold frameAt
        rw [hw]
        rfl
      · unfold frameAt
        rw [hsame k (List.mem_range.mp hk)]
        rfl

/-- Of pages that are no tables of tree `i`, link words were written at
most. -/
def Tails (i : Nat) (own : Nat → Owner) (m m' : Mem) : Prop :=
  ∀ p, p % pgSize = 0 → (∀ path, own p ≠ .table i path) →
    Agree m m' (p + 8) (p + 4096)

theorem Tails.refl (i : Nat) (own : Nat → Owner) (m : Mem) : Tails i own m m :=
  fun _ _ _ => Agree.refl m _ _

theorem Tails.trans {m₁ m₂ m₃ : Mem} (h₁ : Tails i own m₁ m₂)
    (h₂ : Tails i own' m₂ m₃)
    (htab : ∀ p path, own' p = .table i path → own p = .table i path) :
    Tails i own m₁ m₃ :=
  fun p hal hp => (h₁ p hal hp).trans
    (h₂ p hal fun path h => hp path (htab p path h))

/-- A write to a table. -/
theorem tails_within {m m' : Mem} {path : List (Fin 512)} (hw : Within m m' t)
    (htal : t % pgSize = 0) (ht : own t = .table i path) : Tails i own m m' := by
  intro p hal hp
  have hne : p ≠ t := by
    rintro rfl
    exact hp path ht
  exact (hw.agree hal htal hne).mono (Nat.le_add_right p 8) (Nat.le_refl _)

/-- A link word. -/
theorem tails_link {m : Mem} {f v : Nat} (hfal : f % pgSize = 0) :
    Tails i own m (store m 8 f v) := by
  intro p hal _
  apply store_agree
  by_cases hpf : p = f
  · omega
  · have hdis := page_disjoint hal hfal hpf
    omega

/-- Unmapping makes no tables. -/
theorem Unmapped.table {a n : Nat} {freed : List Nat} {path : List (Fin 512)}
    (h : Unmapped i root a n freed s own fl s' own' fl') {p : Nat}
    (hp : own' p = .table i path) : own p = .table i path := by
  rw [h.owner p] at hp
  split at hp
  · cases hp
  · exact hp

/-- One round of the loop of `user_vm_unmap`, before whatever follows
it. -/
theorem wp_unmapRound {free : Bool} {a : Nat} {next : K Unit}
    {Q : Unit → Kernel → Prop} (hh : Heap s own fl)
    (hT : Tables s.mem own i root)
    (hframe : free = true → a < maxVa → ∀ w, leaf s.mem root a = some w →
      Freeable E i s own (pte2pa w))
    (hok : (a < maxVa ∧ ∃ w, leaf s.mem root a = some w ∧ pteFlags w ≠ pteV)
      ∨ ∀ e s', E e s')
    (hnext : ∀ s' own' fl' w, leaf s.mem root a = some w →
      Unmapped i root a 1 (if free then [pte2pa w] else []) s own fl
        s' own' fl' → Tails i own s.mem s'.mem → Wp bad E next Q s') :
    Wp bad E (do
      let pte ← pageWalk root a false
      if pte = 0 then
        panic "uvmunmap: walk"
      else
        let e ← ld pte
        if e &&& pteV = 0 then
          panic "uvmunmap: not mapped"
        else if pteFlags e = pteV then
          panic "uvmunmap: not a leaf"
        else
          if free then
            freePage (pte2pa e)
          sd pte 0
          next) Q s := by
  have hpanic : ∀ msg : String, (∀ e s', E e s') →
      Wp bad E (panic msg : K Unit) Q s := by
    intro msg hE
    simp only [panic, wp_halt]
    exact hE _ _
  rw [wp_bind]
  by_cases hlt : a < maxVa
  · rw [wp_pageWalk_false hlt]
    unfold walkAddr
    cases ht : tableAt s.mem root (vpath a) with
    | none =>
        rw [if_pos rfl]
        refine hpanic _ (hok.resolve_left ?_)
        rw [leaf_none ht]
        rintro ⟨_, w, hw, _⟩
        cases hw
    | some t =>
        have htab := hT _ t (vpath_lt a) ht
        have hpos := (hh.table_page htab).pos hh
        have hne : t + 8 * (px 0 a : Nat) ≠ 0 := by omega
        have hleaf := leaf_eq ht
        have hpx := (px 0 a).isLt
        have hentry : ∀ m, Tails i own m (store m 8 (t + 8 * px 0 a) 0) := fun m =>
          tails_within (within_store (by omega) (by omega))
            (hh.table_page htab).aligned htab
        simp only [if_neg hne, wp_bind, ld, wp_get, wp_pure]
        show Wp bad E (if row s.mem t (px 0 a) &&& pteV = 0 then _ else _) Q s
        by_cases hv : row s.mem t (px 0 a) &&& pteV = 0
        · rw [if_pos hv]
          refine hpanic _ (hok.resolve_left ?_)
          unfold validEntry at hleaf
          rw [hleaf, if_neg (not_not.mpr hv)]
          rintro ⟨_, w, hw, _⟩
          cases hw
        · unfold validEntry at hleaf
          rw [if_pos hv] at hleaf
          rw [if_neg hv]
          show Wp bad E (if pteFlags (row s.mem t (px 0 a)) = pteV then _ else _)
            Q s
          by_cases hflag : pteFlags (row s.mem t (px 0 a)) = pteV
          · rw [if_pos hflag]
            refine hpanic _ (hok.resolve_left ?_)
            rw [hleaf]
            rintro ⟨_, w, hw, hwf⟩
            rw [← Option.some.inj hw] at hwf
            exact hwf hflag
          · rw [if_neg hflag]
            cases free with
            | false =>
                simp only [Bool.false_eq_true, if_false, wp_bind, sd, onMem,
                  wp_modify]
                exact hnext _ own fl _ hleaf (unmapped_store hh hT ht hlt hv)
                  (hentry s.mem)
            | true =>
                have hf := hframe rfl hlt _ hleaf
                simp only [if_true, wp_bind]
                refine wp_freeLink hh hf.used hf.page fun s₁ hin hr hm hh₁ => ?_
                have hw : Within s.mem s₁.mem (pte2pa (row s.mem t (px 0 a))) := by
                  rw [hm]
                  exact within_store (Nat.le_refl _) (by omega)
                have htails : Tails i own s.mem s₁.mem := by
                  rw [hm]
                  exact tails_link (pte2pa_aligned _)
                simp only [sd, onMem, wp_modify]
                exact hnext _ _ _ _ hleaf (unmapped_free hh hT ht hlt hv
                  hf.no_table (pte2pa_aligned _) hr hw hh₁)
                  (htails.trans (hentry s₁.mem) fun _ _ h => h)
  · have hE := hok.resolve_left fun h => hlt h.1
    unfold pageWalk
    rw [if_pos (Nat.not_lt.mp hlt)]
    simp only [panic, wp_halt]
    exact hE _ _

/-- The loop of `user_vm_unmap`. -/
theorem wp_unmapLoop {free : Bool} :
    ∀ n a s own fl, Heap s own fl → Tables s.mem own i root →
      (free = true → ∀ k < n, a + k * pgSize < maxVa → ∀ w,
        leaf s.mem root (a + k * pgSize) = some w →
        Freeable E i s own (pte2pa w)) →
      (free = true → ∀ j k, j < k → k < n → a + k * pgSize < maxVa → ∀ w w',
        leaf s.mem root (a + j * pgSize) = some w →
        leaf s.mem root (a + k * pgSize) = some w' → pte2pa w ≠ pte2pa w') →
      ((∀ k < n, a + k * pgSize < maxVa ∧ ∃ w,
          leaf s.mem root (a + k * pgSize) = some w ∧ pteFlags w ≠ pteV)
        ∨ ∀ e s', E e s') →
      Wp bad E (unmapLoop root free n a) (fun _ s' => ∃ own' fl',
        Unmapped i root a n (freedFrames free s.mem root a n) s own fl
          s' own' fl' ∧ Tails i own s.mem s'.mem) s := by
  intro n
  induction n with
  | zero =>
      intro a s own fl hh hT _ _ _
      unfold unmapLoop
      rw [wp_pure]
      have hnil : freedFrames free s.mem root a 0 = [] := by
        unfold freedFrames
        split <;> rfl
      refine ⟨own, fl, ⟨rfl, hh, hT, fun _ _ => rfl,
        fun k hk => absurd hk (Nat.not_lt_zero k), fun va _ => ?_, ?_,
        fun p => ?_, fun p _ _ _ => Agree.refl s.mem p _⟩, Tails.refl i own s.mem⟩
      · rw [if_neg (not_inPages_zero a va)]
      · rw [hnil]; rfl
      · rw [hnil, if_neg List.not_mem_nil]
  | succ n ih =>
      intro a s own fl hh hT hframe hinj hok
      have hbase : a + 0 * pgSize = a := by omega
      have hshift : ∀ k, a + pgSize + k * pgSize = a + (k + 1) * pgSize := by
        intro k
        simp only [pgSize]
        omega
      unfold unmapLoop
      refine wp_unmapRound hh hT (fun hf => ?_) (hok.imp_left fun h => ?_) ?_
      · exact hbase ▸ hframe hf 0 (Nat.succ_pos n)
      · exact hbase ▸ h 0 (Nat.succ_pos n)
      · intro s₁ own₁ fl₁ w hw hu htails
        -- the leaves behind the first page are as they were
        have hsame : ∀ k, a + (k + 1) * pgSize < maxVa →
            leaf s₁.mem root (a + (k + 1) * pgSize)
              = leaf s.mem root (a + (k + 1) * pgSize) := by
          intro k hmax
          rw [hu.leaves _ (Nat.lt_trans hmax (by decide)), if_neg]
          unfold inPages
          simp only [pgSize]
          omega
        refine (ih (a + pgSize) s₁ own₁ fl₁ hu.heap hu.tables ?_ ?_ ?_).mono
          fun _ s₂ hres => ?_
        · intro hf k hk hmax w' hw'
          rw [hshift] at hmax hw'
          rw [hsame k hmax] at hw'
          have hold := hframe hf (k + 1) (by omega) hmax w' hw'
          have hne : pte2pa w' ∉ (if free then [pte2pa w] else []) := by
            rw [if_pos hf, List.mem_singleton]
            intro heq
            exact hinj hf 0 (k + 1) (by omega) (by omega) hmax w w' (hbase ▸ hw)
              hw' heq.symm
          refine ⟨?_, fun path => ?_, hold.page.imp_left fun h => h.congr hu.rest⟩
          · rw [hu.owner, if_neg hne]
            exact hold.used
          · rw [hu.owner, if_neg hne]
            exact hold.no_table path
        · intro hf j k hjk hk hmax w₁ w₂ hw₁ hw₂
          have hmaxj : a + (j + 1) * pgSize < maxVa := by
            rw [hshift] at hmax
            refine Nat.lt_of_le_of_lt ?_ hmax
            simp only [pgSize]
            omega
          rw [hshift] at hmax hw₁ hw₂
          rw [hsame _ hmaxj] at hw₁
          rw [hsame _ hmax] at hw₂
          exact hinj hf (j + 1) (k + 1) (by omega) (by omega) hmax w₁ w₂ hw₁ hw₂
        · refine hok.imp_left fun h k hk => ?_
          have hk' := h (k + 1) (by omega)
          rw [hshift, hsame k hk'.1]
          exact hk'
        · obtain ⟨own₂, fl₂, hu₂, htails₂⟩ := hres
          have hlist : freedFrames free s.mem root a (n + 1)
              = (if free then [pte2pa w] else [])
                ++ freedFrames free s₁.mem root (a + pgSize) n := by
            refine freedFrames_succ free hw fun k hk => ?_
            have hmax := (hu₂.mapped k hk).1
            rw [hshift] at hmax ⊢
            exact hsame k hmax
          rw [hlist]
          exact ⟨own₂, fl₂, hu.cons hu₂,
            htails.trans htails₂ fun _ _ h => hu.table h⟩

end Pke
