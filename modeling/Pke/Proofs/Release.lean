/-
Taking an address space apart: the loop over the recorded regions that
`do_wait` and `realloc_process` share, and what each of them frees
besides.

The loop never panics: every page of a recorded region is mapped, and
the frames it frees are the process's own, a different one at every
page. `Released` is its invariant: the regions done are unmapped, those
to come are as they were, and a page that changed owner was the frame of
a region done. What the kernel does not give back (intermediate tables,
private code frames, unrecorded pages) is still owned by the slot
afterwards; `disown` puts it out of sight.
-/
import Pke.Proofs.Build

namespace Pke

open ByteMem Traced

variable {bad : Event → Prop} {E : Halt → Kernel → Prop}
variable {cfg : Config} {P P' : MappedRegion → Prop} {s s' s₀ : Kernel}
variable {own own' own₀ : Nat → Owner}
variable {fl fl' fl₀ : List Nat} {i : Slot} {root info n a d : Nat}
variable {extra : Nat → Nat → Prop}

-- ==== unmapping

/-- A readable leaf is not taken for a pointer to a table. -/
theorem flags_of_readable {w : Nat} (hr : Readable w) :
    pteFlags w ≠ pteV := by
  intro hflags
  have hbit : ∀ k, 0x3FF &&& k = k → pteV &&& k = 0 → w &&& k = 0 := by
    intro k hmask hzero
    unfold pteFlags at hflags
    rw [← hmask, ← Nat.and_assoc, hflags]
    exact hzero
  rcases hr with h | h
  · exact h (hbit pteR (by decide) (by decide))
  · exact h (hbit pteW (by decide) (by decide))

/-- The `n` pages from `a` on were unmapped; the pages that changed
owner were frames of the process there, and are free now. -/
structure Dropped (i : Slot) (root a n : Nat)
    (s : Kernel) (own : Nat → Owner) (fl : List Nat)
    (s' : Kernel) (own' : Nat → Owner) (fl' : List Nat) : Prop where
  rest : s'.rest = s.rest
  pages : Heap s' own' fl'
  tables : Tables s'.mem own' i root
  leaves : ∀ va, va < 2 ^ 39 → leaf s'.mem root va =
    if inPages a n va then none else leaf s.mem root va
  owner : ∀ p, own' p = own p ∨
    (own' p = .free ∧ ∃ va, inPages a n va ∧ own p = .frame i (va / pgSize))
  agree : ∀ p, p % pgSize = 0 → (∀ v, own p ≠ .frame i v) →
    (∀ path, own p ≠ .table i path) → Agree s.mem s'.mem p (p + 4096)
  grew : fl.length ≤ fl'.length

theorem userVmUnmap_eq {free : Bool} (hal : a % pgSize = 0)
    (hb : a + n * pgSize ≤ maxVa) :
    userVmUnmap root a (n * pgSize) free = unmapLoop root free n a := by
  have hstop : u64 (a + n * pgSize) = a + n * pgSize := by
    unfold u64
    simp only [maxVa] at hb
    omega
  have hcount : (a + n * pgSize - a + (pgSize - 1)) / pgSize = n := by
    simp only [pgSize]
    omega
  unfold userVmUnmap
  rw [if_neg (not_not.mpr hal)]
  simp only [hstop, hcount]

/-- The pages `freed` went back, in that order. Besides tables of the tree
only their link words were written. -/
structure Recalled (i : Nat) (freed : List Nat) (s : Kernel) (own : Nat → Owner)
    (fl : List Nat) (s' : Kernel) (fl' : List Nat) : Prop where
  list : fl' = freed.reverse ++ fl
  others : ∀ p, p % pgSize = 0 → p ∉ freed → (∀ path, own p ≠ .table i path) →
    Agree s.mem s'.mem p (p + 4096)
  tails : Tails i own s.mem s'.mem

theorem Recalled.refl (i : Nat) (s : Kernel) (own : Nat → Owner)
    (fl : List Nat) : Recalled i [] s own fl s fl :=
  ⟨rfl, fun _ _ _ _ => Agree.refl s.mem _ _, Tails.refl i own s.mem⟩

theorem Recalled.trans {s₁ s₂ : Kernel} {own₁ : Nat → Owner}
    {fl₁ fl₂ freed freed' : List Nat} (h : Recalled i freed s own fl s₁ fl₁)
    (h' : Recalled i freed' s₁ own₁ fl₁ s₂ fl₂)
    (htab : ∀ p path, own₁ p = .table i path → own p = .table i path) :
    Recalled i (freed ++ freed') s own fl s₂ fl₂ where
  list := by rw [h'.list, h.list, List.reverse_append, List.append_assoc]
  others p hal hp ht := by
    rw [List.mem_append, not_or] at hp
    exact (h.others p hal hp.1 ht).trans
      (h'.others p hal hp.2 fun path hpath => ht path (htab p path hpath))
  tails := h.tails.trans h'.tails htab

/-- `user_vm_unmap` of pages that are all mapped; if the frames go back,
each is the process's own frame for its page. -/
theorem wp_dropPages {free : Bool} (hh : Heap s own fl)
    (hT : Tables s.mem own i root) (hal : a % pgSize = 0)
    (hb : a + n * pgSize ≤ maxVa)
    (hmap : ∀ va, inPages a n va → ∃ w, leaf s.mem root va = some w ∧
      Readable w ∧ (free = true → own (pte2pa w) = .frame i (va / pgSize))) :
    Wp bad E (userVmUnmap root a (n * pgSize) free) (fun _ s' => ∃ own' fl',
      Dropped i root a n s own fl s' own' fl' ∧
      Recalled i (freedFrames free s.mem root a n) s own fl s' fl') s := by
  have hmax : ∀ k < n, a + k * pgSize < maxVa := by
    intro k hk
    simp only [pgSize, maxVa] at hb ⊢
    omega
  have hown : free = true → ∀ k < n, ∀ w,
      leaf s.mem root (a + k * pgSize) = some w →
      own (pte2pa w) = .frame i (a / pgSize + k) := by
    intro hf k hk w hw
    obtain ⟨w', hw', _, hown⟩ := hmap _ (inPages_add hal hk)
    rw [hw'] at hw
    rw [← Option.some.inj hw, ← page_add hal]
    exact hown hf
  rw [userVmUnmap_eq hal hb]
  apply (wp_unmapLoop n a s own fl hh hT ?_ ?_ ?_).mono
  · intro _ s' hres
    obtain ⟨own', fl', hu, htails⟩ := hres
    -- a frame that went back was the frame of one of the pages
    have hfreed : ∀ p ∈ freedFrames free s.mem root a n,
        ∃ k < n, own p = .frame i (a / pgSize + k) := by
      intro p hp
      unfold freedFrames at hp
      cases free with
      | false =>
          rw [if_neg Bool.false_ne_true] at hp
          exact absurd hp List.not_mem_nil
      | true =>
          rw [if_pos rfl] at hp
          obtain ⟨k, hk, rfl⟩ := List.mem_map.mp hp
          have hk' := List.mem_range.mp hk
          obtain ⟨w, hw, _, _⟩ := hmap _ (inPages_add hal hk')
          refine ⟨k, hk', ?_⟩
          unfold frameAt
          rw [hw, Option.getD_some]
          exact hown rfl k hk' w hw
    refine ⟨own', fl', ⟨hu.rest, hu.heap, hu.tables, hu.leaves, ?_, ?_, ?_⟩,
      hu.list, hu.agree, htails⟩
    · intro p
      rw [hu.owner p]
      by_cases hp : p ∈ freedFrames free s.mem root a n
      · rw [if_pos hp]
        obtain ⟨k, hk, hpo⟩ := hfreed p hp
        refine Or.inr ⟨rfl, a + k * pgSize, inPages_add hal hk, ?_⟩
        rw [page_add hal]
        exact hpo
      · rw [if_neg hp]
        exact Or.inl rfl
    · intro p hpal hframe htable
      apply hu.agree p hpal _ htable
      intro hp
      obtain ⟨k, _, hpo⟩ := hfreed p hp
      exact hframe _ hpo
    · rw [hu.list, List.length_append]
      omega
  · intro hf k hk _ w hw
    have ho := hown hf k hk w hw
    refine ⟨?_, ?_, Or.inl (hh.page _ ?_)⟩
    · rw [ho]; exact Owner.noConfusion
    · intro path
      rw [ho]
      exact Owner.noConfusion
    · rw [ho]; exact Owner.noConfusion
  · intro hf j k hjk hk _ w w' hw hw' heq
    have hj := hown hf j (Nat.lt_trans hjk hk) w hw
    rw [heq, hown hf k hk w' hw'] at hj
    injection hj with _ hv
    omega
  · apply Or.inl
    intro k hk
    obtain ⟨w, hw, hread, _⟩ := hmap _ (inPages_add hal hk)
    exact ⟨hmax k hk, w, hw, flags_of_readable hread⟩

theorem Dropped.touches (h : Dropped i root a n s own fl s' own' fl') :
    Touches i s own s' own' where
  apart := apart_of_rest h.rest
  keep p _ ht := by
    rcases h.owner p with ho | ⟨_, va, _, ho⟩
    · exact ho
    · rw [ho] at ht
      exact absurd rfl ht
  agree p hal _ ht := by
    apply h.agree p hal
    · intro v hv
      rw [hv] at ht
      exact ht rfl
    · intro path hpath
      rw [hpath] at ht
      exact ht rfl
  yield p hp := by
    rcases h.owner p with ho | ⟨ho, _⟩
    · rw [ho]
      exact hp.imp id Or.inr
    · exact Or.inl ho

-- ==== the loop

/-- The first `d` regions of the table are unmapped. -/
structure Released (i : Slot) (root info d : Nat)
    (s₀ : Kernel) (own₀ : Nat → Owner) (fl₀ : List Nat)
    (s : Kernel) (own : Nat → Owner) (fl : List Nat) : Prop where
  rest : s.rest = s₀.rest
  pages : Heap s own fl
  tables : Tables s.mem own i root
  leaves : ∀ va, va < 2 ^ 39 →
    (∀ k < d, ¬ (regionAt s₀.mem info k).Covers va) →
    leaf s.mem root va = leaf s₀.mem root va
  owner : ∀ p, own p = own₀ p ∨ (own p = .free ∧ ∃ k < d, ∃ va,
    (regionAt s₀.mem info k).Covers va ∧ own₀ p = .frame i (va / pgSize))
  agree : Agree s₀.mem s.mem info (info + 4096)
  touches : Touches i s₀ own₀ s own
  grew : fl₀.length ≤ fl.length

theorem Released.start (hh : Heap s own fl)
    (hT : Tables s.mem own i root) :
    Released i root info 0 s own fl s own fl where
  rest := rfl
  pages := hh
  tables := hT
  leaves _ _ _ := rfl
  owner _ := Or.inl rfl
  agree := Agree.refl s.mem info (info + 4096)
  touches := Touches.refl i s own
  grew := Nat.le_refl _

/-- A frame of a page no region done covers is still in place. -/
theorem Released.frame (h : Released i root info d s₀ own₀ fl₀ s own fl)
    {p va : Nat} (hp : own₀ p = .frame i (va / pgSize))
    (hva : ∀ k < d, ¬ (regionAt s₀.mem info k).Covers va) :
    own p = .frame i (va / pgSize) := by
  rcases h.owner p with ho | ⟨_, k, hk, va', hc, ho⟩
  · exact ho.trans hp
  · rw [hp] at ho
    injection ho with _ hpage
    refine absurd ?_ (hva k hk)
    unfold MappedRegion.Covers inPages at hc ⊢
    simp only [pgSize] at hpage
    rw [hpage]
    exact hc

theorem Released.next {r : MappedRegion}
    (h : Released i root info d s₀ own₀ fl₀ s own fl)
    (hr : regionAt s₀.mem info d = r) (hinfo : own₀ info = .regions i)
    (hd : Dropped i root r.va r.npages s own fl s' own' fl') :
    Released i root info (d + 1) s₀ own₀ fl₀ s' own' fl' := by
  have hinfo' : own info = .regions i := by
    rcases h.owner info with ho | ⟨_, k, _, va, _, ho⟩
    · exact ho.trans hinfo
    · rw [hinfo] at ho
      cases ho
  refine ⟨hd.rest.trans h.rest, hd.pages, hd.tables, ?_, ?_, ?_,
    h.touches.trans hd.touches, Nat.le_trans h.grew hd.grew⟩
  · intro va hva hno
    have hnot : ¬ inPages r.va r.npages va := by
      rw [← hr]
      exact hno d (Nat.lt_succ_self d)
    rw [hd.leaves va hva, if_neg hnot]
    exact h.leaves va hva fun k hk => hno k (Nat.lt_succ_of_lt hk)
  · intro p
    have hweak : own p = .free ∧ (∃ k < d, ∃ va,
        (regionAt s₀.mem info k).Covers va ∧ own₀ p = .frame i (va / pgSize)) →
        ∃ k < d + 1, ∃ va, (regionAt s₀.mem info k).Covers va ∧
          own₀ p = .frame i (va / pgSize) := by
      intro hw
      obtain ⟨_, k, hk, hrest⟩ := hw
      exact ⟨k, Nat.lt_succ_of_lt hk, hrest⟩
    rcases hd.owner p with ho | ⟨hfree, va, hin, ho⟩
    · rw [ho]
      rcases h.owner p with hp | hp
      · exact Or.inl hp
      · exact Or.inr ⟨hp.1, hweak hp⟩
    · refine Or.inr ⟨hfree, ?_⟩
      rcases h.owner p with hp | hp
      · refine ⟨d, Nat.lt_succ_self d, va, ?_, hp.symm.trans ho⟩
        rw [hr]
        exact hin
      · exact hweak hp
  · apply h.agree.trans
    apply hd.agree info
    · exact (tag_page (n := i) h.pages (by rw [hinfo']; rfl)).aligned
    · intro v
      rw [hinfo']
      exact Owner.noConfusion
    · intro path
      rw [hinfo']
      exact Owner.noConfusion

/-- The region is skipped: there was nothing to unmap. -/
theorem Released.skip (h : Released i root info d s₀ own₀ fl₀ s own fl) :
    Released i root info (d + 1) s₀ own₀ fl₀ s own fl where
  rest := h.rest
  pages := h.pages
  tables := h.tables
  leaves va hva hno := h.leaves va hva fun k hk => hno k (Nat.lt_succ_of_lt hk)
  owner p := by
    rcases h.owner p with hp | ⟨hfree, k, hk, hrest⟩
    · exact Or.inl hp
    · exact Or.inr ⟨hfree, k, Nat.lt_succ_of_lt hk, hrest⟩
  agree := h.agree
  touches := h.touches
  grew := h.grew

theorem freedFrames_congr {free : Bool} {m m' : Mem}
    (h : ∀ k < n, leaf m' root (a + k * pgSize) = leaf m root (a + k * pgSize)) :
    freedFrames free m' root a n = freedFrames free m root a n := by
  have hmap : (List.range n).map (fun k => frameAt m' root (a + k * pgSize))
      = (List.range n).map fun k => frameAt m root (a + k * pgSize) := by
    refine List.map_congr_left fun k hk => ?_
    unfold frameAt
    rw [h k (List.mem_range.mp hk)]
  unfold freedFrames
  rw [hmap]

/-- The frames the loop gives back for a region. -/
def regionFrames (m : Mem) (root : Nat) (r : MappedRegion) : List Nat :=
  match SegType.ofWord r.segType with
  | some .stack | some .context | some .data =>
      freedFrames true m root r.va r.npages
  | _ => []

/-- The frames of the first `d` regions that the loop gives back, in its
order. -/
def recalledFrames (m : Mem) (root info d : Nat) : List Nat :=
  (List.range d).flatMap fun k => regionFrames m root (regionAt m info k)

theorem recalledFrames_succ (m : Mem) (root info d : Nat) :
    recalledFrames m root info (d + 1)
      = recalledFrames m root info d ++ regionFrames m root (regionAt m info d) := by
  unfold recalledFrames
  rw [List.range_succ, List.flatMap_append, List.flatMap_singleton]

theorem length_regionFrames_le (m : Mem) (root : Nat) (r : MappedRegion) :
    (regionFrames m root r).length ≤ r.npages := by
  unfold regionFrames freedFrames
  split <;> simp

/-- A region gives back no more frames than it has pages. -/
theorem length_recalledFrames_le (m : Mem) (root info d : Nat) :
    (recalledFrames m root info d).length ≤ pagesUpTo m info d := by
  induction d with
  | zero => exact Nat.le_refl 0
  | succ d ih =>
      rw [recalledFrames_succ, pagesUpTo_succ, List.length_append]
      exact Nat.add_le_add ih (length_regionFrames_le ..)

/-- One round of the loop. -/
theorem wp_freeRegion
    (hR : Regions s₀.mem own₀ i root info n extra)
    (hsmall : (regionAt s₀.mem info d).npages * pgSize < 2 ^ 32)
    (hdn : d < n) (h : Released i root info d s₀ own₀ fl₀ s own fl) :
    Wp bad E (freeRegion root (regionAt s₀.mem info d)) (fun _ s' =>
      ∃ own' fl', Released i root info (d + 1) s₀ own₀ fl₀ s' own' fl' ∧
        Recalled i (regionFrames s₀.mem root (regionAt s₀.mem info d)) s own fl
          s' fl') s := by
  obtain ⟨seg, hseg⟩ := hR.table.kind d hdn
  have hal := hR.table.aligned d hdn
  have hb := hR.table.bounded d hdn
  have hmod : (regionAt s₀.mem info d).npages * pgSize % 2 ^ 32
      = (regionAt s₀.mem info d).npages * pgSize := Nat.mod_eq_of_lt hsmall
  -- the leaves of the region are still there, with their owners
  have hmap : ∀ va, (regionAt s₀.mem info d).Covers va → ∃ w,
      leaf s.mem root va = some w ∧ Readable w ∧
      (own₀ (pte2pa w) = .frame i (va / pgSize) →
        own (pte2pa w) = .frame i (va / pgSize)) ∧
      RegionLeaf own₀ i seg (va / pgSize) w := by
    intro va hc
    have hno : ∀ k < d, ¬ (regionAt s₀.mem info k).Covers va := by
      intro k hk hck
      have := hR.table.disjoint k (Nat.lt_trans hk hdn) d hdn va hck hc
      omega
    have hva : va < 2 ^ 39 := Nat.lt_trans (hR.table.covers_lt hdn hc) (by decide)
    obtain ⟨w, hw, hl⟩ := hR.mapped d hdn seg hseg va hc
    refine ⟨w, ?_, hl.readable, fun ho => h.frame ho hno, hl⟩
    rw [h.leaves va hva hno]
    exact hw
  have hdrop : ∀ free : Bool, (free = true → ∀ va w,
      RegionLeaf own₀ i seg (va / pgSize) w →
        own₀ (pte2pa w) = .frame i (va / pgSize)) →
      Wp bad E (userVmUnmap root (regionAt s₀.mem info d).va
        ((regionAt s₀.mem info d).npages * pgSize % 2 ^ 32) free) (fun _ s' =>
        ∃ own' fl', Released i root info (d + 1) s₀ own₀ fl₀ s' own' fl' ∧
          Recalled i (freedFrames free s₀.mem root (regionAt s₀.mem info d).va
            (regionAt s₀.mem info d).npages) s own fl s' fl') s := by
    intro free hfree
    rw [hmod]
    apply (wp_dropPages h.pages h.tables hal hb ?_).mono
    · intro _ s' hres
      obtain ⟨own', fl', hd, hrec⟩ := hres
      refine ⟨own', fl', h.next rfl hR.owner hd, ?_⟩
      rwa [freedFrames_congr] at hrec
      intro k hk
      have hc : (regionAt s₀.mem info d).Covers
          ((regionAt s₀.mem info d).va + k * pgSize) := inPages_add hal hk
      apply h.leaves _ (Nat.lt_trans (hR.table.covers_lt hdn hc) (by decide))
      intro j hj hcj
      have := hR.table.disjoint j (Nat.lt_trans hj hdn) d hdn _ hcj hc
      omega
    · intro va hc
      obtain ⟨w, hw, hread, hown, hl⟩ := hmap va hc
      exact ⟨w, hw, hread, fun hf => hown (hfree hf va w hl)⟩
  unfold freeRegion regionFrames
  rw [hseg, SegType.ofWord_word]
  cases seg with
  | code => exact hdrop false (fun hf => absurd hf Bool.false_ne_true)
  | data => exact hdrop true fun _ va w hl => hl.owner
  | stack => exact hdrop true fun _ va w hl => hl.owner
  | context => exact hdrop true fun _ va w hl => hl.owner
  | system =>
      rw [wp_pure]
      exact ⟨own, fl, h.skip, Recalled.refl i s own fl⟩

theorem wp_freeRegions (hh : Heap s own fl)
    (hR : Regions s.mem own i (s.procs i).pagetable (s.procs i).mappedInfo
      (s.procs i).totalMappedRegion extra)
    (hsmall : ∀ k < (s.procs i).totalMappedRegion,
      (regionAt s.mem (s.procs i).mappedInfo k).npages * pgSize < 2 ^ 32) :
    Wp bad E (freeRegions i) (fun _ s' => ∃ own' fl',
      Released i (s.procs i).pagetable (s.procs i).mappedInfo
        (s.procs i).totalMappedRegion s own fl s' own' fl' ∧
      Recalled i (recalledFrames s.mem (s.procs i).pagetable
        (s.procs i).mappedInfo (s.procs i).totalMappedRegion) s own fl s' fl') s := by
  unfold freeRegions
  rw [wp_bind, wp_proc]
  refine wp_forRange (fun d s' => ∃ own' fl', Released i (s.procs i).pagetable
    (s.procs i).mappedInfo d s own fl s' own' fl' ∧
    Recalled i (recalledFrames s.mem (s.procs i).pagetable
      (s.procs i).mappedInfo d) s own fl s' fl')
    ⟨own, fl, Released.start hh hR.tables, Recalled.refl i s own fl⟩ ?_
  intro d hd s₁ hres
  obtain ⟨own₁, fl₁, h, hrec⟩ := hres
  -- the table is not among the pages given back
  have hat : regionAt s₁.mem (s.procs i).mappedInfo d
      = regionAt s.mem (s.procs i).mappedInfo d :=
    regionAt_agree h.agree (Nat.lt_of_lt_of_le hd hR.table.count)
  rw [wp_bind, wp_getRegion, hat]
  refine (wp_freeRegion hR (hsmall d hd) hd h).mono fun _ s₂ hres => ?_
  obtain ⟨own₂, fl₂, h₂, hrec₂⟩ := hres
  refine ⟨own₂, fl₂, h₂, ?_⟩
  rw [recalledFrames_succ]
  exact hrec.trans hrec₂ fun p path hp => by
    rcases h.owner p with ho | ⟨ho, -⟩
    · exact ho.symm.trans hp
    · rw [ho] at hp
      cases hp

-- ==== what is left

/-- Put what slot `i` still owns out of sight, except what `P` keeps. -/
def disown (i : Slot) (P : Owner → Bool) (own : Nat → Owner) (p : Nat) :
    Owner :=
  if (own p).tag = some i.val ∧ P (own p) = false then .held else own p

theorem disown_keep {P : Owner → Bool} {p : Nat}
    (h : (own p).tag ≠ some i.val ∨ P (own p) = true) :
    disown i P own p = own p := by
  unfold disown
  rw [if_neg]
  intro hboth
  rcases h with h | h
  · exact h hboth.1
  · rw [hboth.2] at h
    cases h

theorem disown_cases (P : Owner → Bool) (own : Nat → Owner) (p : Nat) :
    ((own p).tag = some i.val ∧ P (own p) = false ∧
      disown i P own p = .held) ∨
    (((own p).tag ≠ some i.val ∨ P (own p) = true) ∧
      disown i P own p = own p) := by
  by_cases h : (own p).tag = some i.val ∧ P (own p) = false
  · refine Or.inl ⟨h.1, h.2, ?_⟩
    unfold disown
    rw [if_pos h]
  · have hkeep : (own p).tag ≠ some i.val ∨ P (own p) = true := by
      rw [not_and_or, Bool.not_eq_false] at h
      exact h
    exact Or.inr ⟨hkeep, disown_keep hkeep⟩

theorem Heap.disown (hh : Heap s own fl) (i : Slot) (P : Owner → Bool) :
    Heap s (disown i P own) fl := by
  apply hh.relabel
  · intro p
    rcases disown_cases (i := i) P own p with ⟨htag, _, heq⟩ | ⟨_, heq⟩
    · rw [heq]
      exact iff_of_false Owner.noConfusion (tag_used htag)
    · rw [heq]
  · intro p hp
    rw [disown_keep (Or.inl ?_)]
    · exact hp
    · rw [hp]
      exact nofun

theorem touches_disown (i : Slot) (P : Owner → Bool) (s : Kernel)
    (own : Nat → Owner) : Touches i s own s (disown i P own) := by
  apply touches_relabel
  · intro p hp
    exact disown_keep (Or.inl hp)
  · intro p hp
    rcases disown_cases (i := i) P own p with ⟨_, _, heq⟩ | ⟨_, heq⟩
    · exact Or.inl heq
    · rw [heq]
      exact Or.inr hp

-- ==== wait

/-- Every region can be measured in bytes with 32 bits. -/
def Small (s : Kernel) (i : Slot) : Prop :=
  ∀ k < (s.procs i).totalMappedRegion,
    (regionAt s.mem (s.procs i).mappedInfo k).npages * pgSize < 2 ^ 32

/-- `free_page` of a page of the slot. -/
theorem wp_freeOwn {p : Nat} {Q : Unit → Kernel → Prop} (hh : Heap s own fl)
    (htag : (own p).tag = some i.val)
    (hok : ∀ s', s'.rest = s.rest → Within s.mem s'.mem p →
      Heap s' (Function.update own p .free) (p :: fl) →
      Touches i s own s' (Function.update own p .free) → Q () s') :
    Wp bad E (freePage p) Q s := by
  have hpage := tag_page hh htag
  apply wp_free hh (tag_used htag) (Or.inl hpage)
  intro s' _ hr hw hh'
  exact hok s' hr hw hh' (touches_free hr hpage.aligned hw htag)

/-- The pages given back for process `i` are in front of the list. -/
def GivenBack (s : Kernel) (i : Slot) (fl fl' : List Nat) : Prop :=
  ∃ back, fl' = back ++ fl ∧ back.length ≤ pagesUpTo s.mem
    (s.procs i).mappedInfo (s.procs i).totalMappedRegion + 3

/-- What `do_wait` gives back, it may give back. -/
theorem wp_releasePages {heap : Nat → Nat → Prop} (hh : Heap s own fl)
    (hS : Space cfg P s own i heap) (hsmall : Small s i) :
    Wp bad E (releasePages i) (fun _ s' => ∃ own' fl', s'.rest = s.rest ∧
      Heap s' own' fl' ∧ Touches i s own s' own' ∧
      GivenBack s i fl fl') s := by
  obtain ⟨ks, hks, hksown⟩ := hS.kstack
  have hkstag : (own ks).tag = some i.val := by
    rw [hksown]
    rfl
  have hksal := (tag_page hh hkstag).aligned
  have hback : (s.procs i).kstack - pgSize = ks := by
    rw [hks]
    exact Nat.add_sub_cancel ks pgSize
  unfold releasePages
  rw [wp_bind, wp_proc, wp_bind, hback]
  apply wp_freeOwn hh hkstag
  intro s₁ hr₁ hw₁ hh₁ ht₁
  have hkept : ∀ p, own p ≠ .kstack i →
      Function.update own ks .free p = own p := by
    intro p hp
    rw [Function.update_of_ne]
    intro heq
    rw [heq] at hp
    exact hp hksown
  have hagree : ∀ p, p % pgSize = 0 → own p ≠ .kstack i →
      Agree s.mem s₁.mem p (p + 4096) := by
    intro p hal hp
    apply hw₁.agree hal hksal
    intro heq
    rw [heq] at hp
    exact hp hksown
  have hinfoal := (tag_page (n := i) hh (by rw [hS.regions.owner]; rfl)).aligned
  have hinfone : own (s.procs i).mappedInfo ≠ .kstack i := by
    rw [hS.regions.owner]
    exact Owner.noConfusion
  have hproc : s₁.procs i = s.procs i := by rw [procs_eq hr₁]
  -- the kernel stack is no part of what the regions describe
  have hR₁ : Regions s₁.mem (Function.update own ks .free) i
      (s₁.procs i).pagetable (s₁.procs i).mappedInfo
      (s₁.procs i).totalMappedRegion (heapLeaf cfg own i heap) := by
    rw [hproc]
    apply hS.regions.congr
    · intro p hp
      apply hkept
      rcases hp with ⟨u, hu⟩ | hu
      · rw [hu]; exact Owner.noConfusion
      · rw [hu]; exact Owner.noConfusion
    · intro path t ht
      have hne : own t ≠ .kstack i := by
        rw [ht]
        exact Owner.noConfusion
      exact ⟨(hkept t hne).trans ht,
        hagree t (hh.table_aligned path t ht) hne⟩
    · exact ⟨(hkept _ hinfone).trans hS.regions.owner,
        hagree _ hinfoal hinfone⟩
    · exact fun _ _ h => h
  have hat : ∀ k < (s.procs i).totalMappedRegion,
      regionAt s₁.mem (s.procs i).mappedInfo k
        = regionAt s.mem (s.procs i).mappedInfo k :=
    fun k hk => regionAt_agree (hagree _ hinfoal hinfone)
      (Nat.lt_of_lt_of_le hk hS.regions.table.count)
  have hsmall₁ : ∀ k < (s₁.procs i).totalMappedRegion,
      (regionAt s₁.mem (s₁.procs i).mappedInfo k).npages * pgSize
        < 2 ^ 32 := by
    intro k hk
    rw [hproc] at hk ⊢
    rw [hat k hk]
    exact hsmall k hk
  rw [wp_bind]
  apply (wp_freeRegions hh₁ hR₁ hsmall₁).mono
  intro _ s₂ hres
  obtain ⟨own₂, fl₂, h₂, hrec⟩ := hres
  rw [hproc] at h₂ hR₁ hrec
  -- the region page and the root are no frames, so they are still owned
  have hstill : ∀ p o, Function.update own ks .free p = o →
      (∀ v, o ≠ .frame i v) → own₂ p = o := by
    intro p o hp ho
    rcases h₂.owner p with h | ⟨_, _, _, va, _, h⟩
    · exact h.trans hp
    · exact absurd (hp.symm.trans h) (ho _)
  have hinfo₂ : own₂ (s.procs i).mappedInfo = .regions i :=
    hstill _ _ hR₁.owner fun _ => Owner.noConfusion
  have hroot₂ : own₂ (s.procs i).pagetable = .table i [] :=
    hstill _ _ (hR₁.tables [] _ (by decide) rfl) fun _ => Owner.noConfusion
  rw [wp_bind]
  apply wp_freeOwn h₂.pages (by rw [hinfo₂]; rfl)
  intro s₃ hr₃ hw₃ hh₃ ht₃
  have hroot₃ : Function.update own₂ (s.procs i).mappedInfo .free
      (s.procs i).pagetable = .table i [] := by
    rw [Function.update_of_ne]
    · exact hroot₂
    · intro heq
      rw [heq, hinfo₂] at hroot₂
      cases hroot₂
  apply wp_freeOwn hh₃ (by rw [hroot₃]; rfl)
  intro s₄ hr₄ hw₄ hh₄ ht₄
  refine ⟨_, _, ?_, hh₄, ?_, ?_⟩
  · rw [hr₄, hr₃, h₂.rest, hr₁]
  · exact ((ht₁.trans h₂.touches).trans ht₃).trans ht₄
  · have hle := length_recalledFrames_le s₁.mem (s.procs i).pagetable
      (s.procs i).mappedInfo (s.procs i).totalMappedRegion
    rw [pagesUpTo_congr fun k hk => congrArg MappedRegion.npages (hat k hk)] at hle
    refine ⟨(s.procs i).pagetable :: (s.procs i).mappedInfo ::
      ((recalledFrames s₁.mem (s.procs i).pagetable (s.procs i).mappedInfo
        (s.procs i).totalMappedRegion).reverse ++ [ks]), ?_, ?_⟩
    · rw [hrec.list]
      simp only [List.cons_append, List.append_assoc, List.nil_append]
    · simp only [List.length_cons, List.length_append, List.length_reverse,
        List.length_nil]
      omega

/-- `do_wait` reaps a dead child: its slot owns nothing any more. -/
theorem wp_reapSpace {built : Slot → Prop} {heap : Slot → Nat → Nat → Prop}
    (hK : KInv cfg P s own fl built heap) (hi : built i) (hsmall : Small s i) :
    Wp bad E (reap i) (fun _ s' => ∃ own' fl',
      KInv cfg P s' own' fl' (fun j => built j ∧ j ≠ i) heap ∧
      Touches i s own s' own' ∧ GivenBack s i fl fl' ∧
      s'.procs i = { s.procs i with
        status := .free, parent := none, queueNext := none }) s := by
  unfold reap
  rw [wp_bind]
  apply (wp_releasePages hK.pages (hK.space i hi) hsmall).mono
  intro _ s₁ hres
  obtain ⟨own₁, fl₁, hr₁, hh₁, ht₁, hgrew⟩ := hres
  rw [wp_bind]
  apply wp_setProc hh₁
  intro s₂ hp₂ hm₂ hh₂ ht₂
  apply wp_setAcct hh₂
  intro s₃ hr₃ hm₃ hh₃ ht₃
  have ht : Touches i s own s₃ (disown i (fun _ => false) own₁) :=
    ((ht₁.trans ht₂).trans ht₃).trans (touches_disown ..)
  refine ⟨disown i (fun _ => false) own₁, fl₁, ?_, ht, hgrew, ?_⟩
  · apply hK.touches ht (hh₃.disown i _)
    · intro hb
      exact absurd rfl hb.2
    · intro _ p
      rcases disown_cases (i := i) (fun _ => false) own₁ p with
        ⟨_, _, heq⟩ | ⟨hno, heq⟩
      · rw [heq]
        exact nofun
      · rw [heq]
        exact hno.resolve_right Bool.false_ne_true
    · intro j hj
      exact ⟨and_iff_left hj, rfl⟩
  · rw [procs_eq hr₃, hp₂, procs_eq hr₁]

-- ==== exec

/-- What `realloc_process` keeps: kernel stack and region page. -/
def Owner.survives : Owner → Bool
  | .kstack _ => true
  | .regions _ => true
  | _ => false

/-- The free list once `realloc_process` has given back what it gives
back: the root table on top, then the frames, the last one first. -/
def recycleList (s : Kernel) (i : Slot) (fl : List Nat) : List Nat :=
  (s.procs i).pagetable :: ((recalledFrames s.mem (s.procs i).pagetable
    (s.procs i).mappedInfo (s.procs i).totalMappedRegion).reverse ++ fl)

/-- `realloc_process` up to the new mappings: the old space is gone, three
pages are taken from the top of the list. -/
structure Redrafted (i : Slot) (s : Kernel) (own : Nat → Owner) (fl : List Nat)
    (us : Nat) (s' : Kernel) (own' : Nat → Owner) (fl' : List Nat) : Prop where
  pages : Heap s' own' fl'
  draft : Draft s' own' i us
  touches : Touches i s own s' own'
  slot : s'.procs i = { s.procs i with
    trapframe := (s'.procs i).trapframe
    pagetable := (s'.procs i).pagetable }
  list : recycleList s i fl
    = (s'.procs i).trapframe :: (s'.procs i).pagetable :: us :: fl'
  nodup : (recycleList s i fl).Nodup
  page : ∀ p ∈ recycleList s i fl, PageIn s p
  sp : load s'.mem 8 ((s'.procs i).trapframe + tfSp) = userStackTop
  links : ∀ p ∈ us :: fl', load s'.mem 8 p = 0 ∨
    load s'.mem 8 p ∈ recycleList s i fl
  tails : ∀ p, p % pgSize = 0 → (∀ path, own p ≠ .table i path) →
    p ≠ (s'.procs i).trapframe → p ≠ (s'.procs i).pagetable →
    p ≠ (s.procs i).mappedInfo → Agree s.mem s'.mem (p + 8) (p + 4096)
  others : ∀ p, p % pgSize = 0 → (∀ path, own p ≠ .table i path) →
    p ∉ recycleList s i fl → p ≠ (s.procs i).mappedInfo →
    Agree s.mem s'.mem p (p + 4096)

theorem wp_reallocDraft {heap : Nat → Nat → Prop} {next : Nat → K Unit}
    {Q : Unit → Kernel → Prop} (hh : Heap s own fl)
    (hS : Space cfg P s own i heap) (hsmall : Small s i)
    (hroom : Room bad (n + 3) (recycleList s i fl))
    (hnext : ∀ us s' own' fl', Redrafted i s own fl us s' own' fl' →
      Room bad n fl' → Wp bad E (next us) Q s') :
    Wp bad E (do
      freeRegions i
      let p ← proc i
      freePage p.pagetable
      let trapframe ← allocPage
      setProc i fun q => { q with trapframe := trapframe }
      memset trapframe 0 tfSize
      let pagetable ← allocPage
      setProc i fun q => { q with pagetable := pagetable }
      memset pagetable 0 pgSize
      let userStack ← allocPage
      sd (trapframe + tfSp) userStackTop
      memset p.mappedInfo 0 pgSize
      next userStack) Q s := by
  rw [wp_bind]
  apply (wp_freeRegions hh hS.regions hsmall).mono
  intro _ s₁ hres
  obtain ⟨own₁, fl₁, h₁, hrec⟩ := hres
  have hproc₁ : s₁.procs i = s.procs i := by rw [procs_eq h₁.rest]
  have hstill : ∀ p o, own p = o → (∀ v, o ≠ .frame i v) → own₁ p = o := by
    intro p o hp ho
    rcases h₁.owner p with h | ⟨_, _, _, va, _, h⟩
    · exact h.trans hp
    · exact absurd (hp.symm.trans h) (ho _)
  have hroot : own (s.procs i).pagetable = .table i [] :=
    hS.regions.tables [] _ (by decide) rfl
  have hroot₁ : own₁ (s.procs i).pagetable = .table i [] :=
    hstill _ _ hroot fun _ => Owner.noConfusion
  rw [wp_bind, wp_proc, hproc₁, wp_bind]
  apply wp_freeOwn h₁.pages (by rw [hroot₁]; rfl)
  intro s₂ hr₂ hw₂ hh₂ ht₂
  have hlist₂ : (s.procs i).pagetable :: fl₁ = recycleList s i fl := by
    rw [hrec.list]
    rfl
  rw [hlist₂] at hh₂
  -- tables, private code and unrecorded pages of the old space are lost
  have hh₂' := hh₂.disown i Owner.survives
  have hsurvive : ∀ p o, own p = o → o.survives = true →
      disown i Owner.survives (Function.update own₁ (s.procs i).pagetable .free)
        p = o := by
    intro p o hp ho
    have hne : p ≠ (s.procs i).pagetable := by
      intro heq
      rw [← heq, hp] at hroot
      rw [hroot] at ho
      cases ho
    have hold : Function.update own₁ (s.procs i).pagetable .free p = o := by
      rw [Function.update_of_ne hne]
      apply hstill p o hp
      intro v hv
      rw [hv] at ho
      cases ho
    rw [disown_keep (Or.inr (by rw [hold]; exact ho))]
    exact hold
  have hinfo₂ := hsurvive _ _ hS.regions.owner rfl
  obtain ⟨ks, hks, hksown⟩ := hS.kstack
  have hks₂ := hsurvive ks _ hksown rfl
  have ht₂' := (h₁.touches.trans ht₂).trans
    (touches_disown i Owner.survives s₂ _)
  have hrootal : (s.procs i).pagetable % pgSize = 0 :=
    (hh.table_page hroot).aligned
  -- what the frees wrote
  have htails₂ : ∀ p, p % pgSize = 0 → (∀ path, own p ≠ .table i path) →
      Agree s.mem s₂.mem (p + 8) (p + 4096) := by
    intro p hal hp
    have hne : p ≠ (s.procs i).pagetable := by
      rintro rfl
      exact hp [] hroot
    exact (hrec.tails p hal hp).trans
      ((hw₂.agree hal hrootal hne).mono (Nat.le_add_right ..) (Nat.le_refl _))
  have hothers₂ : ∀ p, p % pgSize = 0 → (∀ path, own p ≠ .table i path) →
      p ∉ recycleList s i fl → Agree s.mem s₂.mem p (p + 4096) := by
    intro p hal hp hnot
    unfold recycleList at hnot
    rw [List.mem_cons, List.mem_append, List.mem_reverse, not_or, not_or] at hnot
    exact (hrec.others p hal hnot.2.1 hp).trans (hw₂.agree hal hrootal hnot.1)
  generalize disown i Owner.survives
    (Function.update own₁ (s.procs i).pagetable .free) = own₂
    at hh₂' hinfo₂ hks₂ ht₂'
  -- the new trapframe and root
  apply wp_claimZero (o := fun p => .frame i (p / pgSize)) (by decide)
    (fun _ => ⟨Owner.noConfusion, rfl⟩) hh₂' hroom
  intro tf s₃ own₃ fl₃ h₃ room₃
  apply wp_claimZero (o := fun _ => .table i []) (by decide)
    (fun _ => ⟨Owner.noConfusion, rfl⟩) h₃.pages room₃
  intro pt s₄ own₄ fl₄ h₄ room₄
  -- the new user stack
  rw [wp_bind]
  apply wp_take (i := i) (fun _ => .frame i ((userStackTop - pgSize) / pgSize))
    (fun _ => ⟨Owner.noConfusion, Or.inr rfl⟩) h₄.pages room₄
  intro us s₅ own₅ fl₅ h₅ room₅
  have htf₅ : own₅ tf = .frame i (tf / pgSize) :=
    h₅.kept (h₄.kept h₃.new Owner.noConfusion) Owner.noConfusion
  have hpt₅ : own₅ pt = .table i [] := h₅.kept h₄.new Owner.noConfusion
  have hinfo₅ : own₅ (s.procs i).mappedInfo = .regions i :=
    h₅.kept (h₄.kept (h₃.kept hinfo₂ Owner.noConfusion) Owner.noConfusion)
      Owner.noConfusion
  have hks₅ : own₅ ks = .kstack i :=
    h₅.kept (h₄.kept (h₃.kept hks₂ Owner.noConfusion) Owner.noConfusion)
      Owner.noConfusion
  have htfal := (tag_page (n := i) h₅.pages (by rw [htf₅]; rfl)).aligned
  have hptal := (tag_page (n := i) h₅.pages (by rw [hpt₅]; rfl)).aligned
  have hinfoal := (tag_page (n := i) h₅.pages (by rw [hinfo₅]; rfl)).aligned
  rw [wp_bind]
  unfold sd
  have hwtf : Within s₅.mem (store s₅.mem 8 (tf + tfSp) userStackTop) tf :=
    within_store (by omega) (by simp only [tfSp]; omega)
  apply wp_onMem h₅.pages (by rw [htf₅]; rfl) hwtf
  intro s₆ hr₆ hm₆ hh₆ ht₆
  rw [wp_bind]
  unfold memset
  have hwin : Within s₆.mem (fill s₆.mem (s.procs i).mappedInfo 0 pgSize)
      (s.procs i).mappedInfo := within_fill (Nat.le_refl _) (Nat.le_refl _)
  apply wp_onMem hh₆ (by rw [hinfo₅]; rfl) hwin
  intro s₇ hr₇ hm₇ hh₇ ht₇
  have hslot : s₇.procs i = { s.procs i with
      trapframe := tf, pagetable := pt } := by
    rw [procs_eq hr₇, procs_eq hr₆, procs_eq h₅.rest, h₄.slot, h₃.slot,
      procs_eq hr₂, hproc₁]
  have hdraft : Draft s₇ own₅ i us := by
    constructor
    case root => rw [hslot]; exact hpt₅
    case root_zero =>
      rw [hslot]
      intro x hlo hhi
      have hne : ∀ q o, own₅ q = o → (∀ path, o ≠ .table i path) → pt ≠ q := by
        intro q o hq ho heq
        rw [← heq, hpt₅] at hq
        exact ho [] hq.symm
      have hag₇ := hwin.agree hptal hinfoal
        (hne _ _ hinfo₅ fun _ => Owner.noConfusion)
      have hag₆ := hwtf.agree hptal htfal
        (hne _ _ htf₅ fun _ => Owner.noConfusion)
      rw [hm₇, hag₇ x hlo hhi, hm₆, hag₆ x hlo hhi, h₅.mem]
      exact h₄.zero x hlo hhi
    case info => rw [hslot]; exact hinfo₅
    case info_zero =>
      rw [hslot]
      intro x hlo hhi
      rw [hm₇]
      unfold fill
      rw [if_pos ⟨hlo, hhi⟩]
    case kstack => rw [hslot]; exact ⟨ks, hks, hks₅⟩
    case trapframe => rw [hslot]; exact htf₅
    case ustack => exact h₅.new
  have ht₇' : Touches i s own s₇ own₅ :=
    ((((ht₂'.trans h₃.touches).trans h₄.touches).trans h₅.touches).trans
      ht₆).trans ht₇
  have hlist : recycleList s i fl = tf :: pt :: us :: fl₅ := by
    rw [h₃.head, h₄.head, h₅.head]
  -- the new pages and the region page apart, nothing was written since
  have hsince : ∀ p, p % pgSize = 0 → p ≠ tf → p ≠ pt →
      p ≠ (s.procs i).mappedInfo → Agree s₂.mem s₇.mem p (p + 4096) := by
    intro p hal htf hpt hinfo
    have hag := (h₃.others p hal htf).trans (h₄.others p hal hpt)
    rw [← h₅.mem] at hag
    have hag₆ := hwtf.agree hal htfal htf
    rw [← hm₆] at hag₆
    have hag₇ := hwin.agree hal hinfoal hinfo
    rw [← hm₇] at hag₇
    exact (hag.trans hag₆).trans hag₇
  have hnd : (tf :: pt :: us :: fl₅).Nodup := by
    rw [← hlist]
    exact hh₂.pool.nodup
  have hinfonot : (s.procs i).mappedInfo ∉ recycleList s i fl := by
    intro hmem
    have hfree := (hh₂'.free _).mpr hmem
    rw [hinfo₂] at hfree
    cases hfree
  refine hnext us s₇ own₅ fl₅ ?_ room₅
  constructor
  case pages => exact hh₇
  case draft => exact hdraft
  case touches => exact ht₇'
  case slot => rw [hslot]
  case list => rw [hslot]; exact hlist
  case nodup => exact hh₂.pool.nodup
  case page =>
    intro p hp
    exact (hh₂.pool.page p hp).congr (h₁.rest.symm.trans hr₂.symm)
  case sp =>
    have hne : tf ≠ (s.procs i).mappedInfo := by
      rintro rfl
      rw [htf₅] at hinfo₅
      cases hinfo₅
    have hag : Agree s₆.mem s₇.mem (tf + tfSp) (tf + tfSp + 8) := by
      rw [hm₇]
      exact (hwin.agree htfal hinfoal hne).mono (Nat.le_add_right ..)
        (by simp only [tfSp]; omega)
    rw [hslot]
    show load s₇.mem 8 (tf + tfSp) = userStackTop
    rw [load_agree hag, hm₆, load_store]
    decide
  case links =>
    intro p hp
    have hin : p ∈ recycleList s i fl := by
      rw [hlist]
      exact List.mem_cons_of_mem _ (List.mem_cons_of_mem _ hp)
    have hne : ∀ q ∈ [tf, pt], p ≠ q := by
      rintro q hq rfl
      have hsub : [tf, pt].Disjoint (us :: fl₅) :=
        List.disjoint_of_nodup_append hnd
      exact hsub hq hp
    have hal := (hh₂.pool.page p hin).aligned
    have hag := hsince p hal (hne tf (by simp)) (hne pt (by simp))
      (fun heq => hinfonot (heq ▸ hin))
    rw [load_agree (hag.mono (Nat.le_refl _) (by omega))]
    rcases hh₂.pool.chain.next_mem hin with hnone | ⟨q, hq, hsome⟩
    · left
      unfold freeNext link at hnone
      split at hnone
      · assumption
      · cases hnone
    · right
      rw [(link_eq_some hsome).1]
      exact hq
  case tails =>
    rw [hslot]
    intro p hal hp htf hpt hinfo
    exact (htails₂ p hal hp).trans ((hsince p hal htf hpt hinfo).mono
      (Nat.le_add_right ..) (Nat.le_refl _))
  case others =>
    intro p hal hp hnot hinfo
    have hne : ∀ q ∈ [tf, pt], p ≠ q := by
      rintro q hq rfl
      rw [hlist] at hnot
      exact hnot (List.mem_append_left (us :: fl₅) hq)
    exact (hothers₂ p hal hp hnot).trans
      (hsince p hal (hne tf (by simp)) (hne pt (by simp)) hinfo)

/-- `realloc_process` builds an empty space in place of the old one. -/
theorem wp_reallocProcess {heap : Nat → Nat → Prop} (hh : Heap s own fl)
    (hr : Ranges cfg s) (hS : Space cfg P s own i heap) (hsmall : Small s i)
    (hroom : Room bad 10 fl) :
    Wp bad E (reallocProcess cfg i) (fun _ s' => ∃ own' fl',
      Heap s' own' fl' ∧ Space cfg P' s' own' i (fun _ _ => False) ∧
      Touches i s own s' own' ∧ (s'.procs i).totalMappedRegion = 3 ∧
      fl.length ≤ fl'.length + 9) s := by
  have hlonger : fl.length ≤ (recycleList s i fl).length := by
    unfold recycleList
    rw [List.length_cons, List.length_append]
    omega
  unfold reallocProcess
  apply wp_reallocDraft (n := 7) hh hS hsmall (hroom.less (by omega))
  intro us s₁ own₁ fl₁ h₁ room₁
  rw [wp_bind]
  apply (wp_mapSystemRegions h₁.pages (hr.congr h₁.touches.apart) h₁.draft
    room₁).mono
  intro _ s₂ hres
  obtain ⟨own₂, fl₂, hh₂, hS₂, ht₂, hp₂, hkeep₂, hlen₂, _⟩ := hres
  apply wp_setAcct hh₂
  intro s₃ hr₃ hm₃ hh₃ ht₃
  refine ⟨own₂, fl₂, hh₃, ?_, (h₁.touches.trans ht₂).trans ht₃, ?_, ?_⟩
  · apply hS₂.frame (SameSpace.of_eq (by rw [procs_eq hr₃]))
    · exact fun _ _ => rfl
    · intro p _
      rw [hm₃]
      exact Agree.refl s₂.mem p (p + 4096)
    · exact fun _ _ hf => hf
  · rw [procs_eq hr₃, hp₂]
  · have hlen := congrArg List.length h₁.list
    simp only [List.length_cons] at hlen
    omega

end Pke
