/-
Fork: the child's address space against the parent's.

`do_fork` builds a process and walks over the parent's region table:
code is shared page by page, data is copied page by page, stack and
trapframe are copied in place. Everything it writes is a page of the
child or was free, so the parent is what it was at the start of the walk
(`Touches child`), and that is what every copy is compared with.

# Ownership

A code frame may be private to the parent when the walk starts. It is
relabelled as shared code beforehand (`shareCode`); nothing but the
labels changes, and the parent's space stays in order.

# Two loops

`Copying` is the invariant of the loop over the pages of one region,
`Forked` of the loop over the regions. Both say that what was duplicated
stays duplicated: a step maps a page that was not mapped before, and
writes to no frame in use but its own.
-/
import Pke.Proofs.Build

namespace Pke

open ByteMem Traced

variable {bad : Event → Prop} {E : Halt → Kernel → Prop}
variable {cfg : Config} {P : MappedRegion → Prop}
variable {s s' s₀ s₁ s₂ s₃ : Kernel} {own own' own₀ own₁ own₂ own₃ : Nat → Owner}
variable {fl fl' fl₀ fl₁ fl₂ fl₃ : List Nat} {a c i : Slot}
variable {heap : Nat → Nat → Prop} {root info n : Nat}

-- ==== sharing code

open Classical in
/-- Relabel the frames of process `a` at the pages in `C` as shared. -/
noncomputable def shareCode (a : Slot) (C : Nat → Prop) (own : Nat → Owner)
    (p : Nat) : Owner :=
  if ∃ v, own p = .frame a v ∧ C v then .code else own p

theorem shareCode_cases (a : Slot) (C : Nat → Prop) (own : Nat → Owner)
    (p : Nat) : (shareCode a C own p = .code ∧ ∃ v, own p = .frame a v ∧ C v)
      ∨ (shareCode a C own p = own p ∧ ¬ ∃ v, own p = .frame a v ∧ C v) := by
  unfold shareCode
  by_cases h : ∃ v, own p = .frame a v ∧ C v
  · rw [if_pos h]
    exact Or.inl ⟨rfl, h⟩
  · rw [if_neg h]
    exact Or.inr ⟨rfl, h⟩

theorem shareCode_keep {C : Nat → Prop} {p : Nat}
    (h : ∀ v, own p = .frame a v → ¬ C v) : shareCode a C own p = own p := by
  rcases shareCode_cases a C own p with ⟨_, v, hv, hC⟩ | ⟨heq, _⟩
  · exact absurd hC (h v hv)
  · exact heq

theorem shareCode_frame {C : Nat → Prop} {p v : Nat}
    (hp : own p = .frame a v) (hC : C v) : shareCode a C own p = .code := by
  rcases shareCode_cases a C own p with ⟨heq, _⟩ | ⟨_, hno⟩
  · exact heq
  · exact absurd ⟨v, hp, hC⟩ hno

/-- The pages of the code regions of a process. -/
def codePage (s : Kernel) (a : Slot) (v : Nat) : Prop :=
  ∃ k < (s.procs a).totalMappedRegion,
    (regionAt s.mem (s.procs a).mappedInfo k).segType = SegType.code.word ∧
    (regionAt s.mem (s.procs a).mappedInfo k).Covers (v * pgSize)

theorem covers_page {r : MappedRegion} (va : Nat) :
    r.Covers (va / pgSize * pgSize) ↔ r.Covers va := by
  unfold MappedRegion.Covers inPages
  simp only [pgSize]
  omega

theorem Heap.shareCode (hh : Heap s own fl) (a : Slot) (C : Nat → Prop) :
    Heap s (shareCode a C own) fl := by
  apply hh.relabel
  · intro p
    rcases shareCode_cases a C own p with ⟨heq, v, hv, _⟩ | ⟨heq, _⟩
    · rw [heq, hv]
      exact iff_of_false Owner.noConfusion Owner.noConfusion
    · rw [heq]
  · intro p hp
    rw [shareCode_keep]
    · exact hp
    · intro v hv
      rw [hp] at hv
      cases hv

/-- The parent's own space after sharing its code. -/
theorem Space.shareCode (hS : Space cfg P s own a heap) :
    Space cfg P s (shareCode a (codePage s a) own) a heap := by
  have hkeep : ∀ p o, own p = o → (∀ v, o ≠ .frame a v) →
      Pke.shareCode a (codePage s a) own p = o := by
    intro p o hp ho
    rw [shareCode_keep]
    · exact hp
    · intro v hv
      exact absurd (hp.symm.trans hv) (ho v)
  -- a page of another segment is no code page
  have hother : ∀ k < (s.procs a).totalMappedRegion, ∀ seg : SegType,
      (regionAt s.mem (s.procs a).mappedInfo k).segType = seg.word →
      seg ≠ .code → ∀ va,
      (regionAt s.mem (s.procs a).mappedInfo k).Covers va →
      ¬ codePage s a (va / pgSize) := by
    intro k hk seg hseg hne va hc hcode
    obtain ⟨l, hl, hlseg, hlc⟩ := hcode
    rw [covers_page] at hlc
    have hkl := hS.regions.table.disjoint k hk l hl va hc hlc
    rw [hkl, hlseg] at hseg
    exact hne (segType_word_inj hseg).symm
  have hR := hS.regions
  refine ⟨⟨?_, ?_, hR.table, ?_, ?_⟩, ?_, hS.three, hS.stack, hS.context,
    hS.system, hS.image⟩
  · intro path t hlen ht
    exact hkeep t _ (hR.tables path t hlen ht) fun _ => Owner.noConfusion
  · exact hkeep _ _ hR.owner fun _ => Owner.noConfusion
  · intro k hk seg hseg va hc
    obtain ⟨w, hw, hl⟩ := hR.mapped k hk seg hseg va hc
    refine ⟨w, hw, hl.readable, ?_, hl.kernel, hl.user⟩
    have hown := hl.owner
    have hframe : seg ≠ .code → own (pte2pa w) = .frame a (va / pgSize) →
        Pke.shareCode a (codePage s a) own (pte2pa w)
          = .frame a (va / pgSize) := by
      intro hne hp
      rw [shareCode_keep]
      · exact hp
      · intro v hv
        rw [hp] at hv
        injection hv with _ hv
        rw [← hv]
        exact hother k hk seg hseg hne va hc
    cases seg with
    | code =>
        apply Or.inr
        rcases hown with h | h
        · apply shareCode_frame h
          exact ⟨k, hk, hseg, (covers_page va).mpr hc⟩
        · exact hkeep _ _ h fun _ => Owner.noConfusion
    | system => trivial
    | data => exact hframe nofun hown
    | stack => exact hframe nofun hown
    | context => exact hframe nofun hown
  · intro va w hva hw
    rcases hR.leaves va w hva hw with h | ⟨hv, ho, hu⟩ | hstray
    · exact Or.inl h
    · by_cases hcode : codePage s a (va / pgSize)
      · obtain ⟨k, hk, _, hc⟩ := hcode
        exact Or.inl ⟨k, hk, (covers_page va).mp hc⟩
      · have hkept : Pke.shareCode a (codePage s a) own (pte2pa w)
            = own (pte2pa w) := by
          apply shareCode_keep
          intro v hv'
          rw [← (Owner.frame.inj (ho.symm.trans hv')).2]
          exact hcode
        exact Or.inr (Or.inl ⟨hv, hkept.trans ho, hu⟩)
    · exact Or.inr (Or.inr hstray)
  · obtain ⟨k, hk, hkown⟩ := hS.kstack
    exact ⟨k, hk, hkeep k _ hkown fun _ => Owner.noConfusion⟩

/-- After sharing, every code leaf of the parent is labelled so. -/
theorem Space.shared (hS : Space cfg P s own a heap) {k va w : Nat}
    (hk : k < (s.procs a).totalMappedRegion)
    (hseg : (regionAt s.mem (s.procs a).mappedInfo k).segType
      = SegType.code.word)
    (hc : (regionAt s.mem (s.procs a).mappedInfo k).Covers va)
    (hw : leaf s.mem (s.procs a).pagetable va = some w) :
    Pke.shareCode a (codePage s a) own (pte2pa w) = .code := by
  obtain ⟨w', hw', hl⟩ := hS.regions.mapped k hk .code hseg va hc
  rw [hw] at hw'
  rw [Option.some.inj hw']
  rcases hl.owner with h | h
  · apply shareCode_frame h
    exact ⟨k, hk, hseg, (covers_page va).mpr hc⟩
  · rw [shareCode_keep]
    · exact h
    · intro v hv
      rw [h] at hv
      cases hv

theorem KInv.shareCode {built : Slot → Prop} {heap : Slot → Nat → Nat → Prop}
    (hK : KInv cfg P s own fl built heap) (ha : built a) :
    KInv cfg P s (shareCode a (codePage s a) own) fl built heap where
  pages := hK.pages.shareCode a _
  ranges := hK.ranges
  space j hj := by
    by_cases hja : j = a
    · rw [hja]
      exact (hK.space a ha).shareCode
    · apply (hK.space j hj).frame (SameSpace.of_eq rfl)
      · intro p hp
        apply shareCode_keep
        intro v hv
        rw [hv] at hp
        rcases hp with h | h
        · exact absurd (Fin.ext (Option.some.inj h).symm) hja
        · cases h
      · intro p _
        exact Agree.refl s.mem p (p + 4096)
      · exact fun _ _ h => h
  tagged p i hi := by
    rcases shareCode_cases a (codePage s a) own p with ⟨heq, _⟩ | ⟨heq, _⟩
    · rw [heq] at hi
      cases hi
    · rw [heq] at hi
      exact hK.tagged p i hi

-- ==== growing the child

/-- The child's page table was extended; no frame in use was written. -/
structure Extends (c : Slot) (root : Nat)
    (s : Kernel) (own : Nat → Owner) (fl : List Nat)
    (s' : Kernel) (own' : Nat → Owner) (fl' : List Nat) : Prop where
  rest : s'.rest = s.rest
  pages : Heap s' own' fl'
  touches : Touches c s own s' own'
  keep : ∀ p, own p ≠ .free → own' p = own p
  agree : ∀ p, p % pgSize = 0 → own p ≠ .free →
    (∀ path, own p ≠ .table c path) → Agree s.mem s'.mem p (p + 4096)
  leaves : ∀ va w, va < 2 ^ 39 → leaf s.mem root va = some w →
    leaf s'.mem root va = some w
  suffix : fl' <:+ fl

theorem Extends.refl (hh : Heap s own fl) (c : Slot) (root : Nat) :
    Extends c root s own fl s own fl where
  rest := rfl
  pages := hh
  touches := Touches.refl c s own
  keep _ _ := rfl
  agree p _ _ _ := Agree.refl s.mem p (p + 4096)
  leaves _ _ _ h := h
  suffix := List.suffix_refl fl

theorem Extends.trans (h₁ : Extends c root s₁ own₁ fl₁ s₂ own₂ fl₂)
    (h₂ : Extends c root s₂ own₂ fl₂ s₃ own₃ fl₃) :
    Extends c root s₁ own₁ fl₁ s₃ own₃ fl₃ where
  rest := h₂.rest.trans h₁.rest
  pages := h₂.pages
  touches := h₁.touches.trans h₂.touches
  keep p hp := by
    have h := h₁.keep p hp
    rw [h₂.keep p (by rw [h]; exact hp), h]
  agree p hal hp ht := by
    have h := h₁.keep p hp
    apply (h₁.agree p hal hp ht).trans
    apply h₂.agree p hal
    · rw [h]; exact hp
    · rw [h]; exact ht
  leaves va w hva hw := h₂.leaves va w hva (h₁.leaves va w hva hw)
  suffix := h₂.suffix.trans h₁.suffix

theorem Extends.kept (h : Extends c root s own fl s' own' fl') {p : Nat}
    {o : Owner} (hp : own p = o) (ho : o ≠ .free) : own' p = o := by
  rw [h.keep p (by rw [hp]; exact ho)]
  exact hp

/-- Mapping a page that was not mapped. -/
theorem extends_map {N : List (Fin 512) → Prop} {va pa perm : Nat}
    (hh : Heap s own fl) (hg : Grown c root N s own fl s' own' fl')
    (hm : Mapped va pa perm 1 root s.mem s'.mem) :
    Extends c root s own fl s' own' fl' where
  rest := hg.rest
  pages := hg.heap
  touches := hg.touches hh
  keep := hg.keep
  agree := hg.agree
  leaves a w ha hw := by
    rw [hm.one ha, if_neg]
    · exact hw
    · intro hpage
      rw [hm.unmapped a ha (inPages_one.mpr hpage)] at hw
      cases hw
  suffix := by
    obtain ⟨tk, hfl, -⟩ := hg.taken
    exact ⟨tk, hfl.symm⟩

/-- Taking a page for the child and filling it. -/
theorem extends_fill {p : Nat} {o : Owner} (hh : Heap s own fl)
    (hT : Tables s.mem own c root) (ht : Took c p o s own fl s₁ own' fl') (hw : Within s₁.mem s'.mem p)
    (hr : s'.rest = s₁.rest) (hh' : Heap s' own' fl')
    (ht' : Touches c s₁ own' s' own') :
    Extends c root s own fl s' own' fl' := by
  have hpal : p % pgSize = 0 := (hh.free_page ht.was).aligned
  have hagree : ∀ q, q % pgSize = 0 → own q ≠ .free →
      Agree s.mem s'.mem q (q + 4096) := by
    intro q hq hused
    rw [← ht.mem]
    apply hw.agree hq hpal
    intro heq
    rw [heq] at hused
    exact hused ht.was
  refine ⟨hr.trans ht.rest, hh', ht.touches.trans ht', ht.keep,
    fun q hq hused _ => hagree q hq hused, ?_, ?_⟩
  · intro va w _ hleaf
    rw [leaf_congr hT]
    · exact hleaf
    · intro path t htab
      apply hagree t (hh.table_aligned path t htab)
      rw [htab]
      exact Owner.noConfusion
  · rw [ht.head]
    exact List.suffix_cons p fl'

/-- The region table is not among the pages written. -/
theorem Extends.regionAt {k : Nat} (he : Extends c root s own fl s' own' fl')
    (hh : Heap s own fl) (hinfo : own info = .regions c)
    (hk : k < maxRegions) : regionAt s'.mem info k = regionAt s.mem info k := by
  apply regionAt_agree _ hk
  apply he.agree
  · exact (tag_page (n := c) hh (by rw [hinfo]; rfl)).aligned
  · rw [hinfo]; exact Owner.noConfusion
  · intro path
    rw [hinfo]
    exact Owner.noConfusion

theorem Regions.extends {extra : Nat → Nat → Prop}
    (hR : Regions s.mem own c root info n extra) (hh : Heap s own fl)
    (he : Extends c root s own fl s' own' fl')
    (hT : Tables s'.mem own' c root)
    (hsame : ∀ va w, va < 2 ^ 39 → leaf s'.mem root va = some w →
      leaf s.mem root va = some w) :
    Regions s'.mem own' c root info n extra := by
  have hused : own info ≠ .free := by rw [hR.owner]; exact Owner.noConfusion
  apply hR.transfer hT (he.kept hR.owner Owner.noConfusion)
  · apply he.agree info _ hused
    · intro path
      rw [hR.owner]
      exact Owner.noConfusion
    · exact (tag_page (n := c) hh (by rw [hR.owner]; rfl)).aligned
  · intro p hp
    apply he.keep
    rcases hp with ⟨u, hu⟩ | hu
    · rw [hu]; exact Owner.noConfusion
    · rw [hu]; exact Owner.noConfusion
  · intro va w hva hw _
    exact he.leaves va w hva hw
  · intro va w hva hw
    exact Or.inl ⟨hsame va w hva hw, id⟩

-- ==== duplication

/-- What fork makes of a page of a segment: leaf `w'` of the child, in
memory `m`, against leaf `w` of the parent, in memory `m₁`. -/
def PageDup (seg : SegType) (m₁ : Mem) (w : Nat) (m : Mem) (w' : Nat) : Prop :=
  match seg with
  | .code => pte2pa w' = pte2pa w ∧ w' &&& pteU ≠ 0 ∧ w' &&& pteW ≠ 0
  | _ => ∀ x < 4096, m (pte2pa w' + x) = m₁ (pte2pa w + x)

/-- A duplicated page of a segment that fork duplicates. -/
structure Duplicate (own : Nat → Owner) (c : Slot) (seg : SegType)
    (v : Nat) (m₁ : Mem) (w : Nat) (m : Mem) (w' : Nat) : Prop where
  region : RegionLeaf own c seg v w'
  same : PageDup seg m₁ w m w'

/-- What is duplicated stays so. -/
theorem Duplicate.extends {seg : SegType} {v w w' : Nat} {m₁ : Mem}
    (hd : Duplicate own c seg v m₁ w s.mem w')
    (hkeep : ∀ p, own p ≠ .free → own' p = own p)
    (hagree : ∀ p, p % pgSize = 0 → own p = .frame c v →
      Agree s.mem s'.mem p (p + 4096)) (hseg : seg ≠ .system) :
    Duplicate own' c seg v m₁ w s'.mem w' where
  region := by
    apply hd.region.relabel
    intro p hp
    apply hkeep
    rcases hp with ⟨u, hu⟩ | hu
    · rw [hu]; exact Owner.noConfusion
    · rw [hu]; exact Owner.noConfusion
  same := by
    have hcopy : own (pte2pa w') = .frame c v →
        (∀ x < 4096, s.mem (pte2pa w' + x) = m₁ (pte2pa w + x)) →
        ∀ x < 4096, s'.mem (pte2pa w' + x) = m₁ (pte2pa w + x) := by
      intro hown hold x hx
      rw [← hold x hx]
      exact hagree _ (pte2pa_aligned w') hown _ (by omega) (by omega)
    cases seg with
    | code => exact hd.same
    | system => exact absurd rfl hseg
    | data => exact hcopy hd.region.owner hd.same
    | stack => exact hcopy hd.region.owner hd.same
    | context => exact hcopy hd.region.owner hd.same

/-- The first `j` pages of a region are duplicated, and not recorded yet;
that took `u` pages. -/
structure Copying (cfg : Config) (c : Slot) (root info n : Nat) (m₁ : Mem) (rootA : Nat)
    (seg : SegType) (va j u : Nat) (s₀ : Kernel) (own₀ : Nat → Owner)
    (fl₀ : List Nat) (s : Kernel) (own : Nat → Owner) (fl : List Nat) :
    Prop where
  ext : Extends c root s₀ own₀ fl₀ s own fl
  regions : Regions s.mem own c root info n fun v w =>
    StrayLeaf cfg v w ∨ (va / pgSize ≤ v ∧ v < va / pgSize + j)
  done : ∀ a w, inPages va j a → leaf m₁ rootA a = some w →
    ∃ w', leaf s.mem root a = some w' ∧
      Duplicate own c seg (a / pgSize) m₁ w s.mem w'
  length : fl₀.length ≤ fl.length + u

section Copy

variable {m₁ : Mem} {rootA va j u pa perm : Nat} {seg : SegType}

theorem inPages_succ {b : Nat} : inPages va (j + 1) b ↔
    inPages va j b ∨ b / 4096 = va / 4096 + j := by
  unfold inPages
  omega

/-- The last step for a page: map what was prepared. -/
theorem wp_copyPage
    (h : Copying cfg c root info n m₁ rootA seg va j u s₀ own₀ fl₀ s own fl)
    (hal : va % pgSize = 0) (hb : va + (j + 1) * pgSize ≤ maxVa)
    (hfree : ∀ k < n, ¬ (regionAt s.mem info k).Covers (va + j * pgSize))
    (hstray : cfg.tableFits = false →
      (va + j * pgSize) / pgSize ≠ (kernBase + pgSize) / pgSize)
    (hperm : perm < 1024) (hpa : pa + pgSize ≤ 2 ^ 64)
    (hdup : ∀ w, leaf m₁ rootA (va + j * pgSize) = some w →
      Duplicate own c seg (va / pgSize + j) m₁ w s.mem
        (pa2pte pa ||| perm ||| pteV))
    (hseg : seg ≠ .system) (hroom : Room bad 3 fl) :
    Wp bad E (mapPages root (va + j * pgSize) pgSize pa perm) (fun _ s' =>
      ∃ own' fl', Copying cfg c root info n m₁ rootA seg va (j + 1) (u + 2)
        s₀ own₀ fl₀ s' own' fl') s := by
  have hpal : (va + j * pgSize) % pgSize = 0 := by
    simp only [pgSize] at hal ⊢
    omega
  have hlt : va + j * pgSize < maxVa := by
    simp only [pgSize, maxVa] at hb ⊢
    omega
  have h39 : va + j * pgSize < 2 ^ 39 := Nat.lt_trans hlt (by decide)
  have hpage : (va + j * pgSize) / 4096 = va / 4096 + j := page_add hal
  have hnone : leaf s.mem root (va + j * pgSize) = none := by
    cases hl : leaf s.mem root (va + j * pgSize) with
    | none => rfl
    | some w =>
        rcases h.regions.leaves _ w h39 hl with ⟨k, hk, hc⟩ | hs | ⟨_, hv⟩
        · exact absurd hc (hfree k hk)
        · exact absurd hs.page (hstray hs.overlong)
        · rw [page_add hal] at hv
          exact absurd hv (Nat.lt_irrefl _)
  apply (wp_mapPage hpal hperm hpa h.ext.pages h.regions.tables hroom
    (Or.inl ⟨hlt, hnone⟩)).mono
  intro _ s' hres
  obtain ⟨_, own', fl', hg, hm, _, hlen⟩ := hres
  have he := extends_map h.ext.pages hg hm
  refine ⟨own', fl', h.ext.trans he, ?_, ?_, ?_⟩
  · apply (h.regions.map h.ext.pages hg hm).mono
    intro v w hv
    rcases hv with (hs | ⟨hlo, hhi⟩) | ⟨hv, _⟩
    · exact Or.inl hs
    · exact Or.inr ⟨hlo, by omega⟩
    · rw [hv, page_add hal]
      exact Or.inr ⟨by omega, by omega⟩
  · intro b w hin hw
    have hb39 : b < 2 ^ 39 := by
      unfold inPages at hin
      simp only [pgSize, maxVa] at hb hal
      omega
    have hframes : ∀ p v, p % pgSize = 0 → own p = .frame c v →
        Agree s.mem s'.mem p (p + 4096) := by
      intro p v hp hown
      apply he.agree p hp
      · rw [hown]; exact Owner.noConfusion
      · intro path
        rw [hown]
        exact Owner.noConfusion
    rcases inPages_succ.mp hin with hold | hnew
    · obtain ⟨w', hw', hd⟩ := h.done b w hold hw
      exact ⟨w', he.leaves b w' hb39 hw',
        hd.extends he.keep (fun p hp hown => hframes p _ hp hown) hseg⟩
    · have hsame : b / 4096 = (va + j * pgSize) / 4096 := by rw [hpage, hnew]
      rw [leaf_page h39 hb39 hsame] at hw
      refine ⟨pa2pte pa ||| perm ||| pteV, ?_, ?_⟩
      · rw [hm.one hb39, if_pos hsame]
      · have hv : b / pgSize = va / pgSize + j := hnew
        rw [hv]
        exact (hdup w hw).extends he.keep
          (fun p hp hown => hframes p _ hp hown) hseg
  · have := h.length
    omega

/-- A page prepared for the child does not disturb the copies made. -/
theorem Copying.extends
    (h : Copying cfg c root info n m₁ rootA seg va j u s₀ own₀ fl₀ s own fl)
    (he : Extends c root s own fl s' own' fl')
    (hT : Tables s'.mem own' c root)
    (hsame : ∀ b, leaf s'.mem root b = leaf s.mem root b)
    (hseg : seg ≠ .system) (hlen : fl.length ≤ fl'.length + 1) :
    Copying cfg c root info n m₁ rootA seg va j (u + 1) s₀ own₀ fl₀
      s' own' fl' where
  ext := h.ext.trans he
  regions := h.regions.extends h.ext.pages he hT fun b w _ hw =>
    (hsame b).symm.trans hw
  done b w hin hw := by
    obtain ⟨w', hw', hd⟩ := h.done b w hin hw
    refine ⟨w', (hsame b).trans hw', hd.extends he.keep ?_ hseg⟩
    intro p hp hown
    apply he.agree p hp
    · rw [hown]; exact Owner.noConfusion
    · intro path
      rw [hown]
      exact Owner.noConfusion
  length := by
    have := h.length
    omega

end Copy

-- ==== the parent

/-- The state the walk starts from: parent `a` and child `c` are in
order, the parent's code is shared, and its image keeps clear of the
child's trapframe. -/
structure ForkStart (cfg : Config) (P : MappedRegion → Prop) (a c : Slot)
    (heap : Nat → Nat → Prop) (s : Kernel) (own : Nat → Owner) (fl : List Nat) :
    Prop where
  pages : Heap s own fl
  ranges : Ranges cfg s
  distinct : a ≠ c
  parent : Space cfg P s own a heap
  child : Space cfg P s own c fun _ _ => False
  total : (s.procs c).totalMappedRegion = 3
  shared : ∀ k < (s.procs a).totalMappedRegion,
    (regionAt s.mem (s.procs a).mappedInfo k).segType = SegType.code.word →
    ∀ va w, (regionAt s.mem (s.procs a).mappedInfo k).Covers va →
      leaf s.mem (s.procs a).pagetable va = some w → own (pte2pa w) = .code
  clear : ∀ k < (s.procs a).totalMappedRegion, 3 ≤ k →
    ¬ (regionAt s.mem (s.procs a).mappedInfo k).Covers (s.procs c).trapframe
  stray : cfg.tableFits = false → ∀ k < (s.procs a).totalMappedRegion, 3 ≤ k →
    ¬ (regionAt s.mem (s.procs a).mappedInfo k).Covers (kernBase + pgSize)

theorem leafPa_readable {w : Nat} (h : Readable w) :
    leafPa (some w) = pte2pa w := by
  simp only [leafPa]
  rw [if_neg]
  intro hboth
  rcases h with h | h
  · exact h hboth.1
  · exact h hboth.2

section Walk

variable (hF : ForkStart cfg P a c heap s₁ own₁ fl₁)
include hF

/-- The parent translates as it did at the start. -/
theorem ForkStart.lookup {Q : Nat → Kernel → Prop} {va w : Nat}
    (hh : Heap s own fl) (ht : Touches c s₁ own₁ s own) (hva : va < maxVa)
    (hw : leaf s₁.mem (s₁.procs a).pagetable va = some w) (hr : Readable w) :
    Wp bad E (lookupPa (s₁.procs a).pagetable va) Q s ↔ Q (pte2pa w) s := by
  have hA := hF.parent.congr hF.pages ht hF.distinct
  have hproc : s.procs a = s₁.procs a := procs_of_apart ht.apart hF.distinct
  have hT := hA.regions.tables
  rw [hproc] at hT
  have hleaf : leaf s.mem (s₁.procs a).pagetable va = some w := by
    rw [← hw]
    apply leaf_congr hF.parent.regions.tables
    intro path t htab
    have htag : (own₁ t).tag = some a.val := by
      rw [htab]
      rfl
    apply ht.agree t (hF.pages.table_aligned path t htab) (tag_used htag)
    rw [htag]
    exact fun h => hF.distinct (Fin.ext (Option.some.inj h))
  rw [wp_lookupPa hh hT hva, hleaf, leafPa_readable hr]

/-- A frame of the parent keeps its content. -/
theorem ForkStart.frame {p : Nat} (ht : Touches c s₁ own₁ s own)
    (hp : (∃ v, own₁ p = .frame a v) ∨ own₁ p = .code) :
    Agree s₁.mem s.mem p (p + 4096) := by
  have hpage : PageIn s₁ p := by
    apply hF.pages.page
    rcases hp with ⟨v, h⟩ | h
    · rw [h]; exact Owner.noConfusion
    · rw [h]; exact Owner.noConfusion
  apply ht.agree p hpage.aligned
  · rcases hp with ⟨v, h⟩ | h
    · rw [h]; exact Owner.noConfusion
    · rw [h]; exact Owner.noConfusion
  · rcases hp with ⟨v, h⟩ | h
    · rw [h]
      exact fun heq => hF.distinct (Fin.ext (Option.some.inj heq))
    · rw [h]; exact nofun

/-- One round of the loop over a code region: share the page. -/
theorem ForkStart.codePage {va j w : Nat} {infoC rootC : Nat}
    (ht₀ : Touches c s₁ own₁ s₀ own₀)
    (h : Copying cfg c rootC infoC n s₁.mem (s₁.procs a).pagetable .code va j
      (2 * j) s₀ own₀ fl₀ s own fl)
    (hal : va % pgSize = 0) (hb : va + (j + 1) * pgSize ≤ maxVa)
    (hfree : ∀ k < n, ¬ (regionAt s.mem infoC k).Covers (va + j * pgSize))
    (hstray : cfg.tableFits = false →
      (va + j * pgSize) / pgSize ≠ (kernBase + pgSize) / pgSize)
    (hw : leaf s₁.mem (s₁.procs a).pagetable (va + j * pgSize) = some w)
    (hr : Readable w) (hcode : own₁ (pte2pa w) = .code)
    (hroom : Room bad 3 fl) :
    Wp bad E (do
      let addr ← lookupPa (s₁.procs a).pagetable (u64 (va + j * pgSize))
      let _ ← mapPages rootC (u64 (va + j * pgSize)) pgSize addr
        (protToType (protWrite ||| protRead ||| protExec) true)) (fun _ s' =>
      ∃ own' fl', Copying cfg c rootC infoC n s₁.mem (s₁.procs a).pagetable .code
        va (j + 1) (2 * (j + 1)) s₀ own₀ fl₀ s' own' fl') s := by
  have ht := ht₀.trans h.ext.touches
  have hlt : va + j * pgSize < maxVa := by
    simp only [pgSize, maxVa] at hb ⊢
    omega
  have hu : u64 (va + j * pgSize) = va + j * pgSize := by
    unfold u64
    simp only [maxVa] at hlt
    omega
  have hown : own (pte2pa w) = .code := by
    rw [ht.keep]
    · exact hcode
    · rw [hcode]; exact Owner.noConfusion
    · rw [hcode]; exact nofun
  have hpage : PageIn s (pte2pa w) :=
    h.ext.pages.page _ (by rw [hown]; exact Owner.noConfusion)
  have hplt := hpage.lt h.ext.pages
  rw [wp_bind, hu, hF.lookup h.ext.pages ht hlt hw hr, wp_bind]
  apply (wp_copyPage h hal hb hfree hstray (by decide)
    (by simp only [pgSize]; omega) ?_ nofun hroom).mono
  · intro _ s' hres
    obtain ⟨own', fl', h'⟩ := hres
    exact (wp_pure _).mpr ⟨own', fl', h'⟩
  · intro w₁ hw₁
    rw [hw] at hw₁
    obtain rfl := Option.some.inj hw₁
    refine ⟨?_, ?_, ?_, ?_⟩
    · apply regionLeaf_entry hpage.aligned (by omega) (by decide) (by decide)
      · exact Or.inr hown
      · intro hk
        rcases hk with hk | hk
        · cases hk
        · cases hk
      · exact fun _ => by decide
    · exact entry_pa hpage.aligned (by omega) (by decide)
    · rw [entry_and (by decide) (by decide)]
      decide
    · rw [entry_and (by decide) (by decide)]
      decide

/-- One round of the loop over a data region: copy the page. -/
theorem ForkStart.dataPage {va j w : Nat} {infoC rootC : Nat}
    (ht₀ : Touches c s₁ own₁ s₀ own₀)
    (h : Copying cfg c rootC infoC n s₁.mem (s₁.procs a).pagetable .data va j
      (3 * j) s₀ own₀ fl₀ s own fl)
    (hal : va % pgSize = 0) (hb : va + (j + 1) * pgSize ≤ maxVa)
    (hfree : ∀ k < n, ¬ (regionAt s.mem infoC k).Covers (va + j * pgSize))
    (hstray : cfg.tableFits = false →
      (va + j * pgSize) / pgSize ≠ (kernBase + pgSize) / pgSize)
    (hw : leaf s₁.mem (s₁.procs a).pagetable (va + j * pgSize) = some w)
    (hr : Readable w) (hdata : ∃ v, own₁ (pte2pa w) = .frame a v)
    (hroom : Room bad 4 fl) :
    Wp bad E (do
      let pa ← allocPage
      let addr ← lookupPa (s₁.procs a).pagetable (u64 (va + j * pgSize))
      memcpy pa addr pgSize
      let _ ← mapPages rootC (u64 (va + j * pgSize)) pgSize pa
        (protToType (protWrite ||| protRead) true)) (fun _ s' =>
      ∃ own' fl', Copying cfg c rootC infoC n s₁.mem (s₁.procs a).pagetable .data
        va (j + 1) (3 * (j + 1)) s₀ own₀ fl₀ s' own' fl') s := by
  have ht := ht₀.trans h.ext.touches
  have hlt : va + j * pgSize < maxVa := by
    simp only [pgSize, maxVa] at hb ⊢
    omega
  have hu : u64 (va + j * pgSize) = va + j * pgSize := by
    unfold u64
    simp only [maxVa] at hlt
    omega
  rw [wp_bind, hu]
  apply wp_take (i := c) (fun _ => .frame c (va / pgSize + j))
    (fun _ => ⟨Owner.noConfusion, Or.inr rfl⟩) h.ext.pages hroom
  intro pa s₂ own₂ fl₂ h₂ room₂
  have ht₂ := ht.trans h₂.touches
  rw [wp_bind, hF.lookup h₂.pages ht₂ hlt hw hr, wp_bind]
  have htag : (own₂ pa).tag = some c.val := by
    rw [h₂.new]
    rfl
  have hpage := tag_page h₂.pages htag
  have hplt := hpage.lt h₂.pages
  have hwin : Within s₂.mem (copy s₂.mem pa (pte2pa w) pgSize) pa :=
    within_copy (Nat.le_refl _) (Nat.le_refl _)
  unfold memcpy
  apply wp_onMem h₂.pages htag hwin
  intro s₃ hr₃ hm₃ hh₃ ht₃
  rw [← hm₃] at hwin
  have he := extends_fill h.ext.pages h.regions.tables h₂ hwin hr₃ hh₃ ht₃
  have hagree : ∀ path t, own t = .table c path →
      Agree s.mem s₃.mem t (t + 4096) := by
    intro path t htab
    rw [← h₂.mem]
    apply hwin.agree (h.ext.pages.table_aligned path t htab) hpage.aligned
    intro heq
    rw [heq, h₂.was] at htab
    cases htab
  have hT₃ : Tables s₃.mem own₂ c rootC :=
    h.regions.tables.congr hagree fun path t htab =>
      h₂.kept htab Owner.noConfusion
  have hsame : ∀ b, leaf s₃.mem rootC b = leaf s.mem rootC b := fun b =>
    leaf_congr h.regions.tables hagree
  have hlen : fl.length = fl₂.length + 1 := by rw [h₂.head]; rfl
  have h₃ := h.extends he hT₃ hsame nofun (by omega)
  have hregion : ∀ k < n, regionAt s₃.mem infoC k = regionAt s.mem infoC k :=
    fun k hk => he.regionAt h.ext.pages h.regions.owner
      (Nat.lt_of_lt_of_le hk h.regions.table.count)
  rw [wp_bind]
  apply (wp_copyPage h₃ hal hb ?_ hstray (by decide) (by simp only [pgSize]; omega) ?_
    nofun room₂).mono
  · intro _ s' hres
    obtain ⟨own', fl', h'⟩ := hres
    exact (wp_pure _).mpr ⟨own', fl', h'⟩
  · intro k hk
    rw [hregion k hk]
    exact hfree k hk
  · intro w₁ hw₁
    rw [hw] at hw₁
    obtain rfl := Option.some.inj hw₁
    refine ⟨?_, ?_⟩
    · apply regionLeaf_entry hpage.aligned (by omega) (by decide) (by decide)
      · exact h₂.new
      · intro hk
        rcases hk with hk | hk
        · cases hk
        · cases hk
      · exact fun _ => by decide
    · -- the bytes copied are those of the parent at the start
      intro x hx
      rw [entry_pa hpage.aligned (by omega) (by decide), hm₃,
        copy_apply s₂.mem hx]
      exact hF.frame ht₂ (Or.inl hdata) _ (by omega) (by omega)

end Walk

-- ==== the walk

/-- The first `d` regions of the parent are duplicated. -/
structure Forked (cfg : Config) (a c : Slot) (s₁ : Kernel) (own₁ : Nat → Owner)
    (fl₁ : List Nat) (d : Nat) (s : Kernel) (own : Nat → Owner)
    (fl : List Nat) : Prop where
  pages : Heap s own fl
  touches : Touches c s₁ own₁ s own
  keep : ∀ p, own₁ p ≠ .free → own p = own₁ p
  slot : s.procs c = { s₁.procs c with totalMappedRegion := max 3 d }
  regions : Regions s.mem own c (s₁.procs c).pagetable
    (s₁.procs c).mappedInfo (max 3 d) (StrayLeaf cfg)
  fixed : ∀ k < 3, regionAt s.mem (s₁.procs c).mappedInfo k
    = regionAt s₁.mem (s₁.procs c).mappedInfo k
  copied : ∀ k, 3 ≤ k → k < d → regionAt s.mem (s₁.procs c).mappedInfo k
    = regionAt s₁.mem (s₁.procs a).mappedInfo k
  dup : ∀ k < d, ∀ seg : SegType,
    (regionAt s₁.mem (s₁.procs a).mappedInfo k).segType = seg.word →
    seg ≠ .context → seg ≠ .system → ∀ va w,
    (regionAt s₁.mem (s₁.procs a).mappedInfo k).Covers va →
    leaf s₁.mem (s₁.procs a).pagetable va = some w →
    ∃ w', leaf s.mem (s₁.procs c).pagetable va = some w' ∧
      Duplicate own c seg (va / pgSize) s₁.mem w s.mem w'
  context : 1 < d → ∀ x < tfSize, s.mem ((s₁.procs c).trapframe + x)
    = s₁.mem ((s₁.procs a).trapframe + x)
  length : fl₁.length
    ≤ fl.length + 3 * pagesUpTo s₁.mem (s₁.procs a).mappedInfo d
  suffix : fl <:+ fl₁

section Regions

variable (hF : ForkStart cfg P a c heap s₁ own₁ fl₁)
include hF

theorem ForkStart.forked : Forked cfg a c s₁ own₁ fl₁ 0 s₁ own₁ fl₁ where
  pages := hF.pages
  touches := Touches.refl c s₁ own₁
  keep _ _ := rfl
  slot := by
    have htotal := hF.total
    show s₁.procs c = { s₁.procs c with totalMappedRegion := 3 }
    rw [← htotal]
  regions := by
    have hR := hF.child.regions
    rw [hF.total] at hR
    exact hR.mono fun _ _ hv => hv.resolve_left fun h => h.1
  fixed _ _ := rfl
  copied k h3 hk := absurd hk (Nat.not_lt_zero k)
  dup k hk := absurd hk (Nat.not_lt_zero k)
  context h := absurd h (by decide)
  length := Nat.le_add_right _ _
  suffix := List.suffix_refl fl₁

/-- The regions the child starts with keep clear of the parent's image. -/
theorem ForkStart.clearOfImage {d k va : Nat} (h3 : 3 ≤ d)
    (hd : d < (s₁.procs a).totalMappedRegion) (hk : k < 3)
    (hc : (regionAt s₁.mem (s₁.procs c).mappedInfo k).Covers va) :
    ¬ (regionAt s₁.mem (s₁.procs a).mappedInfo d).Covers va := by
  intro hcd
  have hsame : regionAt s₁.mem (s₁.procs c).mappedInfo k
      = regionAt s₁.mem (s₁.procs a).mappedInfo k → False := by
    intro heq
    rw [heq] at hc
    have := hF.parent.regions.table.disjoint k (by omega) d hd va hc hcd
    omega
  have hcase : k = 0 ∨ k = 1 ∨ k = 2 := by omega
  rcases hcase with rfl | rfl | rfl
  · apply hsame
    rw [hF.child.stack, hF.parent.stack]
  · -- the child's trapframe page is its own affair
    rw [hF.child.context] at hc
    have hpage : va / 4096 = (s₁.procs c).trapframe / 4096 :=
      inPages_one.mp hc
    apply hF.clear d hd h3
    unfold MappedRegion.Covers inPages at hcd ⊢
    rw [← hpage]
    exact hcd
  · apply hsame
    rw [hF.child.system, hF.parent.system]

/-- The regions the child has so far keep clear of the next one. -/
theorem ForkStart.disjoint {d k va : Nat}
    (h : Forked cfg a c s₁ own₁ fl₁ d s own fl) (h3 : 3 ≤ d)
    (hd : d < (s₁.procs a).totalMappedRegion) (hk : k < d)
    (hc : (regionAt s.mem (s₁.procs c).mappedInfo k).Covers va) :
    ¬ (regionAt s₁.mem (s₁.procs a).mappedInfo d).Covers va := by
  by_cases hk3 : 3 ≤ k
  · intro hcd
    rw [h.copied k hk3 hk] at hc
    have := hF.parent.regions.table.disjoint k (by omega) d hd va hc hcd
    omega
  · rw [h.fixed k (by omega)] at hc
    exact hF.clearOfImage h3 hd (by omega) hc

/-- Recording a region whose pages were duplicated. -/
theorem ForkStart.record {d u : Nat} {seg : SegType} {s₂ s₃ : Kernel}
    {own₂ : Nat → Owner} {fl₂ : List Nat} {r : MappedRegion}
    (h : Forked cfg a c s₁ own₁ fl₁ d s own fl) (h3 : 3 ≤ d)
    (hd : d < (s₁.procs a).totalMappedRegion)
    (hr : regionAt s₁.mem (s₁.procs a).mappedInfo d = r)
    (hseg : r.segType = seg.word)
    (hcopy : Copying cfg c (s₁.procs c).pagetable (s₁.procs c).mappedInfo d s₁.mem
      (s₁.procs a).pagetable seg r.va r.npages u s own fl s₂ own₂ fl₂)
    (hu : u ≤ 3 * r.npages) (himage : seg = .code ∨ seg = .data)
    (hm : s₃.mem = regionStore s₂.mem (s₁.procs c).mappedInfo d r.va r.npages
      seg.word)
    (hslot : s₃.procs c = { s₁.procs c with totalMappedRegion := d + 1 })
    (hh₃ : Heap s₃ own₂ fl₂) (ht₃ : Touches c s₂ own₂ s₃ own₂) :
    Forked cfg a c s₁ own₁ fl₁ (d + 1) s₃ own₂ fl₂ := by
  have hn := hF.parent.regions.table.count
  have hdmax : d < maxRegions := Nat.lt_of_lt_of_le hd hn
  have hT := hF.parent.regions.table
  have hal := hT.aligned d hd
  have hb := hT.bounded d hd
  rw [hr] at hal hb
  have hsegsys : seg ≠ .system := by
    rcases himage with h | h
    · rw [h]; exact nofun
    · rw [h]; exact nofun
  have hinfo := hcopy.regions.owner
  have hinfoal : (s₁.procs c).mappedInfo % pgSize = 0 :=
    (tag_page (n := c) hcopy.ext.pages (by rw [hinfo]; rfl)).aligned
  have hwin : Within s₂.mem s₃.mem (s₁.procs c).mappedInfo := by
    rw [hm]
    exact within_regionStore hdmax
  -- entries of the child's table so far
  have hold : ∀ k < maxRegions, regionAt s₂.mem (s₁.procs c).mappedInfo k
      = regionAt s.mem (s₁.procs c).mappedInfo k :=
    fun k hk => hcopy.ext.regionAt h.pages h.regions.owner hk
  have hother : ∀ k < d, regionAt s₃.mem (s₁.procs c).mappedInfo k
      = regionAt s.mem (s₁.procs c).mappedInfo k := by
    intro k hk
    rw [hm, regionAt_store_ne (Nat.ne_of_lt hk), hold k (by omega)]
  have hframe : ∀ p v, p % pgSize = 0 → own₂ p = .frame c v →
      Agree s₂.mem s₃.mem p (p + 4096) := by
    intro p v hp hown
    apply hwin.agree hp hinfoal
    intro heq
    rw [heq, hinfo] at hown
    cases hown
  have hleaf : ∀ va, leaf s₃.mem (s₁.procs c).pagetable va
      = leaf s₂.mem (s₁.procs c).pagetable va := by
    intro va
    apply leaf_congr hcopy.regions.tables
    intro path t ht
    apply hwin.agree (hcopy.ext.pages.table_aligned path t ht) hinfoal
    intro heq
    rw [heq, hinfo] at ht
    cases ht
  have hframe₀ : ∀ p v, p % pgSize = 0 → own p = .frame c v →
      Agree s.mem s₂.mem p (p + 4096) := by
    intro p v hp hown
    apply hcopy.ext.agree p hp
    · rw [hown]; exact Owner.noConfusion
    · intro path
      rw [hown]
      exact Owner.noConfusion
  have hmax : max 3 (d + 1) = d + 1 := by omega
  constructor
  case pages => exact hh₃
  case touches => exact (h.touches.trans hcopy.ext.touches).trans ht₃
  case keep =>
    intro p hp
    have h₀ := h.keep p hp
    rw [hcopy.ext.keep p (by rw [h₀]; exact hp), h₀]
  case slot => rw [hmax]; exact hslot
  case regions =>
    rw [hmax, hm]
    apply hcopy.regions.record _ hdmax (Nat.le_refl d) hal hb
    · intro k hk _ va hc
      rw [hold k (by omega)] at hc
      have hno := hF.disjoint h h3 hd hk hc
      rw [hr] at hno
      exact hno
    · intro va hin
      obtain ⟨w, hw, _⟩ := hF.parent.regions.mapped d hd seg
        (by rw [hr]; exact hseg) va (by rw [hr]; exact hin)
      obtain ⟨w', hw', hd'⟩ := hcopy.done va w hin hw
      exact ⟨w', hw', hd'.region⟩
    · intro va w _ _ he hin
      rcases he with (hs | ⟨hlo, hhi⟩) | ⟨hlt, _⟩
      · exact hs
      · exact absurd ⟨hlo, hhi⟩ hin
      · exact absurd hlt (Nat.lt_irrefl d)
    · intro p hp
      rcases hp with ⟨path, hp⟩ | rfl
      · exact hcopy.ext.pages.table_aligned path p hp
      · exact hinfoal
  case fixed =>
    intro k hk
    rw [hother k (by omega)]
    exact h.fixed k hk
  case copied =>
    intro k hk3 hk
    by_cases hkd : k = d
    · rw [hkd, hm, hr]
      have hva64 : r.va < 2 ^ 64 := by
        simp only [pgSize, maxVa] at hb
        omega
      have hnp : r.npages < 2 ^ 32 := by
        simp only [pgSize, maxVa] at hb
        omega
      rw [regionAt_store_self hva64 hnp seg.word_lt, ← hseg]
    · rw [hother k (by omega)]
      exact h.copied k hk3 (by omega)
  case dup =>
    intro k hk seg' hseg' hctx hsys va w hc hw
    by_cases hkd : k = d
    · rw [hkd, hr] at hseg' hc
      have hsame : seg = seg' := segType_word_inj (hseg.symm.trans hseg')
      rw [← hsame]
      obtain ⟨w', hw', hdup⟩ := hcopy.done va w hc hw
      exact ⟨w', (hleaf va).trans hw', hdup.extends (fun _ _ => rfl)
        (fun p hp hown => hframe p _ hp hown) hsegsys⟩
    · have hklt : k < d := by omega
      obtain ⟨w', hw', hdup⟩ := h.dup k hklt seg' hseg' hctx hsys va w hc hw
      have hva : va < 2 ^ 39 :=
        Nat.lt_trans (hT.covers_lt (by omega) hc) (by decide)
      have hdup₂ := hdup.extends hcopy.ext.keep
        (fun p hp hown => hframe₀ p _ hp hown) hsys
      exact ⟨w', (hleaf va).trans (hcopy.ext.leaves va w' hva hw'),
        hdup₂.extends (fun _ _ => rfl)
          (fun p hp hown => hframe p _ hp hown) hsys⟩
  case context =>
    intro _ x hx
    have htf : own (s₁.procs c).trapframe = .frame c
        ((s₁.procs c).trapframe / pgSize) := by
      rw [h.keep _ (by rw [hF.child.trapframe]; exact Owner.noConfusion)]
      exact hF.child.trapframe
    have htfal := (tag_page (n := c) h.pages (by rw [htf]; rfl)).aligned
    simp only [tfSize] at hx
    rw [hframe _ _ htfal (hcopy.ext.kept htf Owner.noConfusion) _ (by omega)
        (by omega),
      hframe₀ _ _ htfal htf _ (by omega) (by omega)]
    exact h.context (by omega) x hx
  case length =>
    rw [pagesUpTo_succ, hr]
    have := h.length
    have := hcopy.length
    omega
  case suffix => exact hcopy.ext.suffix.trans h.suffix

/-- The parent's region table is what it was. -/
theorem ForkStart.regionAt {k : Nat} (ht : Touches c s₁ own₁ s own)
    (hk : k < maxRegions) : regionAt s.mem (s₁.procs a).mappedInfo k
      = regionAt s₁.mem (s₁.procs a).mappedInfo k := by
  have htag : (own₁ (s₁.procs a).mappedInfo).tag = some a.val := by
    rw [hF.parent.regions.owner]
    rfl
  apply regionAt_agree _ hk
  apply ht.agree _ (tag_page hF.pages htag).aligned (tag_used htag)
  rw [htag]
  exact fun h => hF.distinct (Fin.ext (Option.some.inj h))

omit hF in
/-- Nothing of the next region is duplicated yet. -/
theorem Forked.copying {d va : Nat} {seg : SegType}
    (h : Forked cfg a c s₁ own₁ fl₁ d s own fl) (h3 : 3 ≤ d) :
    Copying cfg c (s₁.procs c).pagetable (s₁.procs c).mappedInfo d s₁.mem
      (s₁.procs a).pagetable seg va 0 0 s own fl s own fl where
  ext := Extends.refl h.pages c _
  regions := by
    have hR := h.regions
    have hmax : max 3 d = d := by omega
    rw [hmax] at hR
    exact hR.mono fun _ _ hs => Or.inl hs
  done b w hin := absurd hin (not_inPages_zero va b)
  length := Nat.le_add_right _ _

section Image

variable {d : Nat} {r : MappedRegion} (h : Forked cfg a c s₁ own₁ fl₁ d s own fl)
  (h3 : 3 ≤ d) (hd : d < (s₁.procs a).totalMappedRegion)
  (hr : Pke.regionAt s₁.mem (s₁.procs a).mappedInfo d = r)
  (hroom : Room bad (3 * r.npages + 1) fl)
include h h3 hd hr

/-- The next page of the region is clear in the child. -/
theorem ForkStart.pageClear {va j u : Nat} {seg : SegType} {s₂ : Kernel}
    {own₂ : Nat → Owner} {fl₂ : List Nat} (hj : j < r.npages)
    (hcopy : Copying cfg c (s₁.procs c).pagetable (s₁.procs c).mappedInfo d s₁.mem
      (s₁.procs a).pagetable seg va j u s own fl s₂ own₂ fl₂) :
    ∀ k < d, ¬ (Pke.regionAt s₂.mem (s₁.procs c).mappedInfo k).Covers
      (r.va + j * pgSize) := by
  intro k hk hc
  have hal := hF.parent.regions.table.aligned d hd
  have hcount := hF.parent.regions.table.count
  rw [hcopy.ext.regionAt h.pages h.regions.owner (by omega)] at hc
  apply hF.disjoint h h3 hd hk hc
  rw [hr] at hal ⊢
  exact inPages_add hal hj

omit h in
/-- It is not the page of the stray leaf. -/
theorem ForkStart.pageStray {j : Nat} (hj : j < r.npages)
    (hfits : cfg.tableFits = false) :
    (r.va + j * pgSize) / pgSize ≠ (kernBase + pgSize) / pgSize := by
  intro hpage
  have hal := hF.parent.regions.table.aligned d hd
  refine hF.stray hfits d hd h3 ?_
  rw [hr] at hal ⊢
  have hin : inPages r.va r.npages (r.va + j * pgSize) := inPages_add hal hj
  unfold MappedRegion.Covers inPages at hin ⊢
  simp only [pgSize] at hin hpage
  rw [← hpage]
  exact hin

omit h h3 in
/-- The parent's leaf at a page of the region. -/
theorem ForkStart.pageLeaf {j : Nat} {seg : SegType}
    (hseg : r.segType = seg.word) (hj : j < r.npages) :
    ∃ w, leaf s₁.mem (s₁.procs a).pagetable (r.va + j * pgSize) = some w ∧
      RegionLeaf own₁ a seg ((r.va + j * pgSize) / pgSize) w ∧
      (seg = .code → own₁ (pte2pa w) = .code) := by
  have hal := hF.parent.regions.table.aligned d hd
  rw [hr] at hal
  have hc : (Pke.regionAt s₁.mem (s₁.procs a).mappedInfo d).Covers
      (r.va + j * pgSize) := by
    rw [hr]
    exact inPages_add hal hj
  obtain ⟨w, hw, hl⟩ := hF.parent.regions.mapped d hd seg
    (by rw [hr]; exact hseg) _ hc
  refine ⟨w, hw, hl, ?_⟩
  intro hcode
  exact hF.shared d hd (by rw [hr, hseg, hcode]) _ w hc hw

include hroom

/-- The loop over the pages of a code region. -/
theorem ForkStart.codeLoop (hseg : r.segType = SegType.code.word) :
    Wp bad E ((List.range r.npages).forM fun j => do
      let addr ← lookupPa (s₁.procs a).pagetable (u64 (r.va + j * pgSize))
      let _ ← mapPages (s₁.procs c).pagetable (u64 (r.va + j * pgSize)) pgSize
        addr (protToType (protWrite ||| protRead ||| protExec) true))
      (fun _ s' => ∃ own' fl', Copying cfg c (s₁.procs c).pagetable
        (s₁.procs c).mappedInfo d s₁.mem (s₁.procs a).pagetable .code r.va
        r.npages (2 * r.npages) s own fl s' own' fl') s := by
  have hal := hF.parent.regions.table.aligned d hd
  have hb := hF.parent.regions.table.bounded d hd
  rw [hr] at hal hb
  apply wp_forRange (fun j s' => ∃ own' fl', Copying cfg c (s₁.procs c).pagetable
    (s₁.procs c).mappedInfo d s₁.mem (s₁.procs a).pagetable .code r.va j
    (2 * j) s own fl s' own' fl')
  · exact ⟨own, fl, h.copying h3⟩
  · intro j hj s₂ hI
    obtain ⟨own₂, fl₂, hcopy⟩ := hI
    obtain ⟨w, hw, hl, hcode⟩ := hF.pageLeaf hd hr hseg hj
    apply hF.codePage h.touches hcopy hal _
      (hF.pageClear h h3 hd hr hj hcopy) (hF.pageStray h3 hd hr hj) hw hl.readable (hcode rfl)
    · exact hroom.less (by have := hcopy.length; omega)
    · exact Nat.le_trans
        (Nat.add_le_add_left (Nat.mul_le_mul_right pgSize hj) _) hb

/-- The loop over the pages of a data region. -/
theorem ForkStart.dataLoop (hseg : r.segType = SegType.data.word) :
    Wp bad E ((List.range r.npages).forM fun j => do
      let pa ← allocPage
      let addr ← lookupPa (s₁.procs a).pagetable (u64 (r.va + j * pgSize))
      memcpy pa addr pgSize
      let _ ← mapPages (s₁.procs c).pagetable (u64 (r.va + j * pgSize)) pgSize
        pa (protToType (protWrite ||| protRead) true))
      (fun _ s' => ∃ own' fl', Copying cfg c (s₁.procs c).pagetable
        (s₁.procs c).mappedInfo d s₁.mem (s₁.procs a).pagetable .data r.va
        r.npages (3 * r.npages) s own fl s' own' fl') s := by
  have hal := hF.parent.regions.table.aligned d hd
  have hb := hF.parent.regions.table.bounded d hd
  rw [hr] at hal hb
  apply wp_forRange (fun j s' => ∃ own' fl', Copying cfg c (s₁.procs c).pagetable
    (s₁.procs c).mappedInfo d s₁.mem (s₁.procs a).pagetable .data r.va j
    (3 * j) s own fl s' own' fl')
  · exact ⟨own, fl, h.copying h3⟩
  · intro j hj s₂ hI
    obtain ⟨own₂, fl₂, hcopy⟩ := hI
    obtain ⟨w, hw, hl, _⟩ := hF.pageLeaf hd hr hseg hj
    apply hF.dataPage h.touches hcopy hal _
      (hF.pageClear h h3 hd hr hj hcopy) (hF.pageStray h3 hd hr hj) hw hl.readable ⟨_, hl.owner⟩
    · exact hroom.less (by have := hcopy.length; omega)
    · exact Nat.le_trans
        (Nat.add_le_add_left (Nat.mul_le_mul_right pgSize hj) _) hb

omit hroom in
/-- The end of both cases: the region goes into the child's table. -/
theorem ForkStart.recordRegion {u : Nat} {seg : SegType} {s₂ : Kernel}
    {own₂ : Nat → Owner} {fl₂ : List Nat} (hseg : r.segType = seg.word)
    (hcopy : Copying cfg c (s₁.procs c).pagetable (s₁.procs c).mappedInfo d s₁.mem
      (s₁.procs a).pagetable seg r.va r.npages u s own fl s₂ own₂ fl₂)
    (hu : u ≤ 3 * r.npages) (himage : seg = .code ∨ seg = .data) :
    Wp bad E (recordRegion c r.va r.npages seg) (fun _ s' => ∃ own' fl',
      Forked cfg a c s₁ own₁ fl₁ (d + 1) s' own' fl') s₂ := by
  have hcount := hF.parent.regions.table.count
  have hmax : max 3 d = d := by omega
  have hslot : s₂.procs c = { s₁.procs c with totalMappedRegion := d } := by
    rw [procs_eq hcopy.ext.rest, h.slot, hmax]
  have htag : (own₂ (s₁.procs c).mappedInfo).tag = some c.val := by
    rw [hcopy.regions.owner]
    rfl
  have hal := (tag_page hcopy.ext.pages htag).aligned
  unfold Pke.recordRegion
  rw [wp_bind, wp_proc, wp_bind, hslot, wp_setRegion]
  have hw : Within s₂.mem (regionStore s₂.mem (s₁.procs c).mappedInfo d r.va
      r.npages seg.word) (s₁.procs c).mappedInfo :=
    within_regionStore (by omega)
  apply wp_setProc (hcopy.ext.pages.within hal (tag_used htag) hw)
  intro s₃ hp hm hh ht
  refine ⟨own₂, fl₂, hF.record h h3 hd hr hseg hcopy hu himage hm ?_ hh ?_⟩
  · exact hp.trans (congrArg (fun q : Process =>
      { q with totalMappedRegion := q.totalMappedRegion + 1 }) hslot)
  · exact (touches_within hal htag hw).trans ht

end Image

omit hF in
/-- Writing to a frame of the child, while it has its three first
regions only. -/
theorem Forked.fill {d p v : Nat} (h : Forked cfg a c s₁ own₁ fl₁ d s own fl)
    (hd : d < 3) (hp : own p = .frame c v) (hw : Within s.mem s'.mem p)
    (hr : s'.rest = s.rest) (hh : Heap s' own fl)
    (ht : Touches c s own s' own)
    (hdup : ∀ k < d + 1, ∀ seg : SegType,
      (Pke.regionAt s₁.mem (s₁.procs a).mappedInfo k).segType = seg.word →
      seg ≠ .context → seg ≠ .system → ∀ va w,
      (Pke.regionAt s₁.mem (s₁.procs a).mappedInfo k).Covers va →
      leaf s₁.mem (s₁.procs a).pagetable va = some w →
      ∃ w', leaf s.mem (s₁.procs c).pagetable va = some w' ∧
        Duplicate own c seg (va / pgSize) s₁.mem w s'.mem w')
    (hctx : 1 < d + 1 → ∀ x < tfSize, s'.mem ((s₁.procs c).trapframe + x)
      = s₁.mem ((s₁.procs a).trapframe + x)) :
    Forked cfg a c s₁ own₁ fl₁ (d + 1) s' own fl := by
  have hmax : max 3 (d + 1) = max 3 d := by omega
  have hpal : p % pgSize = 0 :=
    (tag_page (n := c) h.pages (by rw [hp]; rfl)).aligned
  have htable : ∀ path t, own t = .table c path →
      Agree s.mem s'.mem t (t + 4096) := by
    intro path t htab
    apply hw.agree (h.pages.table_aligned path t htab) hpal
    intro heq
    rw [heq, hp] at htab
    cases htab
  have hinfo := h.regions.owner
  have hreg : Agree s.mem s'.mem (s₁.procs c).mappedInfo
      ((s₁.procs c).mappedInfo + 4096) := by
    apply hw.agree _ hpal
    · intro heq
      rw [heq, hp] at hinfo
      cases hinfo
    · exact (tag_page (n := c) h.pages (by rw [hinfo]; rfl)).aligned
  constructor
  case pages => exact hh
  case touches => exact h.touches.trans ht
  case keep => exact h.keep
  case slot => rw [procs_eq hr, hmax]; exact h.slot
  case regions =>
    rw [hmax]
    exact h.regions.congr (fun _ _ => rfl)
      (fun path t htab => ⟨htab, htable path t htab⟩) ⟨hinfo, hreg⟩
      fun _ _ hf => hf
  case fixed =>
    intro k hk
    rw [regionAt_agree hreg (Nat.lt_trans hk (by decide))]
    exact h.fixed k hk
  case copied =>
    intro k h3 hk
    omega
  case dup =>
    intro k hk seg hseg hc hs va w hcov hleaf
    obtain ⟨w', hw', hdup'⟩ := hdup k hk seg hseg hc hs va w hcov hleaf
    exact ⟨w', (leaf_congr h.regions.tables htable).trans hw', hdup'⟩
  case context => exact hctx
  case length =>
    have := h.length
    have := pagesUpTo_mono s₁.mem (s₁.procs a).mappedInfo
      (Nat.le_succ d)
    simp only [Nat.succ_eq_add_one] at this
    omega
  case suffix => exact h.suffix

omit hF in
/-- The page of the user stack. -/
theorem Space.stackLeaf {P' : MappedRegion → Prop} {heap' : Nat → Nat → Prop}
    (hS : Space cfg P' s own i heap') {va : Nat}
    (hc : (Pke.regionAt s.mem (s.procs i).mappedInfo 0).Covers va) :
    ∃ w, leaf s.mem (s.procs i).pagetable va = some w ∧
      leaf s.mem (s.procs i).pagetable (userStackTop - pgSize) = some w ∧
      RegionLeaf own i .stack (va / pgSize) w := by
  have h3 := hS.three
  have hva := hS.regions.table.covers_lt (by omega) hc
  obtain ⟨w, hw, hl⟩ := hS.regions.mapped 0 (by omega) .stack
    (congrArg MappedRegion.segType hS.stack) va hc
  refine ⟨w, hw, ?_, hl⟩
  rw [← hw]
  apply leaf_page (Nat.lt_trans hva (by decide)) (by decide)
  exact ((covers_one hS.stack).mp hc).symm

/-- Region 0 of a process is its stack. -/
theorem ForkStart.stackStep (h : Forked cfg a c s₁ own₁ fl₁ 0 s own fl) :
    Wp bad E (forkRegion a c ⟨userStackTop - pgSize, 1, SegType.stack.word⟩)
      (fun _ s' => ∃ own' fl', Forked cfg a c s₁ own₁ fl₁ 1 s' own' fl') s := by
  have hprocA : s.procs a = s₁.procs a :=
    procs_of_apart h.touches.apart hF.distinct
  have hstack : (Pke.regionAt s₁.mem (s₁.procs a).mappedInfo 0).Covers
      (userStackTop - pgSize) := by
    rw [hF.parent.stack]
    exact inPages_one.mpr rfl
  obtain ⟨w, hw, _, hl⟩ := hF.parent.stackLeaf hstack
  -- the child's stack, as it is now
  have hregC := (h.fixed 0 (by decide)).trans hF.child.stack
  obtain ⟨w', hw', hl'⟩ := h.regions.mapped 0 (by decide) .stack
    (congrArg MappedRegion.segType hregC) (userStackTop - pgSize)
    (by rw [hregC]; exact inPages_one.mpr rfl)
  have htag : (own (pte2pa w')).tag = some c.val := by
    rw [hl'.owner]
    rfl
  unfold forkRegion
  rw [SegType.ofWord_word]
  simp only [wp_bind, wp_proc, wp_getRegion]
  rw [h.slot, hprocA]
  simp only [hregC]
  rw [wp_lookupPa h.pages h.regions.tables (by decide), hw',
    leafPa_readable hl'.readable,
    hF.lookup h.pages h.touches (by decide) hw hl.readable]
  have hwin : Within s.mem (copy s.mem (pte2pa w') (pte2pa w) pgSize)
      (pte2pa w') := within_copy (Nat.le_refl _) (Nat.le_refl _)
  unfold memcpy
  apply wp_onMem h.pages htag hwin
  intro s₂ hr₂ hm₂ hh₂ ht₂
  rw [← hm₂] at hwin
  refine ⟨own, fl, h.fill (by decide) hl'.owner hwin hr₂ hh₂ ht₂ ?_ ?_⟩
  · intro k hk seg hseg _ _ va u hc hu
    obtain rfl : k = 0 := by omega
    have hsame : seg = .stack := by
      rw [hF.parent.stack] at hseg
      exact segType_word_inj hseg.symm
    obtain ⟨u', hu', huw, _⟩ := hF.parent.stackLeaf hc
    rw [hw] at huw
    rw [hu] at hu'
    obtain rfl := Option.some.inj hu'
    obtain rfl := Option.some.inj huw
    have hpage : va / 4096 = (userStackTop - pgSize) / 4096 :=
      (covers_one hF.parent.stack).mp hc
    have hva : va < 2 ^ 39 := Nat.lt_trans
      (hF.parent.regions.table.covers_lt
        (Nat.lt_of_lt_of_le (by decide) hF.parent.three) hc) (by decide)
    refine ⟨w', ?_, ?_, ?_⟩
    · rw [← hw']
      exact leaf_page (by decide) hva hpage
    · rw [hsame]
      have hpage' : va / pgSize = (userStackTop - pgSize) / pgSize := hpage
      rw [hpage']
      exact hl'
    · rw [hsame]
      intro x hx
      rw [hm₂, copy_apply s.mem hx]
      exact hF.frame h.touches (Or.inl ⟨_, hl.owner⟩) _ (by omega) (by omega)
  · intro hlt
    omega

/-- Region 1 of a process is its trapframe. -/
theorem ForkStart.contextStep (h : Forked cfg a c s₁ own₁ fl₁ 1 s own fl) :
    Wp bad E (forkRegion a c
        ⟨(s₁.procs a).trapframe, 1, SegType.context.word⟩)
      (fun _ s' => ∃ own' fl', Forked cfg a c s₁ own₁ fl₁ 2 s' own' fl') s := by
  have hprocA : s.procs a = s₁.procs a :=
    procs_of_apart h.touches.apart hF.distinct
  have htf : own (s₁.procs c).trapframe
      = .frame c ((s₁.procs c).trapframe / pgSize) := by
    rw [h.keep _ (by rw [hF.child.trapframe]; exact Owner.noConfusion)]
    exact hF.child.trapframe
  have htag : (own (s₁.procs c).trapframe).tag = some c.val := by
    rw [htf]
    rfl
  have hal := (tag_page h.pages htag).aligned
  unfold forkRegion
  rw [SegType.ofWord_word]
  simp only [wp_bind, wp_proc]
  rw [h.slot, hprocA]
  have hwin : Within s.mem (copy s.mem (s₁.procs c).trapframe
      (s₁.procs a).trapframe tfSize) (s₁.procs c).trapframe :=
    within_copy (Nat.le_refl _) (by simp only [tfSize]; omega)
  unfold memcpy
  apply wp_onMem h.pages htag hwin
  intro s₂ hr₂ hm₂ hh₂ ht₂
  rw [← hm₂] at hwin
  refine ⟨own, fl, h.fill (by decide) htf hwin hr₂ hh₂ ht₂ ?_ ?_⟩
  · intro k hk seg hseg hctx hsys va u hc hu
    have hk0 : k = 0 := by
      by_contra hne
      obtain rfl : k = 1 := by omega
      rw [hF.parent.context] at hseg
      exact hctx (segType_word_inj hseg.symm)
    subst hk0
    obtain ⟨u', hu', hdup⟩ := h.dup 0 (by decide) seg hseg hctx hsys va u hc hu
    refine ⟨u', hu', hdup.extends (fun _ _ => rfl) ?_ hsys⟩
    -- the stack is another page
    intro p hp hown
    apply hwin.agree hp hal
    intro heq
    rw [heq, htf] at hown
    have hpage := (Owner.frame.inj hown).2
    have hone : (0 : Nat) = 1 := by
      apply hF.child.regions.table.disjoint 0
        (by rw [hF.total]; decide) 1 (by rw [hF.total]; decide) va
      · rw [hF.child.stack]
        rw [hF.parent.stack] at hc
        exact hc
      · rw [hF.child.context]
        exact inPages_one.mpr hpage.symm
    exact absurd hone (by decide)
  · intro _ x hx
    have hown := hF.parent.trapframe
    simp only [tfSize] at hx
    rw [hm₂, copy_apply s.mem (by simp only [tfSize]; omega)]
    exact hF.frame h.touches (Or.inl ⟨_, hown⟩) _ (by omega) (by omega)

omit hF in
/-- The walk passes over region 2, the trap section. -/
theorem Forked.systemStep (h : Forked cfg a c s₁ own₁ fl₁ 2 s own fl)
    (hseg : (Pke.regionAt s₁.mem (s₁.procs a).mappedInfo 2).segType
      = SegType.system.word) : Forked cfg a c s₁ own₁ fl₁ 3 s own fl :=
  { h with
    slot := h.slot
    regions := h.regions
    copied := fun k h3 hk => absurd hk (Nat.not_lt.mpr h3)
    dup := by
      intro k hk seg hs hctx hsys va w hc hw
      have hlt : k < 2 := by
        by_contra hne
        obtain rfl : k = 2 := by omega
        rw [hseg] at hs
        exact hsys (segType_word_inj hs.symm)
      exact h.dup k hlt seg hs hctx hsys va w hc hw
    context := fun _ => h.context (by decide)
    length := by
      have := h.length
      have := pagesUpTo_mono s₁.mem (s₁.procs a).mappedInfo
        (show 2 ≤ 3 by decide)
      omega }

/-- One region. -/
theorem ForkStart.step {d : Nat} (h : Forked cfg a c s₁ own₁ fl₁ d s own fl)
    (hd : d < (s₁.procs a).totalMappedRegion)
    (hroom : Room bad (3 * pagesUpTo s₁.mem (s₁.procs a).mappedInfo
      (s₁.procs a).totalMappedRegion + 1) fl₁) :
    Wp bad E (forkRegion a c
        (Pke.regionAt s₁.mem (s₁.procs a).mappedInfo d)) (fun _ s' =>
      ∃ own' fl', Forked cfg a c s₁ own₁ fl₁ (d + 1) s' own' fl') s := by
  have hprocA : s.procs a = s₁.procs a :=
    procs_of_apart h.touches.apart hF.distinct
  by_cases h3 : 3 ≤ d
  · have hroom' : Room bad (3 * (Pke.regionAt s₁.mem (s₁.procs a).mappedInfo
        d).npages + 1) fl := by
      apply hroom.less
      have := h.length
      have := pagesUpTo_mono s₁.mem (s₁.procs a).mappedInfo
        (Nat.succ_le_of_lt hd)
      rw [Nat.succ_eq_add_one, pagesUpTo_succ] at this
      omega
    have hmax : max 3 d = d := by omega
    unfold forkRegion
    rcases (hF.parent.image d h3 hd).1 with hseg | hseg
    · rw [hseg, SegType.ofWord_word]
      simp only [wp_bind, wp_proc]
      rw [h.slot, hprocA]
      apply (hF.codeLoop h h3 hd rfl hroom' hseg).mono
      intro _ s₂ hres
      obtain ⟨own₂, fl₂, hcopy⟩ := hres
      exact hF.recordRegion h h3 hd rfl hseg hcopy (by omega) (Or.inl rfl)
    · rw [hseg, SegType.ofWord_word]
      simp only [wp_bind, wp_proc]
      rw [h.slot, hprocA]
      apply (hF.dataLoop h h3 hd rfl hroom' hseg).mono
      intro _ s₂ hres
      obtain ⟨own₂, fl₂, hcopy⟩ := hres
      exact hF.recordRegion h h3 hd rfl hseg hcopy (Nat.le_refl _) (Or.inr rfl)
  · have hcase : d = 0 ∨ d = 1 ∨ d = 2 := by omega
    rcases hcase with rfl | rfl | rfl
    · rw [hF.parent.stack]
      exact hF.stackStep h
    · rw [hF.parent.context]
      exact hF.contextStep h
    · have hsys := hF.parent.system
      rw [hsys]
      unfold forkRegion
      rw [SegType.ofWord_word]
      exact (wp_pure _).mpr ⟨own, fl,
        h.systemStep (congrArg MappedRegion.segType hsys)⟩

/-- The loop of `do_fork`. -/
theorem ForkStart.walk
    (hroom : Room bad (3 * pagesUpTo s₁.mem (s₁.procs a).mappedInfo
      (s₁.procs a).totalMappedRegion + 1) fl₁) :
    Wp bad E ((List.range (s₁.procs a).totalMappedRegion).forM fun k => do
        let r ← getRegion (s₁.procs a).mappedInfo k
        forkRegion a c r) (fun _ s' => ∃ own' fl',
      Forked cfg a c s₁ own₁ fl₁ (s₁.procs a).totalMappedRegion s' own' fl') s₁ := by
  have hcount := hF.parent.regions.table.count
  apply wp_forRange (fun d s' => ∃ own' fl',
    Forked cfg a c s₁ own₁ fl₁ d s' own' fl') ⟨own₁, fl₁, hF.forked⟩
  intro d hd s₂ hI
  obtain ⟨own₂, fl₂, h⟩ := hI
  rw [wp_bind, wp_getRegion, hF.regionAt h.touches (by omega)]
  exact hF.step h hd hroom

end Regions

end Pke
