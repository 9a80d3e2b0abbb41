/-
Building an address space: `alloc_process` and `realloc_process`.

Both take fresh pages for a trapframe, a root table and a user stack and
then map and record the three regions every process starts with. The
pages are taken one at a time (`Took`), each with the owner it will
keep; what is known of a page in use is never lost on the way, because
an allocation relabels a free page and a write stays in its page.

# Enough pages

`Room bad n fl` is how the specifications say that `alloc_page` does not
return NULL: the list holds `n` pages, or a NULL is one of the `bad`
events of the run.
-/
import Pke.Proofs.Space

namespace Pke

open ByteMem Traced

variable {α : Type} {bad : Event → Prop} {E : Halt → Kernel → Prop}
variable {cfg : Config} {P : MappedRegion → Prop} {s s' s₁ s₂ : Kernel}
variable {own own' own₁ : Nat → Owner}
variable {fl fl' : List Nat} {i : Slot} {n p q : Nat}

-- ==== room

/-- `n` allocations succeed, or a failing one is `bad`. -/
def Room (bad : Event → Prop) (n : Nat) (fl : List Nat) : Prop :=
  n ≤ fl.length ∨ bad (.alloc 0)

theorem Room.less {k : Nat} (h : Room bad n fl)
    (hlen : fl.length + k ≤ fl'.length + n) : Room bad k fl' :=
  h.imp_left fun hn => by omega

-- ==== the kernel's own steps

@[simp] theorem wp_proc {Q : Process → Kernel → Prop} :
    Wp bad E (proc i) Q s ↔ Q (s.procs i) s := by
  simp only [proc, wp_bind, wp_get, wp_pure]

@[simp] theorem wp_getRegion {base j : Nat} {Q : MappedRegion → Kernel → Prop} :
    Wp bad E (getRegion base j) Q s ↔ Q (regionAt s.mem base j) s := by
  simp only [getRegion, wp_bind, wp_get, wp_pure]

/-- A write inside a page of the slot. -/
theorem wp_onMem {f : Mem → Mem} {Q : Unit → Kernel → Prop}
    (hh : Heap s own fl) (ht : (own q).tag = some i.val)
    (hw : Within s.mem (f s.mem) q)
    (hok : ∀ s', s'.rest = s.rest → s'.mem = f s.mem → Heap s' own fl →
      Touches i s own s' own → Q () s') : Wp bad E (onMem f) Q s := by
  have hal := (tag_page hh ht).aligned
  unfold onMem
  rw [wp_modify]
  exact hok _ rfl rfl (hh.within hal (tag_used ht) hw)
    (touches_within hal ht hw)

theorem Heap.congr (hh : Heap s own fl)
    (hlo : s'.freeMemStartAddr = s.freeMemStartAddr)
    (hhi : s'.freeMemEndAddr = s.freeMemEndAddr) (hm : s'.mem = s.mem)
    (hhead : s'.gFreeMemList = s.gFreeMemList) : Heap s' own fl := by
  have hpage : ∀ p, PageIn s p → PageIn s' p := by
    intro p hp
    refine ⟨hp.aligned, ?_, ?_⟩
    · rw [hlo]; exact hp.lo
    · rw [hhi]; exact hp.hi
  refine ⟨⟨?_, ?_, ?_, ?_⟩, hh.free, fun p hp => hpage p (hh.page p hp)⟩
  · unfold FreeList
    rw [hm, hhead]
    exact hh.pool.chain
  · exact fun p hp => hpage p (hh.pool.page p hp)
  · rw [hlo]; exact hh.pool.start_pos
  · rw [hhi]; exact hh.pool.end_le

/-- A write to the fields of the slot. -/
theorem wp_setProc {f : Process → Process} {Q : Unit → Kernel → Prop}
    (hh : Heap s own fl)
    (hok : ∀ s', s'.procs i = f (s.procs i) → s'.mem = s.mem →
      Heap s' own fl → Touches i s own s' own → Q () s') :
    Wp bad E (setProc i f) Q s := by
  unfold setProc
  rw [wp_modify]
  apply hok
  · exact Function.update_self ..
  · rfl
  · exact hh.congr rfl rfl rfl rfl
  · exact touches_setProc

/-- Page accounts are no part of the bookkeeping. -/
theorem wp_setAcct {f : Account → Account} {Q : Unit → Kernel → Prop}
    (hh : Heap s own fl)
    (hok : ∀ s', s'.rest = s.rest → s'.mem = s.mem → Heap s' own fl →
      Touches i s own s' own → Q () s') : Wp bad E (setAcct i f) Q s := by
  unfold setAcct
  rw [wp_modify]
  apply hok
  · rfl
  · rfl
  · exact hh.congr rfl rfl rfl rfl
  · exact ⟨rfl, fun _ _ _ => rfl, fun p _ _ _ => Agree.refl s.mem p _,
      fun _ h => h.imp id Or.inr⟩

/-- Page `p` was taken from the free list for the slot, as `o`. -/
structure Took (i : Slot) (p : Nat) (o : Owner)
    (s : Kernel) (own : Nat → Owner) (fl : List Nat)
    (s' : Kernel) (own' : Nat → Owner) (fl' : List Nat) : Prop where
  rest : s'.rest = s.rest
  mem : s'.mem = s.mem
  pages : Heap s' own' fl'
  touches : Touches i s own s' own'
  head : fl = p :: fl'
  was : own p = .free
  new : own' p = o
  keep : ∀ q, own q ≠ .free → own' q = own q

theorem Took.kept {o o' : Owner} (h : Took i p o s own fl s' own' fl')
    (hq : own q = o') (ho : o' ≠ .free) : own' q = o' := by
  rw [h.keep q (by rw [hq]; exact ho)]
  exact hq

/-- `alloc_page` for the slot. -/
theorem wp_take {Q : Nat → Kernel → Prop} (o : Nat → Owner)
    (ho : ∀ p, o p ≠ .free ∧ (o p = .held ∨ (o p).tag = some i.val))
    (hh : Heap s own fl) (hroom : Room bad (n + 1) fl)
    (hok : ∀ p s' own' fl', Took i p (o p) s own fl s' own' fl' →
      Room bad n fl' → Q p s') : Wp bad E allocPage Q s := by
  apply wp_alloc hh
  · intro s' hnil hb _ _ _
    rcases hroom with h | h
    · rw [hnil] at h
      exact absurd h (Nat.not_succ_le_zero n)
    · exact absurd h hb
  · intro p t s' hfl hr hm hnew
    have hfree : own p = .free := by
      apply (hh.free p).mpr
      rw [hfl]
      exact List.mem_cons_self ..
    apply hok p s' (Function.update own p (o p)) t
    · refine ⟨hr, hm, hnew _ (ho p).1, touches_alloc hr hm hfree (ho p).2, hfl,
        hfree, Function.update_self .., ?_⟩
      intro q hq
      rw [Function.update_of_ne]
      intro hqp
      rw [hqp] at hq
      exact hq hfree
    · apply hroom.less
      rw [hfl, List.length_cons]
      omega

/-- Page `p` was taken for the slot, noted in it by `f` and zeroed up to
`len`; no other page was written. -/
structure Claimed (i : Slot) (p : Nat) (o : Owner) (f : Process → Process)
    (len : Nat) (s : Kernel) (own : Nat → Owner) (fl : List Nat)
    (s' : Kernel) (own' : Nat → Owner) (fl' : List Nat) : Prop where
  head : fl = p :: fl'
  slot : s'.procs i = f (s.procs i)
  pages : Heap s' own' fl'
  touches : Touches i s own s' own'
  was : own p = .free
  new : own' p = o
  zero : ∀ x, p ≤ x → x < p + len → s'.mem x = 0
  keep : ∀ q, own q ≠ .free → own' q = own q
  others : ∀ q, q % pgSize = 0 → q ≠ p → Agree s.mem s'.mem q (q + 4096)

/-- Nothing in use was written. -/
theorem Claimed.agree {o : Owner} {f : Process → Process} {len : Nat}
    (h : Claimed i p o f len s own fl s' own' fl') (hal : q % pgSize = 0)
    (hused : own q ≠ .free) : Agree s.mem s'.mem q (q + 4096) := by
  apply h.others q hal
  intro hqp
  rw [hqp] at hused
  exact hused h.was

theorem Claimed.kept {o o' : Owner} {f : Process → Process} {len : Nat}
    (h : Claimed i p o f len s own fl s' own' fl') (hq : own q = o')
    (ho : o' ≠ .free) : own' q = o' := by
  rw [h.keep q (by rw [hq]; exact ho)]
  exact hq

/-- Take a page and note it. -/
theorem wp_claim {o : Nat → Owner} {f : Nat → Process → Process}
    {next : Nat → K α} {Q : α → Kernel → Prop}
    (ho : ∀ p, o p ≠ .free ∧ (o p).tag = some i.val)
    (hh : Heap s own fl) (hroom : Room bad (n + 1) fl)
    (hnext : ∀ p s' own' fl', Claimed i p (o p) (f p) 0 s own fl s' own' fl' →
      Room bad n fl' → Wp bad E (next p) Q s') :
    Wp bad E (do
      let p ← allocPage
      setProc i (f p)
      next p) Q s := by
  rw [wp_bind]
  apply wp_take o (fun p => ⟨(ho p).1, Or.inr (ho p).2⟩) hh hroom
  intro p s₁ own₁ fl₁ h₁ hroom₁
  rw [wp_bind]
  apply wp_setProc h₁.pages
  intro s₂ hp hm hh₂ ht₂
  apply hnext p s₂ own₁ fl₁ _ hroom₁
  refine ⟨h₁.head, ?_, hh₂, h₁.touches.trans ht₂, h₁.was, h₁.new, ?_,
    h₁.keep, ?_⟩
  · rw [hp, procs_eq h₁.rest]
  · intro x hlo hhi
    omega
  · intro q _ _
    rw [hm, h₁.mem]
    exact Agree.refl s.mem q (q + 4096)

/-- Take a page, note it and zero its first `len` bytes. -/
theorem wp_claimZero {o : Nat → Owner} {f : Nat → Process → Process}
    {len : Nat} {next : Nat → K α} {Q : α → Kernel → Prop}
    (hlen : len ≤ 4096) (ho : ∀ p, o p ≠ .free ∧ (o p).tag = some i.val)
    (hh : Heap s own fl) (hroom : Room bad (n + 1) fl)
    (hnext : ∀ p s' own' fl', Claimed i p (o p) (f p) len s own fl s' own' fl' →
      Room bad n fl' → Wp bad E (next p) Q s') :
    Wp bad E (do
      let p ← allocPage
      setProc i (f p)
      memset p 0 len
      next p) Q s := by
  apply wp_claim ho hh hroom
  intro p s₁ own₁ fl₁ h₁ hroom₁
  have htag : (own₁ p).tag = some i.val := by
    rw [h₁.new]
    exact (ho p).2
  have hw : Within s₁.mem (fill s₁.mem p 0 len) p :=
    within_fill (Nat.le_refl _) (by omega)
  rw [wp_bind]
  unfold memset
  apply wp_onMem h₁.pages htag hw
  intro s₂ hr hm hh₂ ht₂
  apply hnext p s₂ own₁ fl₁ _ hroom₁
  refine ⟨h₁.head, ?_, hh₂, h₁.touches.trans ht₂, h₁.was, h₁.new, ?_,
    h₁.keep, ?_⟩
  · rw [procs_eq hr]
    exact h₁.slot
  · intro x hlo hhi
    rw [hm]
    unfold fill
    rw [if_pos ⟨hlo, hhi⟩]
  · intro q hq hqp
    apply (h₁.others q hq hqp).trans
    rw [hm]
    exact hw.agree hq (tag_page h₁.pages htag).aligned hqp

-- ==== entries

variable {pa perm va k : Nat}

theorem entry_pa (hal : pa % pgSize = 0) (hlt : pa < 2 ^ 64)
    (hperm : perm < 1024) : pte2pa (pa2pte pa ||| perm ||| pteV) = pa := by
  rw [Nat.or_assoc]
  exact pte2pa_or hal hlt (Nat.or_lt_two_pow hperm (by decide : 1 < 2 ^ 10))

theorem entry_and (hperm : perm < 1024) (hk : k < 1024) :
    (pa2pte pa ||| perm ||| pteV) &&& k = (perm ||| pteV) &&& k := by
  rw [Nat.or_assoc]
  exact pa2pte_or_and (Nat.or_lt_two_pow hperm (by decide : 1 < 2 ^ 10)) hk

/-- The leaf a mapping makes, as the leaf of a segment. -/
theorem regionLeaf_entry {seg : SegType} {v : Nat} (hal : pa % pgSize = 0)
    (hlt : pa < 2 ^ 64) (hperm : perm < 1024)
    (hread : (perm ||| pteV) &&& pteR ≠ 0) (hown : seg.Holds i v (own pa))
    (hker : seg = .context ∨ seg = .system →
      pa = v * pgSize ∧ (perm ||| pteV) &&& pteU = 0)
    (huser : ¬ (seg = .context ∨ seg = .system) → UserWritable (perm ||| pteV)) :
    RegionLeaf own i seg v (pa2pte pa ||| perm ||| pteV) where
  readable := by
    apply Or.inl
    rw [entry_and hperm (by decide)]
    exact hread
  owner := by
    rw [entry_pa hal hlt hperm]
    exact hown
  kernel hseg := by
    rw [entry_pa hal hlt hperm, entry_and hperm (by decide)]
    exact hker hseg
  user hseg := by
    unfold UserWritable
    rw [entry_and hperm (by decide), entry_and hperm (by decide)]
    exact huser hseg

-- ==== map and record

/-- A page was mapped by leaf `w` and recorded as region `n`, in the next
free entry of the table; frames were not written. -/
structure Recorded (i : Slot) (root info n va w : Nat) (seg : SegType)
    (s : Kernel) (own : Nat → Owner) (fl : List Nat)
    (s' : Kernel) (own' : Nat → Owner) (fl' : List Nat) : Prop where
  rest : s'.rest = s.rest
  pages : Heap s' own' fl'
  touches : Touches i s own s' own'
  keep : ∀ p, own p ≠ .free → own' p = own p
  regions : Regions s'.mem own' i root info (n + 1) fun _ _ => False
  entry : regionAt s'.mem info n = ⟨va, 1, seg.word⟩
  old : ∀ k < n, regionAt s'.mem info k = regionAt s.mem info k
  leaf : ∀ a, a < 2 ^ 39 → leaf s'.mem root a =
    if a / 4096 = va / 4096 then some w else leaf s.mem root a
  agree : ∀ p v, p % pgSize = 0 → own p = .frame i v →
    Agree s.mem s'.mem p (p + 4096)
  length : fl.length ≤ fl'.length + 2

theorem wp_mapRecord {root info : Nat} {seg : SegType} {next : K α}
    {Q : α → Kernel → Prop} (hh : Heap s own fl)
    (hR : Regions s.mem own i root info n fun _ _ => False)
    (hn : n < maxRegions) (hal : va % pgSize = 0) (hva : va + pgSize ≤ maxVa)
    (hnew : ∀ k < n, ¬ (regionAt s.mem info k).Covers va)
    (hpa : pa + pgSize ≤ 2 ^ 64) (hperm : perm < 1024)
    (hleaf : RegionLeaf own i seg (va / pgSize) (pa2pte pa ||| perm ||| pteV))
    (hroom : Room bad 3 fl)
    (hnext : ∀ s' own' fl',
      Recorded i root info n va (pa2pte pa ||| perm ||| pteV) seg s own fl
        s' own' fl' →
      Wp bad E next Q s') :
    Wp bad E (do
      userVmMap root va pgSize pa perm
      setRegion info n va 1 seg
      next) Q s := by
  have hlt : va < maxVa := by
    simp only [pgSize] at hva
    omega
  have h39 : va < 2 ^ 39 := Nat.lt_trans hlt (by decide)
  have hnone : leaf s.mem root va = none := by
    cases hl : leaf s.mem root va with
    | none => rfl
    | some w =>
        rcases hR.leaves va w h39 hl with ⟨k, hk, hc⟩ | hf
        · exact absurd hc (hnew k hk)
        · exact hf.elim
  rw [wp_bind]
  apply (wp_userVmMap hal hperm hpa hh hR.tables hroom
    (Or.inl ⟨hlt, hnone⟩)).mono
  intro _ s₁ hres
  obtain ⟨own₁, fl₁, hg, hm, _, hlen⟩ := hres
  rw [wp_bind, wp_setRegion]
  have hR₁ := hR.map hh hg hm
  have hinfo : (own₁ info).tag = some i.val := by
    rw [hR₁.owner]
    rfl
  have hinfoal := (tag_page hg.heap hinfo).aligned
  have hw : Within s₁.mem (regionStore s₁.mem info n va 1 seg.word) info :=
    within_regionStore hn
  have hat : ∀ k < maxRegions,
      regionAt s₁.mem info k = regionAt s.mem info k := by
    intro k hk
    apply regionAt_agree _ hk
    have hused : own info ≠ .free := by
      rw [hR.owner]
      exact Owner.noConfusion
    have hpage := tag_page (n := i) hh (by rw [hR.owner]; rfl : (own info).tag = _)
    apply hg.agree info hpage.aligned hused
    intro path
    rw [hR.owner]
    exact Owner.noConfusion
  have hpages : ∀ a, inPages va 1 a → a < 2 ^ 39 := by
    intro a ha
    have := inPages_one.mp ha
    simp only [pgSize, maxVa] at hal hva
    omega
  apply hnext _ own₁ fl₁
  refine ⟨hg.rest, ?_, ?_, hg.keep, ?_, ?_, ?_, ?_, ?_, hlen⟩
  · exact hg.heap.within hinfoal (tag_used hinfo) hw
  · exact (hg.touches hh).trans (touches_within hinfoal hinfo hw)
  · apply hR₁.record _ hn (Nat.le_refl n) hal
    · rw [Nat.one_mul]
      exact hva
    · intro k hk _ a hc hin
      rw [hat k (Nat.lt_of_lt_of_le hk hR.table.count)] at hc
      apply hnew k hk
      have hpage := inPages_one.mp hin
      unfold MappedRegion.Covers inPages at hc ⊢
      rw [← hpage]
      exact hc
    · intro a hin
      have hpage := inPages_one.mp hin
      refine ⟨pa2pte pa ||| perm ||| pteV, ?_, ?_⟩
      · rw [hm.one (hpages a hin), if_pos hpage]
      · show RegionLeaf own₁ i seg (a / 4096) _
        rw [hpage]
        apply hleaf.relabel
        intro p hp
        apply hg.keep
        rcases hp with ⟨u, hu⟩ | hu
        · rw [hu]; exact Owner.noConfusion
        · rw [hu]; exact Owner.noConfusion
    · intro a w _ _ he hin
      rcases he with (hf | ⟨hpage, _⟩) | ⟨hnn, _⟩
      · exact hf
      · exact hin (inPages_one.mpr hpage)
      · exact absurd hnn (Nat.lt_irrefl n)
    · intro p hp
      rcases hp with ⟨path, hpath⟩ | rfl
      · exact hg.heap.table_aligned path p hpath
      · exact hinfoal
  · apply regionAt_store_self _ (by decide) seg.word_lt
    simp only [pgSize, maxVa] at hva
    omega
  · intro k hk
    have hk' : k < maxRegions := Nat.lt_trans hk hn
    show regionAt (regionStore s₁.mem info n va 1 seg.word) info k = _
    rw [regionAt_store_ne (Nat.ne_of_lt hk), hat k hk']
  · intro a ha
    rw [← hm.one ha]
    refine leaf_congr hg.tables fun path t ht => ?_
    refine hw.agree (hg.heap.table_aligned path t ht) hinfoal fun heq => ?_
    rw [heq, hR₁.owner] at ht
    cases ht
  · intro p v hp hown
    refine (hg.agree p hp ?_ fun path => ?_).trans (hw.agree hp hinfoal ?_)
    · rw [hown]; exact Owner.noConfusion
    · rw [hown]; exact Owner.noConfusion
    · intro heq
      rw [heq, hR.owner] at hown
      cases hown

/-- The space of a slot under construction: pages for everything, an
empty page table, an empty region table. -/
structure Draft (s : Kernel) (own : Nat → Owner) (i : Slot) (ustack : Nat) :
    Prop where
  root : own (s.procs i).pagetable = .table i []
  root_zero : ∀ x, (s.procs i).pagetable ≤ x →
    x < (s.procs i).pagetable + 4096 → s.mem x = 0
  info : own (s.procs i).mappedInfo = .regions i
  info_zero : ∀ x, (s.procs i).mappedInfo ≤ x →
    x < (s.procs i).mappedInfo + 4096 → s.mem x = 0
  kstack : ∃ k, (s.procs i).kstack = k + pgSize ∧ own k = .kstack i
  trapframe : own (s.procs i).trapframe
    = .frame i ((s.procs i).trapframe / pgSize)
  ustack : own ustack = .frame i ((userStackTop - pgSize) / pgSize)

theorem regionAt_zero {m : Mem} {info : Nat}
    (hz : ∀ x, info ≤ x → x < info + 4096 → m x = 0) (hk : k < maxRegions) :
    regionAt m info k = ⟨0, 0, 0⟩ := by
  simp only [maxRegions] at hk
  unfold regionAt
  rw [load_eq_zero fun x h1 h2 => hz x (by omega) (by omega),
    load_eq_zero fun x h1 h2 => hz x (by omega) (by omega),
    load_eq_zero fun x h1 h2 => hz x (by omega) (by omega)]

theorem Draft.regions {ustack : Nat} (hd : Draft s own i ustack) :
    Regions s.mem own i (s.procs i).pagetable (s.procs i).mappedInfo 0
      fun _ _ => False where
  tables := Tables.zeroed hd.root_zero hd.root
  owner := hd.info
  table :=
    { count := Nat.zero_le _
      kind := fun k hk => absurd hk (Nat.not_lt_zero k)
      aligned := fun k hk => absurd hk (Nat.not_lt_zero k)
      bounded := fun k hk => absurd hk (Nat.not_lt_zero k)
      disjoint := fun k hk => absurd hk (Nat.not_lt_zero k)
      blank := fun k _ hk => regionAt_zero hd.info_zero hk }
  mapped k hk := absurd hk (Nat.not_lt_zero k)
  leaves va w _ hw := by
    rw [leaf_zeroed hd.root_zero] at hw
    cases hw

theorem Ranges.frame (hr : Ranges cfg s) (hp : PageIn s p) :
    cfg.trapSecStart + 4096 ≤ p ∧ p + 4096 ≤ 0x88000000 ∧ p % 4096 = 0 := by
  have h1 := hr.start
  have h2 := hr.stop
  have h3 := cfg.trap_text
  have h4 := cfg.etext_end
  have h5 := hp.lo
  have h6 := hp.hi
  have h7 := hp.aligned
  simp only [pgSize, physTop, dramBase, pkeMaxAllowableRam] at h2 h3 h7
  omega

theorem covers_one {m : Mem} {a va t : Nat}
    (h : regionAt m p k = ⟨a, 1, t⟩) :
    (regionAt m p k).Covers va ↔ va / 4096 = a / 4096 := by
  rw [h]
  exact inPages_one

/-- The common end of `alloc_process` and `realloc_process`. -/
theorem wp_mapSystemRegions {ustack : Nat} (hh : Heap s own fl)
    (hr : Ranges cfg s) (hd : Draft s own i ustack) (hroom : Room bad 7 fl) :
    Wp bad E (mapSystemRegions cfg i ustack) (fun _ s' => ∃ own' fl',
      Heap s' own' fl' ∧ Space cfg P s' own' i (fun _ _ => False) ∧
      Touches i s own s' own' ∧
      s'.procs i = { s.procs i with totalMappedRegion := 3 } ∧
      (∀ p, own p ≠ .free → own' p = own p) ∧
      fl.length ≤ fl'.length + 6 ∧
      (∃ w, leaf s'.mem (s'.procs i).pagetable (userStackTop - pgSize) = some w ∧
        pte2pa w = ustack ∧ UserWritable w) ∧
      Agree s.mem s'.mem ustack (ustack + 4096)) s := by
  have htrap := cfg.trap_base
  have htal := cfg.trap_aligned
  have htf : (own (s.procs i).trapframe).tag = some i.val := by
    rw [hd.trapframe]
    rfl
  have htfp := hr.frame (tag_page hh htf)
  have hus := hr.frame (tag_page (n := i) hh (by rw [hd.ustack]; rfl))
  simp only [pgSize, kernBase] at htrap htal
  unfold mapSystemRegions
  rw [wp_bind, wp_proc]
  -- the user stack
  apply wp_mapRecord hh hd.regions (by decide) (by decide) (by decide)
  · intro k hk
    exact absurd hk (Nat.not_lt_zero k)
  · simp only [pgSize]
    omega
  · decide
  · apply regionLeaf_entry hus.2.2 (by omega) (by decide) (by decide)
    · exact hd.ustack
    · intro hseg
      rcases hseg with h | h
      · cases h
      · cases h
    · exact fun _ => by decide
  · exact hroom.less (by omega)
  intro s₁ own₁ fl₁ h₁
  -- the trapframe, at its physical address
  apply wp_mapRecord h₁.pages h₁.regions (by decide) htfp.2.2
  · simp only [pgSize, maxVa]
    omega
  · intro k hk hc
    obtain rfl : k = 0 := by omega
    have hpage := (covers_one h₁.entry).mp hc
    simp only [userStackTop, pgSize] at hpage
    omega
  · simp only [pgSize]
    omega
  · decide
  · apply regionLeaf_entry htfp.2.2 (by omega) (by decide) (by decide)
    · exact (h₁.keep _ (tag_used htf)).trans hd.trapframe
    · intro _
      refine ⟨?_, by decide⟩
      simp only [pgSize]
      omega
    · exact fun h => absurd (Or.inl rfl) h
  · exact hroom.less (by have := h₁.length; omega)
  intro s₂ own₂ fl₂ h₂
  have hentry0 : regionAt s₂.mem (s.procs i).mappedInfo 0
      = ⟨userStackTop - pgSize, 1, SegType.stack.word⟩ :=
    (h₂.old 0 (by decide)).trans h₁.entry
  -- the trap section, at its physical address
  apply wp_mapRecord h₂.pages h₂.regions (by decide) htal
  · simp only [pgSize, maxVa]
    omega
  · intro k hk hc
    have hcase : k = 0 ∨ k = 1 := by omega
    rcases hcase with rfl | rfl
    · have hpage := (covers_one hentry0).mp hc
      simp only [userStackTop, pgSize] at hpage
      omega
    · have hpage := (covers_one h₂.entry).mp hc
      omega
  · simp only [pgSize]
    omega
  · decide
  · apply regionLeaf_entry htal (by omega) (by decide) (by decide)
    · exact trivial
    · intro _
      refine ⟨?_, by decide⟩
      simp only [pgSize]
      omega
    · exact fun h => absurd (Or.inr rfl) h
  · exact hroom.less (by have := h₁.length; have := h₂.length; omega)
  intro s₃ own₃ fl₃ h₃
  have hrest : s₃.rest = s.rest := h₃.rest.trans (h₂.rest.trans h₁.rest)
  have hproc : s₃.procs i = s.procs i := by rw [procs_eq hrest]
  have hkeep : ∀ p, own p ≠ .free → own₃ p = own p := by
    intro p hp
    have e₁ := h₁.keep p hp
    have e₂ := h₂.keep p (by rw [e₁]; exact hp)
    have e₃ := h₃.keep p (by rw [e₂, e₁]; exact hp)
    rw [e₃, e₂, e₁]
  apply wp_setProc h₃.pages
  intro s₄ hp hm hh₄ ht₄
  rw [hproc] at hp
  refine ⟨own₃, fl₃, hh₄, ?_, ?_, hp, hkeep, ?_, ?_, ?_⟩
  · constructor
    case regions =>
      rw [hp, hm]
      exact h₃.regions.mono fun _ _ hf => hf.elim
    case kstack =>
      obtain ⟨k, hk, hown⟩ := hd.kstack
      rw [hp]
      refine ⟨k, hk, ?_⟩
      rw [hkeep k (by rw [hown]; exact Owner.noConfusion)]
      exact hown
    case three => rw [hp]
    case stack =>
      rw [hp, hm]
      exact (h₃.old 0 (by decide)).trans hentry0
    case context =>
      rw [hp, hm]
      exact (h₃.old 1 (by decide)).trans h₂.entry
    case system =>
      rw [hp, hm]
      exact h₃.entry
    case image =>
      intro k h3 hk
      rw [hp] at hk
      exact absurd hk (Nat.not_lt.mpr h3)
  · exact ((h₁.touches.trans h₂.touches).trans h₃.touches).trans ht₄
  · have := h₁.length
    have := h₂.length
    have := h₃.length
    omega
  · -- the two other mappings are of other pages
    refine ⟨pa2pte ustack ||| protToType (protWrite ||| protRead) true ||| pteV,
      ?_, entry_pa hus.2.2 (by omega) (by decide), ?_⟩
    rotate_left
    · unfold UserWritable
      rw [entry_and (by decide) (by decide), entry_and (by decide) (by decide)]
      decide
    rw [hp, hm, h₃.leaf _ (by decide), if_neg, h₂.leaf _ (by decide), if_neg,
      h₁.leaf _ (by decide), if_pos rfl]
    · simp only [userStackTop, pgSize]
      omega
    · simp only [userStackTop, pgSize]
      omega
  · have hown₁ := (h₁.keep _ (by rw [hd.ustack]; exact Owner.noConfusion)).trans
      hd.ustack
    have hown₂ := (h₂.keep _ (by rw [hown₁]; exact Owner.noConfusion)).trans hown₁
    rw [hm]
    exact ((h₁.agree _ _ hus.2.2 hd.ustack).trans
      (h₂.agree _ _ hus.2.2 hown₁)).trans (h₃.agree _ _ hus.2.2 hown₂)

/-- A process was built in the slot. -/
structure Built (cfg : Config) (P : MappedRegion → Prop) (i : Slot) (s : Kernel) (own : Nat → Owner)
    (fl : List Nat) (s' : Kernel) (own' : Nat → Owner) (fl' : List Nat) :
    Prop where
  pages : Heap s' own' fl'
  space : Space cfg P s' own' i fun _ _ => False
  touches : Touches i s own s' own'
  total : (s'.procs i).totalMappedRegion = 3
  keep : ∀ p, own p ≠ .free → own' p = own p
  length : fl.length ≤ fl'.length + 12
  stack : ∃ w, leaf s'.mem (s'.procs i).pagetable (userStackTop - pgSize)
      = some w ∧ UserWritable w ∧ fl[3]? = some (pte2pa w) ∧
    Agree s.mem s'.mem (pte2pa w) (pte2pa w + 4096)

/-- The pages of a process under construction were taken, in this order;
the user stack is as it was when it was free. -/
structure Drafted (i : Slot) (s : Kernel) (own : Nat → Owner) (fl : List Nat)
    (us : Nat) (s' : Kernel) (own' : Nat → Owner) (fl' : List Nat) :
    Prop where
  pages : Heap s' own' fl'
  draft : Draft s' own' i us
  touches : Touches i s own s' own'
  keep : ∀ p, own p ≠ .free → own' p = own p
  list : fl = (s'.procs i).trapframe :: (s'.procs i).pagetable ::
    ((s'.procs i).kstack - pgSize) :: us :: (s'.procs i).mappedInfo :: fl'
  stack : Agree s.mem s'.mem us (us + 4096)

/-- The first half of `alloc_process`. -/
theorem wp_buildDraft {next : Nat → K Unit} {Q : Unit → Kernel → Prop}
    (hh : Heap s own fl) (hroom : Room bad (n + 5) fl)
    (hnext : ∀ us s' own' fl', Drafted i s own fl us s' own' fl' →
      Room bad n fl' → Wp bad E (next us) Q s') :
    Wp bad E (do
      setAcct i fun a => { a with totalMemCount := 0 }
      let trapframe ← allocPage
      setProc i fun q => { q with trapframe := trapframe }
      memset trapframe 0 tfSize
      let pagetable ← allocPage
      setProc i fun q => { q with pagetable := pagetable }
      memset pagetable 0 pgSize
      let kstack ← allocPage
      setProc i fun q => { q with kstack := kstack + pgSize }
      let userStack ← allocPage
      sd (trapframe + tfSp) userStackTop
      let mappedInfo ← allocPage
      setProc i fun q => { q with mappedInfo := mappedInfo }
      memset mappedInfo 0 pgSize
      next userStack) Q s := by
  rw [wp_bind]
  apply wp_setAcct hh
  intro s₁ hr₁ hm₁ hh₁ ht₁
  -- the trapframe
  apply wp_claimZero (o := fun p => .frame i (p / pgSize)) (by decide)
    (fun _ => ⟨Owner.noConfusion, rfl⟩) hh₁ hroom
  intro tf s₂ own₂ fl₂ h₂ room₂
  -- the root table
  apply wp_claimZero (o := fun _ => .table i []) (by decide)
    (fun _ => ⟨Owner.noConfusion, rfl⟩) h₂.pages room₂
  intro pt s₃ own₃ fl₃ h₃ room₃
  -- the kernel stack
  apply wp_claim (o := fun _ => .kstack i)
    (fun _ => ⟨Owner.noConfusion, rfl⟩) h₃.pages room₃
  intro ks s₄ own₄ fl₄ h₄ room₄
  -- the user stack
  rw [wp_bind]
  apply wp_take (i := i) (fun _ => .frame i ((userStackTop - pgSize) / pgSize))
    (fun _ => ⟨Owner.noConfusion, Or.inr rfl⟩) h₄.pages room₄
  intro us s₅ own₅ fl₅ h₅ room₅
  have htf₅ : own₅ tf = .frame i (tf / pgSize) :=
    h₅.kept (h₄.kept (h₃.kept h₂.new Owner.noConfusion) Owner.noConfusion)
      Owner.noConfusion
  have hpt₅ : own₅ pt = .table i [] :=
    h₅.kept (h₄.kept h₃.new Owner.noConfusion) Owner.noConfusion
  have hks₅ : own₅ ks = .kstack i := h₅.kept h₄.new Owner.noConfusion
  have hpt₃ : pt % pgSize = 0 := (h₂.pages.free_page h₃.was).aligned
  have hzero₅ : ∀ x, pt ≤ x → x < pt + 4096 → s₅.mem x = 0 := by
    intro x hlo hhi
    have hag := h₄.agree hpt₃ (by rw [h₃.new]; exact Owner.noConfusion)
    rw [h₅.mem, hag x hlo hhi]
    exact h₃.zero x hlo hhi
  rw [wp_bind]
  unfold sd
  have hwtf : Within s₅.mem (store s₅.mem 8 (tf + tfSp) userStackTop) tf :=
    within_store (by omega) (by simp only [tfSp]; omega)
  apply wp_onMem h₅.pages (by rw [htf₅]; rfl) hwtf
  intro s₆ hr₆ hm₆ hh₆ ht₆
  -- the region table
  apply wp_claimZero (o := fun _ => .regions i) (by decide)
    (fun _ => ⟨Owner.noConfusion, rfl⟩) hh₆ room₅
  intro mi s₇ own₇ fl₇ h₇ room₇
  have hslot : s₇.procs i = { s.procs i with
      trapframe := tf, pagetable := pt, kstack := ks + pgSize
      mappedInfo := mi } := by
    rw [h₇.slot, procs_eq hr₆, procs_eq h₅.rest, h₄.slot, h₃.slot, h₂.slot,
      procs_eq hr₁]
  have hdraft : Draft s₇ own₇ i us := by
    constructor
    case root =>
      rw [hslot]
      exact h₇.kept hpt₅ Owner.noConfusion
    case root_zero =>
      rw [hslot]
      intro x hlo hhi
      have hag := h₇.agree hpt₃ (by rw [hpt₅]; exact Owner.noConfusion)
      rw [hag x hlo hhi, hm₆]
      have htfpt : pt ≠ tf := by
        intro h
        rw [h, htf₅] at hpt₅
        cases hpt₅
      have hag₆ := hwtf.agree hpt₃ (tag_page (n := i) h₅.pages
        (by rw [htf₅]; rfl)).aligned htfpt
      rw [hag₆ x hlo hhi]
      exact hzero₅ x hlo hhi
    case info => rw [hslot]; exact h₇.new
    case info_zero => rw [hslot]; exact h₇.zero
    case kstack =>
      rw [hslot]
      exact ⟨ks, rfl, h₇.kept hks₅ Owner.noConfusion⟩
    case trapframe => rw [hslot]; exact h₇.kept htf₅ Owner.noConfusion
    case ustack => exact h₇.kept h₅.new Owner.noConfusion
  have ht₇ : Touches i s own s₇ own₇ :=
    (((((ht₁.trans h₂.touches).trans h₃.touches).trans h₄.touches).trans
      h₅.touches).trans ht₆).trans h₇.touches
  have hkeep₇ : ∀ p, own p ≠ .free → own₇ p = own p := fun p hp =>
    h₇.kept (h₅.kept (h₄.kept (h₃.kept (h₂.keep p hp) hp) hp) hp) hp
  -- the user stack is as it was when it was free
  have husal : us % pgSize = 0 := (h₄.pages.free_page h₅.was).aligned
  have husne : ∀ p, own₄ p ≠ .free → us ≠ p := by
    intro p hp heq
    rw [← heq] at hp
    exact hp h₅.was
  have htf₄ : own₄ tf = .frame i (tf / pgSize) :=
    h₄.kept (h₃.kept h₂.new Owner.noConfusion) Owner.noConfusion
  have hpt₄ : own₄ pt = .table i [] := h₄.kept h₃.new Owner.noConfusion
  have hustf : us ≠ tf := husne tf (by rw [htf₄]; exact Owner.noConfusion)
  have husmi : us ≠ mi := by
    intro heq
    have hwas := h₇.was
    rw [← heq, h₅.new] at hwas
    cases hwas
  have hus₇ : Agree s.mem s₇.mem us (us + 4096) := by
    have e₅ : Agree s.mem s₅.mem us (us + 4096) := by
      rw [h₅.mem, ← hm₁]
      exact ((h₂.others us husal hustf).trans (h₃.others us husal (husne pt
        (by rw [hpt₄]; exact Owner.noConfusion)))).trans
        (h₄.others us husal (husne ks (by rw [h₄.new]; exact Owner.noConfusion)))
    have e₆ := hwtf.agree husal (hh₁.free_page h₂.was).aligned hustf
    rw [← hm₆] at e₆
    exact (e₅.trans e₆).trans (h₇.others us husal husmi)
  apply hnext us s₇ own₇ fl₇ ⟨h₇.pages, hdraft, ht₇, hkeep₇, ?_, hus₇⟩ room₇
  rw [hslot, h₂.head, h₃.head, h₄.head, h₅.head, h₇.head]
  show tf :: pt :: ks :: us :: mi :: fl₇
    = tf :: pt :: (ks + pgSize - pgSize) :: us :: mi :: fl₇
  rw [Nat.add_sub_cancel]

/-- `alloc_process`, from the search for a slot to `files_create`. -/
theorem wp_buildSpace (hh : Heap s own fl) (hr : Ranges cfg s)
    (hroom : Room bad 12 fl) :
    Wp bad E (buildSpace cfg i) (fun _ s' => ∃ own' fl',
      Built cfg P i s own fl s' own' fl' ∧ fl.length ≤ fl'.length + 11) s := by
  unfold buildSpace
  apply wp_buildDraft (n := 7) hh hroom
  intro us s₇ own₇ fl₇ h₇ _
  have hlen₇ : fl.length = fl₇.length + 5 := by
    rw [h₇.list]
    rfl
  rw [wp_bind]
  apply (wp_mapSystemRegions h₇.pages (hr.congr h₇.touches.apart) h₇.draft
    (hroom.less (by omega))).mono
  intro _ s₈ hres
  obtain ⟨own₈, fl₈, hh₈, hS₈, ht₈, hp₈, hkeep₈, hlen₈, ⟨w, hw, hwus, hwu⟩,
    husag⟩ := hres
  apply wp_setAcct hh₈
  intro s₉ hr₉ hm₉ hh₉ ht₉
  have hslot : s₉.procs i = s₈.procs i := by rw [procs_eq hr₉]
  refine ⟨own₈, fl₈, ⟨hh₉, ?_, ?_, ?_, ?_, ?_, w, ?_, hwu, ?_, ?_⟩, ?_⟩
  · apply hS₈.frame (SameSpace.of_eq hslot) (fun _ _ => rfl)
    · intro p _
      rw [hm₉]
      exact Agree.refl s₈.mem p (p + 4096)
    · exact fun _ _ hf => hf
  · exact (h₇.touches.trans ht₈).trans ht₉
  · rw [hslot, hp₈]
  · intro p hp
    have e₇ := h₇.keep p hp
    rw [hkeep₈ p (by rw [e₇]; exact hp), e₇]
  · omega
  · rw [hslot, hm₉]
    exact hw
  · rw [hwus, h₇.list]
    rfl
  · rw [hwus, hm₉]
    exact h₇.stack.trans husag
  · omega

/-- Mapping a frame of the process adds a heap page. -/
theorem Space.mapHeap {N : List (Fin 512) → Prop} {heap : Nat → Nat → Prop}
    (hS : Space cfg P s own i heap) (hh : Heap s own fl)
    (hg : Grown i (s.procs i).pagetable N s own fl s' own' fl')
    (hm : Mapped va pa perm 1 (s.procs i).pagetable s.mem s'.mem)
    (hpa : pa % pgSize = 0) (hlt : pa < 2 ^ 64) (hperm : perm < 1024)
    (huser : UserWritable (perm ||| pteV))
    (hown : own pa = .frame i (va / pgSize)) :
    Space cfg P s' own' i fun v p =>
      heap v p ∨ (v = va / pgSize ∧ p = pa) := by
  have hproc : s'.procs i = s.procs i := by rw [procs_eq hg.rest]
  have hinfo := hS.regions.owner
  have hinfoal := (tag_page (n := i) hh (by rw [hinfo]; rfl)).aligned
  have hag : Agree s.mem s'.mem (s.procs i).mappedInfo
      ((s.procs i).mappedInfo + 4096) := by
    apply hg.agree _ hinfoal
    · rw [hinfo]; exact Owner.noConfusion
    · intro path
      rw [hinfo]
      exact Owner.noConfusion
  have hat : ∀ k < maxRegions,
      regionAt s'.mem (s.procs i).mappedInfo k
        = regionAt s.mem (s.procs i).mappedInfo k :=
    fun k hk => regionAt_agree hag hk
  constructor
  case regions =>
    rw [hproc]
    apply (hS.regions.map hh hg hm).mono
    intro v w he
    rcases he with (⟨hv, ho, hu⟩ | hstray) | ⟨rfl, rfl⟩
    · exact Or.inl ⟨Or.inl hv, hg.keep_used ho Owner.noConfusion, hu⟩
    · exact Or.inr hstray
    · have hpte := entry_pa hpa hlt hperm
      refine Or.inl ⟨Or.inr ⟨rfl, hpte⟩, ?_, ?_⟩
      · rw [hpte]
        exact hg.keep_used hown Owner.noConfusion
      · unfold UserWritable
        rw [entry_and hperm (by decide), entry_and hperm (by decide)]
        exact huser
  case kstack =>
    obtain ⟨k, hk, hkown⟩ := hS.kstack
    rw [hproc]
    exact ⟨k, hk, hg.keep_used hkown Owner.noConfusion⟩
  case three => rw [hproc]; exact hS.three
  case stack => rw [hproc, hat 0 (by decide)]; exact hS.stack
  case context => rw [hproc, hat 1 (by decide)]; exact hS.context
  case system => rw [hproc, hat 2 (by decide)]; exact hS.system
  case image =>
    intro k h3 hk
    rw [hproc] at hk ⊢
    rw [hat k (Nat.lt_of_lt_of_le hk hS.regions.table.count)]
    exact hS.image k h3 hk

end Pke
