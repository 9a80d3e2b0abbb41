/-
What a fresh page shows of its past.

Two states are twins when they differ in free pages only, and there only
behind the link word of the free list. Four operations give a process
pages it can read in user mode: `sys_user_allocate_page`, a store page
fault, `alloc_process` (the user stack) and `elf_alloc_mb`. Each of them
is told by one statement about a single run, `wp_giftSeen`: at which
addresses there are new pages (`Gift.news`), and which page of memory each
of them shows as it was (`Gift.sources`). Only `elf_alloc_mb` clears the
page it takes; but a segment that does not start on a page boundary is
given a second page, and that one is whatever lies behind in memory.

The pages are found by their place on the free list, the fourth for the
user stack (trapframe, root table and kernel stack are taken before it)
and the first for the others. Twins have the same list, so the bytes
two runs show can be compared without knowing what either run did.

# What is left out

The user stack is followed while the number of files does not fall into
the other pages of the new process (`SparesOwn`), and the second page of
a segment while it is not a page table of the process, old or new.
-/
import Pke.Proofs.Image
import Pke.Proofs.Ownership

namespace Pke

open ByteMem Traced

variable {bad : Event → Prop} {E : Halt → Kernel → Prop}
variable {cfg : Config} {s s' t t' : Kernel} {own : Nat → Owner}
variable {fl : List Nat} {i : Slot} {built : Slot → Prop}
variable {heap : Slot → Nat → Nat → Prop} {va pa perm : Nat}

-- ==== twins

/-- The states differ in the free pages `fl` only, behind their link
words. -/
structure Twins (fl : List Nat) (s t : Kernel) : Prop where
  same : t = { s with mem := t.mem }
  mem : ∀ x, (∀ p ∈ fl, ¬ (p + 8 ≤ x ∧ x < p + 4096)) → t.mem x = s.mem x

/-- A state between two steps of the kernel: the memory invariant, and
the next heap address is a page address. -/
structure Steady (cfg : Config) (heap : Slot → Nat → Nat → Prop) (s : Kernel)
    (own : Nat → Owner) (fl : List Nat) (built : Slot → Prop) : Prop where
  inv : KInv cfg BelowStack s own fl built heap
  aligned : s.gUfreePage % pgSize = 0
  word : s.gUfreePage < 2 ^ 64

theorem Sys.steady {q : List Slot} {c : Slot}
    (hS : Sys cfg heap s own fl q c) : Steady cfg heap s own fl (InUse s) :=
  ⟨hS.inv, hS.aligned, hS.word⟩

theorem Twins.rest (ht : Twins fl s t) : t.rest = s.rest := by
  rw [ht.same]
  rfl

theorem Twins.ufree (ht : Twins fl s t) : t.gUfreePage = s.gUfreePage := by
  rw [ht.same]

/-- Twins agree on pages in use. -/
theorem Twins.agree {p : Nat} (ht : Twins fl s t) (hh : Heap s own fl)
    (hal : p % pgSize = 0) (hused : own p ≠ .free) :
    Agree s.mem t.mem p (p + 4096) := by
  intro x hlo hhi
  apply ht.mem
  intro r hr hin
  have hne : p ≠ r := by
    intro heq
    rw [heq] at hused
    exact hused ((hh.free r).mpr hr)
  have := page_disjoint hal (hh.pool.page r hr).aligned hne
  omega

/-- Twins have the same free list. -/
theorem Twins.pages (ht : Twins fl s t) (hh : Heap s own fl) :
    Heap t own fl := by
  refine ⟨?_, hh.free, fun p hp => (hh.page p hp).congr ht.rest⟩
  apply hh.pool.write ht.rest (by rw [ht.same])
  intro p hp x hlo hhi
  apply ht.mem
  intro r hr hin
  by_cases heq : p = r
  · omega
  · have := page_disjoint (hh.pool.page p hp).aligned
      (hh.pool.page r hr).aligned heq
    omega

theorem Twins.steady (ht : Twins fl s t)
    (hs : Steady cfg heap s own fl built) :
    Steady cfg heap t own fl built := by
  have hranges : Ranges cfg t := by
    rw [ht.same]
    exact ⟨hs.inv.ranges.start, hs.inv.ranges.stop⟩
  refine ⟨⟨ht.pages hs.inv.pages, hranges, ?_, hs.inv.tagged⟩, ?_, ?_⟩
  · intro j hj
    apply (hs.inv.space j hj).frame
      (SameSpace.of_eq (congrFun (procs_eq ht.rest) j)) (fun _ _ => rfl)
    · intro p hp
      have htag : (own p).tag = some j.val := by
        rcases hp with ⟨path, h⟩ | h
        · rw [h]; rfl
        · rw [h]; rfl
      exact ht.agree hs.inv.pages (tag_page hs.inv.pages htag).aligned
        (tag_used htag)
    · exact fun _ _ h => h
  · rw [ht.ufree]
    exact hs.aligned
  · rw [ht.ufree]
    exact hs.word

-- ==== gifts

/-- The operations that give a process a new page for user mode. -/
inductive Gift where
  | allocate
  | fault (stval : Nat)
  | stack
  | segment (va size : Nat)

/-- The code of the operation; the page is for process `i`. -/
def Gift.run (cfg : Config) (i : Slot) : Gift → K Unit
  | .allocate => do let _ ← sysUserAllocatePage
  | .fault stval => handleUserPageFault causeStorePageFault stval
  | .stack => do let _ ← allocProcess cfg
  | .segment va size => do let _ ← elfAllocMb i va size

/-- The number of files of a process founded on this list does not fall
into the pages it takes before its file table, or is no leaf there. -/
def SparesOwn (cfg : Config) (n : Nat) (fl : List Nat) : Prop :=
  cfg.tableFits = true ∨ ∀ p, filesPage cfg fl = some p →
    p + pgSize ∉ fl.take (tableCount cfg (fl.headD 0) + 5) ∨
    (fl[tableCount cfg (fl.headD 0) + 4]? = some (p + pgSize) ∧
      (n &&& pteV = 0 ∨ n &&& pteU = 0))

/-- The page behind the first free page is no page table of the process,
and not among the next pages on the list, which may become some. -/
def NoTableBehind (own : Nat → Owner) (fl : List Nat) (i : Slot) : Prop :=
  ∀ pa, fl[0]? = some pa → pa + pgSize ∉ fl.tail.take 4 ∧
    ∀ path, own (pa + pgSize) ≠ .table i path

/-- Process `i` is the one the page goes to: the running process, the
slot that is filled, or the process that is loaded. -/
def Gift.Ready (cfg : Config) (built : Slot → Prop) (own : Nat → Owner)
    (fl : List Nat) (s : Kernel) (i : Slot) : Gift → Prop
  | .allocate => s.current = some i ∧ built i
  | .fault stval => s.current = some i ∧ built i ∧ stval < 2 ^ 64
  | .stack => freeSlot s = some i ∧ ¬ built i ∧ SparesOwn cfg s.hostFiles fl
  | .segment va _ => built i ∧ va < 2 ^ 64 ∧
      (va % pgSize = 0 ∨ NoTableBehind own fl i)

/-- Where the new pages are mapped. -/
def Gift.news (s : Kernel) : Gift → List Nat
  | .allocate => [s.gUfreePage]
  | .fault stval => [roundDown stval pgSize]
  | .stack => [userStackTop - pgSize]
  | .segment va _ => (List.range (imagePages va)).map fun k =>
      va / 4096 * 4096 + k * pgSize

/-- The page of memory each of them shows as it was, if any. -/
def Gift.sources (fl : List Nat) : Gift → List (Option Nat)
  | .allocate => [fl[0]?]
  | .fault _ => [fl[0]?]
  | .stack => [fl[3]?]
  | .segment va _ => [none, fl[0]?.map (· + pgSize)].take (imagePages va)

/-- A number of free pages the operation can do with. -/
def Gift.pages : Gift → Nat
  | .stack => 13
  | _ => 4

/-- The operation returned, and no allocation failed, be it that there
were pages enough. -/
def Gift.Gives (g : Gift) (cfg : Config) (i : Slot) (fl : List Nat)
    (s s' : Kernel) : Prop :=
  ∃ es, g.run cfg i s = (es, .ok () s') ∧
    ((∀ e ∈ es, ¬ outOfPages e) ∨ g.pages ≤ fl.length)

/-- Process `i` reads frame `pa` at page `va`, with the bytes of `m`. -/
structure Shows (s' : Kernel) (i : Slot) (va pa : Nat) (m : Mem) : Prop where
  below : va + pgSize ≤ 2 ^ 39
  aligned : va % pgSize = 0
  leaf : ∃ w, leaf s'.mem (s'.procs i).pagetable va = some w ∧
    pte2pa w = pa ∧ w &&& pteU ≠ 0
  bytes : Agree m s'.mem pa (pa + 4096)

theorem Shows.userByte {m : Mem} (h : Shows s' i va pa m) {x : Nat}
    (hx : x < pgSize) : userByte s' i (va + x) = some (m (pa + x)) := by
  obtain ⟨w, hw, hpa, hu⟩ := h.leaf
  have hbelow := h.below
  have hal := h.aligned
  simp only [pgSize] at hbelow hal hx
  have hpage : Pke.leaf s'.mem (s'.procs i).pagetable (va + x)
      = Pke.leaf s'.mem (s'.procs i).pagetable va :=
    leaf_page (by omega) (by omega) (by omega)
  have hoff : (va + x) % pgSize = x := by
    simp only [pgSize]
    omega
  unfold Pke.userByte
  rw [hpage, hw, Option.bind_some, if_pos hu, hpa, hoff,
    h.bytes (pa + x) (by omega) (by omega)]

/-- Process `i` reads the bytes of page `src` of `m` at page `a`, or
zeros. -/
def Seen (s' : Kernel) (i : Slot) (m : Mem) (a : Nat) (src : Option Nat) :
    Prop :=
  ∀ x < pgSize, userByte s' i (a + x)
    = some (src.elim 0 fun q => m (q + x))

theorem Shows.seen {m : Mem} (h : Shows s' i va pa m) :
    Seen s' i m va (some pa) := fun _ hx => h.userByte hx

theorem Shows.seen_zero (h : Shows s' i va pa fun _ => 0) (m : Mem) :
    Seen s' i m va none := fun _ hx => h.userByte hx

/-- A frame of the process, mapped for user mode. -/
theorem wp_mapShown {root v : Nat} (hh : Heap s own fl)
    (hT : Tables s.mem own i root) (hroot : (s.procs i).pagetable = root)
    (hown : own pa = .frame i v) (hal : va % pgSize = 0)
    (hva : va < 2 ^ 64) (hperm : perm < 1024)
    (hu : (perm ||| pteV) &&& pteU ≠ 0) (hroom : Room bad 3 fl)
    (hE : ∀ e s', E e s') :
    Wp bad E (userVmMap root va pgSize pa perm)
      (fun _ s' => Shows s' i va pa s.mem) s := by
  have hpage : PageIn s pa := hh.page pa (by rw [hown]; exact Owner.noConfusion)
  have hlt := hpage.lt hh
  apply (wp_userVmMap hal hperm (by simp only [pgSize]; omega) hh hT hroom
    (Or.inr ⟨by simp only [pgSize] at hal ⊢; omega, hE⟩)).mono
  intro _ s₁ hres
  obtain ⟨own₁, fl₁, hg, hm, hmax, _⟩ := hres
  have h39 : va < 2 ^ 39 := Nat.lt_trans hmax (by decide)
  refine ⟨?_, hal, ⟨pa2pte pa ||| perm ||| pteV, ?_,
    entry_pa hpage.aligned (by omega) hperm, ?_⟩, ?_⟩
  · simp only [pgSize] at hal ⊢
    omega
  · rw [procs_eq hg.rest, hroot, hm.leaves va h39,
      if_pos ⟨Nat.le_refl _, Nat.lt_succ_self _⟩, Nat.sub_self, Nat.zero_mul,
      Nat.add_zero]
  · rw [entry_and hperm (by decide)]
    exact hu
  · apply hg.agree pa hpage.aligned (by rw [hown]; exact Owner.noConfusion)
    intro path
    rw [hown]
    exact Owner.noConfusion

theorem current_of_rest (hr : s'.rest = s.rest) (hcur : s.current = some i) :
    s'.current = some i := by
  show s'.rest.current = some i
  rw [hr]
  exact hcur

section Gift

variable (hs : Steady cfg heap s own fl built) (hE : ∀ e s', E e s')
include hs

/-- The store of the number of files is aside, or in a page somebody else
uses. -/
theorem SparesOwn.cases (h : SparesOwn cfg s.hostFiles fl) :
    Aside cfg s.hostFiles fl ∨
      ∃ p, filesPage cfg fl = some p ∧ own (p + pgSize) ≠ .free := by
  rcases h with hfits | h
  · exact Or.inl (Or.inl hfits)
  by_cases hused : ∃ p, filesPage cfg fl = some p ∧ own (p + pgSize) ≠ .free
  · exact Or.inr hused
  refine Or.inl (Or.inr fun p hp => (h p hp).imp_left fun hout => ?_)
  -- a free page that is not among the first ones is among the others
  have hfree : own (p + pgSize) = .free := by
    by_contra hne
    exact hused ⟨p, hp, hne⟩
  have hmem := (hs.inv.pages.free _).mp hfree
  unfold filesPage at hp
  generalize tableCount cfg (fl.headD 0) = k at hp hout ⊢
  obtain ⟨hlt, hval⟩ := List.getElem?_eq_some_iff.mp hp
  rw [← List.take_append_drop (k + 5) fl, List.drop_eq_getElem_cons hlt, hval] at hmem
  rcases List.mem_append.mp hmem with hmem | hmem
  · exact absurd hmem hout
  · refine (List.mem_cons.mp hmem).resolve_left ?_
    simp only [pgSize]
    omega

theorem wp_stackShown (hfree : freeSlot s = some i) (hi : ¬ built i)
    (hspares : SparesOwn cfg s.hostFiles fl) (hroom : Room bad 13 fl) :
    Wp bad E (allocProcess cfg) (fun _ s' => ∃ pa, fl[3]? = some pa ∧
      Shows s' i (userStackTop - pgSize) pa s.mem) s := by
  simp only [allocProcess, wp_bind, wp_get, hfree]
  rcases hspares.cases hs with haside | ⟨p, hp, hused⟩
  · apply (wp_buildProcess (P := BelowStack) hs.inv.pages hs.inv.ranges haside
      hroom).mono
    intro _ s₁ hres
    obtain ⟨own₁, fl₁, hnew⟩ := hres
    obtain ⟨w, hw, hu, hfl, hag⟩ := hnew.built.stack
    rw [wp_pure]
    exact ⟨pte2pa w, hfl, by decide, by decide, ⟨w, hw, rfl, hu.1⟩, hag⟩
  · apply (wp_buildProcess_struck (P := BelowStack) hs.inv.pages hs.inv.ranges hp
      hused (hs.inv.untagged hi _) hroom).mono
    intro _ s₁ hres
    obtain ⟨own₁, fl₁, hnew⟩ := hres
    obtain ⟨w, hw, hu, hfl, hag⟩ := hnew.built.stack
    rw [wp_pure]
    refine ⟨pte2pa w, hfl, by decide, by decide, ⟨w, hw, rfl, hu.1⟩, ?_⟩
    -- the stack was free, so the number is not stored there
    have hmem := List.mem_of_getElem? hfl
    refine Agree.trans (counted_agree ?_ (pte2pa_aligned w) fun _ heq => ?_) hag
    · exact (hs.inv.pages.pool.page p (List.mem_of_getElem? hp)).aligned
    · exact hused (heq ▸ (hs.inv.pages.free _).mpr hmem)

include hE

theorem wp_allocateShown (hcur : s.current = some i) (hb : built i)
    (hroom : Room bad 4 fl) :
    Wp bad E sysUserAllocatePage (fun _ s' => ∃ pa, fl[0]? = some pa ∧
      Shows s' i s.gUfreePage pa s.mem) s := by
  have hS := hs.inv.space i hb
  unfold sysUserAllocatePage
  rw [wp_bind]
  apply wp_take (i := i) (n := 3) (fun _ => .frame i 0)
    (fun _ => ⟨Owner.noConfusion, Or.inr rfl⟩) hs.inv.pages
    hroom
  intro pa s₁ own₁ fl₁ h₁ hroom₁
  have hufree : s₁.gUfreePage = s.gUfreePage := ufree_of_apart h₁.touches.apart
  rw [wp_bind, wp_get, wp_bind, wp_modify, wp_bind]
  generalize hs₂ : ({ s₁ with
    gUfreePage := (u64 (s₁.gUfreePage + pgSize)) } : Kernel) = s₂
  have hmem₂ : s₂.mem = s₁.mem := by rw [← hs₂]
  have hproc₂ : s₂.procs = s₁.procs := by rw [← hs₂]
  have hmem : s₂.mem = s.mem := hmem₂.trans h₁.mem
  have hproc : s₂.procs = s.procs := hproc₂.trans (procs_eq h₁.rest)
  have hheap : Heap s₂ own₁ fl₁ := by
    rw [← hs₂]
    exact h₁.pages.congr rfl rfl rfl rfl
  have hcur₂ : s₂.current = s₁.current := by rw [← hs₂]
  have hsp := h₁.space hS
  apply wp_theCurrent (hcur₂.trans (current_of_rest h₁.rest hcur))
  rw [wp_bind, wp_proc, wp_bind]
  apply (wp_mapShown (i := i) (v := 0) hheap ?_ rfl h₁.new ?_ ?_ (by decide)
    (by decide) hroom₁ hE).mono
  · intro _ s₃ hshow
    rw [wp_pure]
    refine ⟨pa, by rw [h₁.head]; rfl, ?_⟩
    rw [hufree, hmem] at hshow
    exact hshow
  · have hT := hsp.regions.tables
    rw [h₁.mem, procs_eq h₁.rest] at hT
    rw [hmem, hproc]
    exact hT
  · rw [hufree]
    exact hs.aligned
  · rw [hufree]
    exact hs.word

theorem wp_faultShown {stval : Nat} (hcur : s.current = some i) (hb : built i)
    (hval : stval < 2 ^ 64) (hroom : Room bad 4 fl) :
    Wp bad E (handleUserPageFault causeStorePageFault stval) (fun _ s' =>
      ∃ pa, fl[0]? = some pa ∧
        Shows s' i (roundDown stval pgSize) pa s.mem) s := by
  have hS := hs.inv.space i hb
  unfold handleUserPageFault
  rw [if_pos rfl, wp_bind]
  apply wp_take (i := i) (n := 3) (fun _ => .frame i 0)
    (fun _ => ⟨Owner.noConfusion, Or.inr rfl⟩) hs.inv.pages
    hroom
  intro pa s₁ own₁ fl₁ h₁ hroom₁
  rw [wp_bind]
  apply wp_theCurrent (current_of_rest h₁.rest hcur)
  rw [wp_bind, wp_proc]
  apply (wp_mapShown (i := i) (v := 0) h₁.pages (h₁.space hS).regions.tables rfl
    h₁.new ?_ ?_ (by decide) (by decide) hroom₁ hE).mono
  · intro _ s₂ hshow
    refine ⟨pa, by rw [h₁.head]; rfl, ?_⟩
    rw [h₁.mem] at hshow
    exact hshow
  · unfold roundDown
    simp only [pgSize]
    omega
  · unfold roundDown
    simp only [pgSize]
    omega

/-- The pages of a segment: a cleared one, and the one behind it. -/
theorem wp_segmentSeen {size : Nat} (hb : built i) (hva : va < 2 ^ 64)
    (hbehind : va % pgSize = 0 ∨ NoTableBehind own fl i) :
    Wp bad E (elfAllocMb i va size) (fun _ s' => List.Forall₂ (Seen s' i s.mem)
      ((Gift.segment va size).news s) ((Gift.segment va size).sources fl)) s := by
  have hS := hs.inv.space i hb
  apply (wp_elfAllocMb_image hs.inv.pages rfl hS.regions.tables hva
    (Or.inr hE)).mono
  intro pa s' hres
  obtain ⟨-, own', fl', ho⟩ := hres
  obtain ⟨tk, hfl, htk⟩ := ho.list
  have hpage := hs.inv.pages.free_page ho.was
  have hlt := hpage.lt hs.inv.pages
  have hal := hpage.aligned
  have hhead : fl[0]? = some pa := by rw [hfl]; rfl
  have hproc : s'.procs i = s.procs i := by rw [procs_eq ho.rest]
  -- the leaves of the new pages
  have hleaf : ∀ k < imagePages va, ∀ m : Mem,
      Agree m s'.mem (pa + k * pgSize) (pa + k * pgSize + 4096) →
      Shows s' i (va / 4096 * 4096 + k * pgSize) (pa + k * pgSize) m := by
    intro k hk m hag
    have hmax := ho.range k hk
    have hpages := imagePages_le va
    simp only [pgSize, maxVa] at hmax hal hag ⊢
    refine ⟨by simp only [pgSize]; omega, by simp only [pgSize]; omega,
      ⟨_, ?_, entry_pa ?_ ?_ (by decide : imagePerm < 1024), ?_⟩, hag⟩
    · have hoff : (va / 4096 * 4096 + k * 4096) / 4096 - va / 4096 * 4096 / 4096
          = k := by omega
      rw [hproc, ho.mapped.leaves _ (by omega), if_pos ?_, hoff]
      unfold inPages
      omega
    · simp only [pgSize]; omega
    · omega
    · rw [entry_and (by decide) (by decide)]
      decide
  have hfirst : 0 < imagePages va → Seen s' i s.mem (va / 4096 * 4096 + 0 * pgSize)
      none := by
    intro hk
    refine (hleaf 0 hk (fun _ => 0) fun x hlo hhi => ?_).seen_zero s.mem
    obtain ⟨y, rfl⟩ := Nat.exists_eq_add_of_le hlo
    rw [Nat.zero_mul, Nat.add_zero] at hhi ⊢
    exact ho.zero y (by simp only [pgSize]; omega)
  have hsecond : 1 < imagePages va → Seen s' i s.mem (va / 4096 * 4096 + 1 * pgSize)
      (some (pa + pgSize)) := by
    intro hk
    have hunal : va % pgSize ≠ 0 := by
      intro hal
      rw [imagePages_aligned hal hva] at hk
      exact absurd hk (Nat.lt_irrefl 1)
    obtain ⟨hnext, htable⟩ := hbehind.resolve_left hunal pa hhead
    have hkept : Agree s.mem s'.mem (pa + pgSize) (pa + pgSize + 4096) := by
      by_cases hfree : own (pa + pgSize) = .free
      · -- still free
        have hmem := (hs.inv.pages.free _).mp hfree
        rw [hfl] at hmem hnext
        refine ho.spare _ ?_
        rcases List.mem_cons.mp hmem with heq | hmem
        · simp only [pgSize] at heq
          omega
        · refine (List.mem_append.mp hmem).resolve_left fun htaken => hnext ?_
          rw [List.tail_cons, List.take_append, List.take_of_length_le htk]
          exact List.mem_append_left _ htaken
      · exact ho.agree _ (by simp only [pgSize] at hal ⊢; omega) hfree htable
    have hshow := hleaf 1 hk s.mem (by rw [Nat.one_mul]; exact hkept)
    rw [Nat.one_mul] at hshow ⊢
    exact hshow.seen
  simp only [Gift.news, Gift.sources, hhead, Option.map_some]
  obtain hk | hk | hk : imagePages va = 0 ∨ imagePages va = 1 ∨ imagePages va = 2 := by
    have := imagePages_le va
    omega
  · rw [hk]
    exact List.Forall₂.nil
  · rw [hk] at hfirst ⊢
    exact .cons (hfirst (by decide)) .nil
  · rw [hk] at hfirst hsecond ⊢
    exact .cons (hfirst (by decide)) (.cons (hsecond (by decide)) .nil)

/-- What every one of them shows. -/
theorem wp_giftSeen {g : Gift} (hg : g.Ready cfg built own fl s i)
    (hroom : Room bad g.pages fl) :
    Wp bad E (g.run cfg i) (fun _ s' =>
      List.Forall₂ (Seen s' i s.mem) (g.news s) (g.sources fl)) s := by
  -- one page, found on the list
  have hone : ∀ {a k : Nat} {s' : Kernel},
      (∃ pa, fl[k]? = some pa ∧ Shows s' i a pa s.mem) →
      List.Forall₂ (Seen s' i s.mem) [a] [fl[k]?] := by
    intro a k s' hres
    obtain ⟨pa, hpa, hshow⟩ := hres
    rw [hpa]
    exact .cons hshow.seen .nil
  cases g with
  | allocate =>
      simp only [Gift.run, wp_bind, wp_pure]
      exact (wp_allocateShown hs hE hg.1 hg.2 hroom).mono fun _ _ => hone
  | fault stval =>
      exact (wp_faultShown hs hE hg.1 hg.2.1 hg.2.2 hroom).mono fun _ _ => hone
  | stack =>
      simp only [Gift.run, wp_bind, wp_pure]
      exact (wp_stackShown hs hg.1 hg.2.1 hg.2.2 hroom).mono fun _ _ => hone
  | segment va size =>
      simp only [Gift.run, wp_bind, wp_pure]
      exact wp_segmentSeen hs hE hg.1 hg.2.1 hg.2.2

end Gift

/-- What is known of an operation that returned. -/
theorem Gift.Gives.seen {g : Gift} (hgive : g.Gives cfg i fl s s')
    (hs : Steady cfg heap s own fl built) (hg : g.Ready cfg built own fl s i) :
    List.Forall₂ (Seen s' i s.mem) (g.news s) (g.sources fl) := by
  obtain ⟨es, hrun, hclean | hlen⟩ := hgive
  · have hroom : Room outOfPages g.pages fl := Or.inr rfl
    exact (wp_giftSeen (E := fun _ _ => True) hs (fun _ _ => trivial) hg
      hroom).of_run hrun hclean
  · have hroom : Room (fun _ => False) g.pages fl := Or.inl hlen
    exact (wp_giftSeen (E := fun _ _ => True) hs (fun _ _ => trivial) hg
      hroom).of_run hrun fun _ _ h => h

-- ==== two runs

theorem Twins.news {g : Gift} (ht : Twins fl s t) : g.news t = g.news s := by
  cases g with
  | allocate =>
      show [t.gUfreePage] = [s.gUfreePage]
      rw [ht.ufree]
  | fault stval => rfl
  | stack => rfl
  | segment va size => rfl

theorem Twins.ready {g : Gift} (ht : Twins fl s t)
    (hg : g.Ready cfg built own fl s i) : g.Ready cfg built own fl t i := by
  cases g with
  | allocate => exact ⟨current_of_rest ht.rest hg.1, hg.2⟩
  | fault stval => exact ⟨current_of_rest ht.rest hg.1, hg.2⟩
  | stack =>
      obtain ⟨hslot, hi, hspares⟩ := hg
      refine ⟨?_, hi, ?_⟩
      · unfold freeSlot
        rw [procs_eq ht.rest]
        exact hslot
      · rw [hostFiles_eq ht.rest]
        exact hspares
  | segment va size => exact hg

/-- Two processes that see the same pages of two memories. -/
theorem seen_same_iff {m m' : Mem} {l : List Nat} {srcs : List (Option Nat)}
    (h : List.Forall₂ (Seen s' i m) l srcs)
    (h' : List.Forall₂ (Seen t' i m') l srcs) :
    (∀ a ∈ l, ∀ x < pgSize, userByte s' i (a + x) = userByte t' i (a + x)) ↔
      ∀ p, some p ∈ srcs → Agree m m' p (p + 4096) := by
  induction h with
  | nil => exact iff_of_true nofun nofun
  | @cons a src l srcs hsee _ ih =>
      obtain ⟨hsee', hrest'⟩ := List.forall₂_cons.mp h'
      rw [List.forall_mem_cons, ih hrest']
      -- the page at hand shows the same bytes just when its source does
      have hpage : (∀ x < pgSize, userByte s' i (a + x) = userByte t' i (a + x)) ↔
          ∀ p, src = some p → Agree m m' p (p + 4096) := by
        cases src with
        | none =>
            refine iff_of_true (fun x hx => ?_) nofun
            rw [hsee x hx, hsee' x hx]
            rfl
        | some q =>
            have hbyte : ∀ x < pgSize,
                userByte s' i (a + x) = userByte t' i (a + x) ↔
                  m' (q + x) = m (q + x) := by
              intro x hx
              rw [hsee x hx, hsee' x hx, Option.some_inj]
              exact eq_comm
            constructor
            · intro hall p hp y hlo hhi
              obtain rfl := Option.some.inj hp
              obtain ⟨x, rfl⟩ := Nat.exists_eq_add_of_le hlo
              have hx : x < pgSize := by simp only [pgSize]; omega
              exact (hbyte x hx).mp (hall x hx)
            · intro hall x hx
              refine (hbyte x hx).mpr (hall q rfl (q + x) (Nat.le_add_right q x) ?_)
              simp only [pgSize] at hx
              omega
      rw [hpage]
      constructor
      · rintro ⟨hhead, htail⟩ p hp
        rcases List.mem_cons.mp hp with heq | hp
        · exact hhead p heq.symm
        · exact htail p hp
      · intro hall
        exact ⟨fun p hp => hall p (hp ▸ List.mem_cons_self ..),
          fun p hp => hall p (List.mem_cons_of_mem src hp)⟩

theorem Twins.sys {q : List Slot} {c : Slot} (ht : Twins fl s t)
    (hS : Sys cfg heap s own fl q c) : Sys cfg heap t own fl q c := by
  have hst := ht.steady hS.steady
  have hview : schedView t = schedView s := by
    rw [ht.same]
    rfl
  refine ⟨hst.inv.built_congr fun i => ?_, hS.running.congr hview, hS.apart,
    hst.aligned, hst.word⟩
  unfold InUse
  rw [procs_eq ht.rest]

/-- `sys_user_allocate_page` where the next address is unmapped. -/
theorem Sys.allocateGives {q : List Slot} {c : Slot}
    (hS : Sys cfg heap s own fl q c) (hlow : s.gUfreePage < maxVa)
    (hnew : leaf s.mem (s.procs c).pagetable s.gUfreePage = none)
    (hlen : 4 ≤ fl.length) : ∃ s', Gift.allocate.Gives cfg c fl s s' := by
  have hret : Returns (Gift.allocate.run cfg c) (fun _ _ => True) s := by
    simp only [Gift.run, Returns, wp_bind, wp_pure]
    exact (wp_allocateSpace hS (Or.inl ⟨hlow, hnew⟩) (Or.inl hlen)).mono
      fun _ _ _ => trivial
  obtain ⟨es, _, s', hrun, _⟩ := hret.elim
  exact ⟨s', es, hrun, Or.inr hlen⟩

/-- One byte of the first free page, changed. -/
theorem twins_flip {pa : Nat} (hpa : fl[0]? = some pa) :
    ∃ t, Twins fl s t ∧ t.mem (pa + 8) ≠ s.mem (pa + 8) := by
  let m : Mem := Function.update s.mem (pa + 8) (s.mem (pa + 8) + 1)
  refine ⟨{ s with mem := m }, ⟨rfl, fun x hx => ?_⟩, ?_⟩
  · apply Function.update_of_ne
    intro heq
    exact hx pa (List.mem_of_getElem? hpa) ⟨Nat.le_of_eq heq.symm, by omega⟩
  · show Function.update s.mem (pa + 8) _ (pa + 8) ≠ _
    rw [Function.update_self]
    generalize s.mem (pa + 8) = b
    intro h
    have hb := congrArg UInt8.toNat h
    rw [UInt8.toNat_add, UInt8.toNat_one] at hb
    have := b.toNat_lt
    omega

/-- The small machine after boot and a twin of it, before and after an
allocation. -/
theorem tinyMachine_twins : ∃ s t own fl pa s' t',
    KernelRun anyEvent (tinyMachine 0x10000) anyOp [] s ∧
    Sys (tinyMachine 0x10000) (fun _ _ _ => False) s own fl [] 0 ∧
    Twins fl s t ∧ fl[0]? = some pa ∧ t.mem (pa + 8) ≠ s.mem (pa + 8) ∧
    Gift.allocate.Gives (tinyMachine 0x10000) 0 fl s s' ∧
    Gift.allocate.Gives (tinyMachine 0x10000) 0 fl t t' := by
  obtain ⟨s, own, fl, hrun, hb, hone⟩ :=
    smallMachine_run (C := anyOp) tinyImage_low
  have hlow : s.gUfreePage < maxVa := by
    rw [hb.ufree]
    decide
  have hsp := hb.sys.inv.space 0 hb.sys.current
  have hnew : leaf s.mem (s.procs 0).pagetable s.gUfreePage = none :=
    hsp.unmapped (Nat.lt_trans hlow (by decide))
      (fun _ => by rw [hb.ufree]; decide)
      (hone.unrecorded hb (by decide) 0 hb.sys.running.current)
  have hlen : 4 ≤ fl.length := by
    have hlen := hone.length
    rw [smallMachine_pool] at hlen
    omega
  obtain ⟨pa, hpa⟩ : ∃ pa, fl[0]? = some pa :=
    ⟨_, List.getElem?_eq_getElem (by omega)⟩
  obtain ⟨t, ht, hne⟩ := twins_flip (s := s) hpa
  obtain ⟨s', hs'⟩ := hb.sys.allocateGives hlow hnew hlen
  have hnew' : leaf t.mem (t.procs 0).pagetable t.gUfreePage = none := by
    rw [procs_eq ht.rest, ht.ufree, ← hnew]
    refine leaf_congr hsp.regions.tables fun path r hr => ?_
    exact ht.agree hb.sys.inv.pages (hb.sys.inv.pages.table_aligned path r hr)
      (by rw [hr]; exact Owner.noConfusion)
  obtain ⟨t', ht'⟩ := (ht.sys hb.sys).allocateGives
    (by rw [ht.ufree]; exact hlow) hnew' hlen
  exact ⟨s, t, own, fl, pa, s', t', hrun, hb.sys, ht, hpa, hne, hs', ht'⟩

/-- Two runs from twin states show the same bytes at the new pages just
when the pages of memory they show held the same bytes in both states to
begin with. -/
theorem recycled_bytes_same_iff {g : Gift}
    (hs : Steady cfg heap s own fl built) (ht : Twins fl s t)
    (hg : g.Ready cfg built own fl s i) (hgive : g.Gives cfg i fl s s')
    (hgive' : g.Gives cfg i fl t t') :
    (∀ a ∈ g.news s, ∀ x < pgSize,
      userByte s' i (a + x) = userByte t' i (a + x)) ↔
    ∀ p, some p ∈ g.sources fl → Agree s.mem t.mem p (p + 4096) := by
  have hseen' := hgive'.seen (ht.steady hs) (ht.ready hg)
  rw [ht.news] at hseen'
  exact seen_same_iff (hgive.seen hs hg) hseen'

/-- The twins of the small machine do not show the same bytes. -/
theorem recycled_bytes_same_iff_allocate : ∃ s t own fl s' t',
    Steady (tinyMachine 0x10000) (fun _ _ _ => False) s own fl (InUse s) ∧
    Twins fl s t ∧
    Gift.allocate.Ready (tinyMachine 0x10000) (InUse s) own fl s 0 ∧
    Gift.allocate.Gives (tinyMachine 0x10000) 0 fl s s' ∧
    Gift.allocate.Gives (tinyMachine 0x10000) 0 fl t t' ∧
    ¬ ∀ a ∈ Gift.allocate.news s, ∀ x < pgSize,
      userByte s' 0 (a + x) = userByte t' 0 (a + x) := by
  obtain ⟨s, t, own, fl, pa, s', t', _, hS, ht, hpa, hne, hs', ht'⟩ :=
    tinyMachine_twins
  have hready : Gift.allocate.Ready (tinyMachine 0x10000) (InUse s) own fl s 0 :=
    ⟨hS.running.current, hS.current⟩
  refine ⟨s, t, own, fl, s', t', hS.steady, ht, hready, hs', ht', fun hsame => ?_⟩
  have hag := (recycled_bytes_same_iff hS.steady ht hready hs' ht').mp hsame pa
    (hpa ▸ List.mem_singleton_self _)
  exact hne (hag (pa + 8) (by omega) (by omega))

/-- After boot, and with one byte of the first free page changed: the
page that `sys_user_allocate_page` returns shows the difference. -/
theorem allocate_shows_residue : ∃ s t own fl s' t',
    KernelRun anyEvent (tinyMachine 0x10000) anyOp [] s ∧
    Sys (tinyMachine 0x10000) (fun _ _ _ => False) s own fl [] 0 ∧
    Twins fl s t ∧
    Gift.allocate.Gives (tinyMachine 0x10000) 0 fl s s' ∧
    Gift.allocate.Gives (tinyMachine 0x10000) 0 fl t t' ∧
    userByte s' 0 (s.gUfreePage + 8) ≠ userByte t' 0 (s.gUfreePage + 8) := by
  obtain ⟨s, t, own, fl, pa, s', t', hrun, hS, ht, hpa, hne, hs', ht'⟩ :=
    tinyMachine_twins
  have hready : Gift.allocate.Ready (tinyMachine 0x10000) (InUse s) own fl s 0 :=
    ⟨hS.running.current, hS.current⟩
  have hseen := hs'.seen hS.steady hready
  have hseen' := ht'.seen (ht.steady hS.steady) (ht.ready hready)
  rw [ht.news] at hseen'
  refine ⟨s, t, own, fl, s', t', hrun, hS, ht, hs', ht', ?_⟩
  have hbyte := (List.forall₂_cons.mp hseen).1 8 (by decide)
  have hbyte' := (List.forall₂_cons.mp hseen').1 8 (by decide)
  rw [hpa] at hbyte hbyte'
  rw [hbyte, hbyte', Ne, Option.some_inj]
  exact hne.symm

end Pke
