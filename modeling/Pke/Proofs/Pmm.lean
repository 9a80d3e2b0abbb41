/-
The physical page allocator keeps its list.

The free list is threaded through the first doubleword of the free
pages, so every fact about it is a fact about memory, and memory is
what clients of the allocator write to. `FreeList` reads the list off
the links; `Pool` adds where its pages lie. The two operations are a
push and a pop of the chain, and a write is harmless exactly when it
misses the link words (`Pool.write`) — which writes into allocated
pages do, page addresses being aligned.

# Conservation

`page_allocator_correct` follows a client that holds a list of pages,
takes and returns them, and scribbles into the ones it holds. Free and
held pages together are always a permutation of the pages
`create_freepage_list` started with.
-/
import Pke.Lib.Chain
import Pke.Model.Config
import Pke.Model.Pmm
import Mathlib.Data.List.Perm.Basic
import Mathlib.Data.List.Range

namespace Pke

open ByteMem Traced Intrusive

/-- A stored pointer: 0 is NULL. -/
def link (x : Nat) : Option Nat := if x = 0 then none else some x

/-- The successor of a free page. -/
def freeNext (m : Mem) (p : Nat) : Option Nat := link (load m 8 p)

/-- The free list holds exactly `fl`, front first. -/
def FreeList (s : Kernel) (fl : List Nat) : Prop :=
  Chain (freeNext s.mem) (link s.gFreeMemList) fl

/-- `p` is a page address the allocator accepts. -/
structure PageIn (s : Kernel) (p : Nat) : Prop where
  aligned : p % pgSize = 0
  lo : s.freeMemStartAddr ≤ p
  hi : p < s.freeMemEndAddr

/-- The free list is `fl` and lies inside the managed memory. -/
structure Pool (s : Kernel) (fl : List Nat) : Prop where
  chain : FreeList s fl
  page : ∀ p ∈ fl, PageIn s p
  start_pos : 0 < s.freeMemStartAddr
  end_le : s.freeMemEndAddr ≤ 2 ^ 63

/-- The state with memory, free list and page accounts blanked out: all
that the memory manager leaves alone. -/
def Kernel.rest (s : Kernel) : Kernel :=
  { s with
    mem := fun _ => 0
    gFreeMemList := 0
    acct := fun _ => { tickCount := 0, totalTickCount := 0, totalMemCount := 0 } }

variable {bad : Event → Prop} {E : Halt → Kernel → Prop}
variable {s s' : Kernel} {fl t : List Nat} {p q pa : Nat}

-- ==== pages and the rest

theorem link_zero : link 0 = none := rfl

theorem link_of_pos (hp : 0 < p) : link p = some p := by
  unfold link
  rw [if_neg (by omega)]

theorem link_eq_some (h : link p = some q) : p = q ∧ p ≠ 0 := by
  unfold link at h
  split at h
  case isTrue => cases h
  case isFalse hne => exact ⟨Option.some.inj h, hne⟩

/-- Distinct pages do not overlap. -/
theorem page_disjoint (hp : p % pgSize = 0) (hq : q % pgSize = 0)
    (hne : p ≠ q) : p + 4096 ≤ q ∨ q + 4096 ≤ p := by
  simp only [pgSize] at hp hq
  omega

theorem freeMemStartAddr_eq (hr : s'.rest = s.rest) :
    s'.freeMemStartAddr = s.freeMemStartAddr := by
  show s'.rest.freeMemStartAddr = s.rest.freeMemStartAddr
  rw [hr]

theorem freeMemEndAddr_eq (hr : s'.rest = s.rest) :
    s'.freeMemEndAddr = s.freeMemEndAddr := by
  show s'.rest.freeMemEndAddr = s.rest.freeMemEndAddr
  rw [hr]

theorem procs_eq (hr : s'.rest = s.rest) : s'.procs = s.procs := by
  show s'.rest.procs = s.rest.procs
  rw [hr]

theorem hostFiles_eq (hr : s'.rest = s.rest) : s'.hostFiles = s.hostFiles := by
  show s'.rest.hostFiles = s.rest.hostFiles
  rw [hr]

theorem PageIn.congr (hr : s'.rest = s.rest) (hp : PageIn s p) :
    PageIn s' p where
  aligned := hp.aligned
  lo := by rw [freeMemStartAddr_eq hr]; exact hp.lo
  hi := by rw [freeMemEndAddr_eq hr]; exact hp.hi

theorem Pool.nodup (hp : Pool s fl) : fl.Nodup := hp.chain.nodup

/-- The links determine the list. -/
theorem Pool.list_eq {fl' : List Nat} (hp : Pool s fl) (h : FreeList s fl') :
    fl' = fl := h.unique hp.chain

theorem Pool.pos (hp : Pool s fl) (hmem : p ∈ fl) : 0 < p :=
  Nat.lt_of_lt_of_le hp.start_pos (hp.page p hmem).lo

/-- A free page begins with a 0: its link is a page address. -/
theorem Pool.first_byte (hp : Pool s fl) (hmem : p ∈ fl) : s.mem p = 0 := by
  have hlink : load s.mem 8 p % 256 = 0 := by
    rcases hp.chain.next_mem hmem with hnone | ⟨q, hq, hsome⟩
    · unfold freeNext link at hnone
      split at hnone
      case isTrue h => rw [h]
      case isFalse => cases hnone
    · rw [(link_eq_some hsome).1]
      have hal := (hp.page q hq).aligned
      simp only [pgSize] at hal
      omega
  have hdigit := load_digit (m := s.mem) (a := p) (by decide : 0 < 8)
  rw [pow_zero, Nat.div_one, hlink, Nat.add_zero] at hdigit
  exact UInt8.toNat_inj.mp hdigit.symm

/-- The list survives any write that misses its link words. -/
theorem Pool.write (hp : Pool s fl) (hr : s'.rest = s.rest)
    (hhead : s'.gFreeMemList = s.gFreeMemList)
    (hag : ∀ p ∈ fl, Agree s.mem s'.mem p (p + 8)) : Pool s' fl where
  chain := by
    unfold FreeList
    rw [hhead]
    refine hp.chain.congr fun p hmem => ?_
    unfold freeNext
    rw [load_agree (hag p hmem)]
  page p hmem := (hp.page p hmem).congr hr
  start_pos := by rw [freeMemStartAddr_eq hr]; exact hp.start_pos
  end_le := by rw [freeMemEndAddr_eq hr]; exact hp.end_le

-- ==== the operations

/-- `alloc_page` pops the list; NULL means it was empty. -/
theorem wp_allocPage (hp : Pool s fl) :
    Wp bad E allocPage (fun p s' => s'.rest = s.rest ∧ s'.mem = s.mem ∧
      ((fl = [] ∧ p = 0 ∧ ¬ bad (.alloc 0) ∧ Pool s' [])
        ∨ ∃ t, fl = p :: t ∧ Pool s' t)) s := by
  simp only [allocPage, wp_bind, wp_get]
  cases fl with
  | nil =>
      have hnull : s.gFreeMemList = 0 := by
        have hhead : link s.gFreeMemList = none := hp.chain
        unfold link at hhead
        split at hhead
        case isTrue h => exact h
        case isFalse => cases hhead
      simp only [hnull, ne_eq, not_true, if_false, wp_bind, countPages,
        wp_modify, wp_emit, wp_pure]
      by_cases hbad : bad (.alloc 0)
      · exact Or.inl hbad
      · refine Or.inr ⟨rfl, trivial, Or.inl ⟨trivial, trivial, hbad, ?_⟩⟩
        exact hp.write rfl hnull.symm fun p hmem => absurd hmem List.not_mem_nil
  | cons p t =>
      obtain ⟨hhead, hnz⟩ := link_eq_some hp.chain.1
      rw [hhead] at hnz ⊢
      simp only [hnz, ne_eq, not_false_eq_true, if_true, wp_bind, ld, wp_get,
        wp_pure, countPages, wp_modify, wp_emit]
      refine Or.inr ⟨rfl, trivial, Or.inr ⟨t, rfl, ?_⟩⟩
      refine ⟨hp.chain.2, fun r hr => ?_, hp.start_pos, hp.end_le⟩
      exact (hp.page r (List.mem_cons_of_mem _ hr)).congr (by rfl)

/-- `free_page` of a page that is not on the list pushes it. -/
theorem wp_freePage (hp : Pool s fl)
    (hpg : PageIn s pa ∨ ∀ e s', E e s') (hfree : pa ∉ fl) :
    Wp bad E (freePage pa) (fun _ s' => s'.rest = s.rest ∧ PageIn s pa ∧
      s'.mem = store s.mem 8 pa s.gFreeMemList ∧ Pool s' (pa :: fl)) s := by
  simp only [freePage, wp_bind, wp_get]
  by_cases hin : PageIn s pa
  · have hchk : ¬ (pa % pgSize ≠ 0 ∨ pa < s.freeMemStartAddr
        ∨ pa ≥ s.freeMemEndAddr) := by
      have := hin.aligned
      have := hin.lo
      have := hin.hi
      omega
    simp only [if_neg hchk, wp_bind, sd, onMem, countPages, wp_modify, wp_emit]
    have hpos : 0 < pa := Nat.lt_of_lt_of_le hp.start_pos hin.lo
    refine Or.inr ⟨rfl, hin, trivial, ⟨link_of_pos hpos, ?_⟩, ?_, hp.start_pos,
      hp.end_le⟩
    · -- the new head links to the old one, the other links are untouched
      have hsmall : s.gFreeMemList < 256 ^ 8 := by
        cases fl with
        | nil =>
            have hhead : link s.gFreeMemList = none := hp.chain
            unfold link at hhead
            split at hhead
            case isTrue h => rw [h]; decide
            case isFalse => cases hhead
        | cons q t =>
            have hq := (hp.page q (List.mem_cons_self ..)).hi
            have hend := hp.end_le
            rw [(link_eq_some hp.chain.1).1]
            omega
      have hlink : freeNext (store s.mem 8 pa s.gFreeMemList) pa
          = link s.gFreeMemList := by
        unfold freeNext
        rw [load_store, Nat.mod_eq_of_lt hsmall]
      show Chain (freeNext (store s.mem 8 pa s.gFreeMemList)) _ fl
      rw [hlink]
      refine hp.chain.congr fun q hq => ?_
      unfold freeNext
      have hdis := page_disjoint hin.aligned (hp.page q hq).aligned
        fun hpq => hfree (hpq ▸ hq)
      rw [load_agree (store_agree s.mem (by omega))]
    · intro q hq
      rcases List.mem_cons.mp hq with rfl | hq
      · exact hin.congr (by rfl)
      · exact (hp.page q hq).congr (by rfl)
  · have hE : ∀ e s', E e s' := hpg.resolve_left hin
    have hchk : pa % pgSize ≠ 0 ∨ pa < s.freeMemStartAddr
        ∨ pa ≥ s.freeMemEndAddr := by
      by_contra hno
      exact hin ⟨by omega, by omega, by omega⟩
    simp only [if_pos hchk, panic, wp_halt]
    exact hE _ _

-- ==== initial list

/-- The pages of `[start, stop)` that `create_freepage_list` frees, in
the order it frees them. -/
def poolPages (start stop : Nat) : List Nat :=
  (List.range ((stop - 1 - start) / pgSize)).map fun k => start + pgSize * k

theorem poolPages_nil {start stop : Nat} (h : ¬ start + pgSize < stop) :
    poolPages start stop = [] := by
  have hzero : (stop - 1 - start) / pgSize = 0 := by
    simp only [pgSize] at h ⊢
    omega
  unfold poolPages
  rw [hzero]
  rfl

theorem poolPages_cons {start stop : Nat} (h : start + pgSize < stop) :
    poolPages start stop = start :: poolPages (start + pgSize) stop := by
  have hsucc : (stop - 1 - start) / pgSize
      = (stop - 1 - (start + pgSize)) / pgSize + 1 := by
    simp only [pgSize] at h ⊢
    omega
  unfold poolPages
  rw [hsucc, List.range_succ_eq_map, List.map_cons, List.map_map]
  simp only [Nat.mul_zero, Nat.add_zero, List.cons.injEq, true_and]
  refine List.map_congr_left fun k _ => ?_
  simp only [Function.comp_apply, Nat.succ_eq_add_one, pgSize]
  omega

theorem mem_poolPages {start stop : Nat} : p ∈ poolPages start stop ↔
    start ≤ p ∧ p + pgSize < stop ∧ (p - start) % pgSize = 0 := by
  unfold poolPages
  rw [List.mem_map]
  constructor
  · rintro ⟨k, hk, rfl⟩
    rw [List.mem_range] at hk
    simp only [pgSize] at hk ⊢
    omega
  · rintro ⟨hlo, hhi, hal⟩
    refine ⟨(p - start) / pgSize, ?_, ?_⟩
    · rw [List.mem_range]
      simp only [pgSize] at hhi hal ⊢
      omega
    · simp only [pgSize] at hal ⊢
      omega

theorem poolPages_nodup (start stop : Nat) : (poolPages start stop).Nodup := by
  refine List.Nodup.map ?_ List.nodup_range
  intro a b hab
  simp only [pgSize] at hab
  omega

/-- The loop frees every page it passes. -/
theorem wp_freeRange {stop : Nat} :
    ∀ fuel p s fl, (stop - 1 - p) / pgSize ≤ fuel → Pool s fl →
      p % pgSize = 0 → s.freeMemStartAddr ≤ p → stop ≤ s.freeMemEndAddr →
      (∀ q ∈ fl, q < p) →
      Wp bad E (freeRange stop fuel p) (fun _ s' => s'.rest = s.rest ∧
        Pool s' ((poolPages p stop).reverse ++ fl)) s := by
  intro fuel
  induction fuel with
  | zero =>
      intro p s fl hfuel hp _ _ _ _
      have hlast : ¬ p + pgSize < stop := by
        simp only [pgSize] at hfuel ⊢
        omega
      rw [poolPages_nil hlast]
      exact (wp_pure _).mpr ⟨rfl, hp⟩
  | succ fuel ih =>
      intro p s fl hfuel hp hal hlo hhi hbelow
      unfold freeRange
      by_cases hmore : p + pgSize < stop
      · rw [if_pos hmore, wp_bind]
        have hin : PageIn s p := ⟨hal, hlo, by simp only [pgSize] at hmore; omega⟩
        have hnew : p ∉ fl := fun hmem => Nat.lt_irrefl p (hbelow p hmem)
        refine (wp_freePage hp (Or.inl hin) hnew).mono fun _ s₁ hres => ?_
        obtain ⟨hr₁, _, _, hp₁⟩ := hres
        rw [poolPages_cons hmore]
        refine (ih (p + pgSize) s₁ (p :: fl) ?_ hp₁ ?_ ?_ ?_ ?_).mono ?_
        · simp only [pgSize] at hfuel hmore ⊢
          omega
        · simp only [pgSize] at hal ⊢
          omega
        · rw [freeMemStartAddr_eq hr₁]
          omega
        · rw [freeMemEndAddr_eq hr₁]
          exact hhi
        · intro q hq
          simp only [pgSize]
          rcases List.mem_cons.mp hq with rfl | hq
          · omega
          · have := hbelow q hq
            omega
        · intro _ s₂ hres
          refine ⟨hres.1.trans hr₁, ?_⟩
          rw [List.reverse_cons, List.append_assoc]
          exact hres.2
      · rw [if_neg hmore, poolPages_nil hmore]
        exact (wp_pure _).mpr ⟨rfl, hp⟩

theorem roundUp_eq {a : Nat} (hpos : 0 < a) (hlt : a < 2 ^ 63) :
    roundUp a pgSize = ((a - 1) / 4096 + 1) * 4096 := by
  unfold roundUp u64
  simp only [pgSize]
  omega

/-- The panic of `pmm_init` when memory does not hold the kernel. -/
def memSizePanic : Halt :=
  .panic "Error when recomputing physical memory size (g_mem_size).\n"

theorem Config.end_pos (cfg : Config) : kernBase < cfg.kernelEnd := by
  have h1 := cfg.trap_base
  have h2 := cfg.trap_text
  have h3 := cfg.etext_end
  omega

/-- `create_freepage_list` frees all pages of the range, last page on
top. -/
theorem wp_createFreepageList {start stop : Nat}
    (hstart : s.freeMemStartAddr = start) (hstop : s.freeMemEndAddr = stop)
    (hal : start % pgSize = 0) (hpos : 0 < start) (hlt : start < 2 ^ 63)
    (hend : stop ≤ 2 ^ 63) :
    Wp bad E (createFreepageList start stop) (fun _ s' => s'.rest = s.rest ∧
      Pool s' (poolPages start stop).reverse) s := by
  have hround : roundUp start pgSize = start := by
    rw [roundUp_eq hpos hlt]
    simp only [pgSize] at hal
    omega
  simp only [createFreepageList, wp_bind, wp_modify, hround]
  have hp : Pool { s with gFreeMemList := 0 } [] :=
    ⟨link_zero, fun p hmem => absurd hmem List.not_mem_nil,
      hstart ▸ hpos, hstop ▸ hend⟩
  have hfuel : (stop - 1 - start) / pgSize ≤ (stop - start) / pgSize := by
    simp only [pgSize]
    omega
  refine (wp_freeRange _ start _ [] hfuel hp hal (Nat.le_of_eq hstart)
    (Nat.le_of_eq hstop.symm) ?_).mono fun _ s' hres => ?_
  · exact fun q hmem => absurd hmem List.not_mem_nil
  · rw [List.append_nil] at hres
    exact hres

/-- What `pmm_init` sets besides the list. -/
def pmmGlobals (kernelEnd : Nat) (s : Kernel) : Kernel :=
  { s with
    freeMemStartAddr := roundUp kernelEnd pgSize
    gMemSize := min pkeMaxAllowableRam s.gMemSize
    freeMemEndAddr := min pkeMaxAllowableRam s.gMemSize + dramBase }

/-- `pmm_init` builds the list of all pages between the kernel's end
and the end of memory. -/
theorem wp_pmmInit {kernelEnd : Nat} (hlo : kernBase ≤ kernelEnd)
    (hhi : kernelEnd < 2 ^ 63)
    (hE : s.gMemSize < kernelEnd - kernBase ∨
      pkeMaxAllowableRam < kernelEnd - kernBase → ∀ s', E memSizePanic s') :
    Wp bad E (pmmInit kernelEnd) (fun _ s' =>
      s'.rest = (pmmGlobals kernelEnd s).rest ∧
      Pool s' (poolPages s'.freeMemStartAddr s'.freeMemEndAddr).reverse) s := by
  have hpos : 0 < kernelEnd := Nat.lt_of_lt_of_le (by decide) hlo
  have hround := roundUp_eq hpos hhi
  have hsize : u64 (kernelEnd + (2 ^ 64 - kernBase)) = kernelEnd - kernBase := by
    unfold u64
    omega
  simp only [pmmInit, wp_bind, wp_modify, wp_get, hsize]
  rw [wp_ite]
  refine ⟨fun hsmall => ?_, fun hfit => ?_⟩
  · simp only [panic, wp_halt]
    refine hE ?_ _
    rw [Nat.min_def] at hsmall
    split at hsmall
    case isTrue => exact Or.inr hsmall
    case isFalse => exact Or.inl hsmall
  · have hmin : min pkeMaxAllowableRam s.gMemSize ≤ pkeMaxAllowableRam :=
      Nat.min_le_left ..
    simp only [wp_bind, wp_modify, wp_get]
    show Wp bad E (createFreepageList _ _) _ (pmmGlobals kernelEnd s)
    refine (wp_createFreepageList (by rfl) (by rfl) ?_ ?_ ?_ ?_).mono
      fun _ s' hres => ?_
    · rw [hround]
      simp only [pgSize]
      omega
    · rw [hround]
      omega
    · rw [hround]
      simp only [pkeMaxAllowableRam, kernBase] at hmin hfit hlo
      omega
    · simp only [pkeMaxAllowableRam, dramBase] at hmin ⊢
      omega
    · obtain ⟨hr, hp⟩ := hres
      refine ⟨hr, ?_⟩
      rw [freeMemStartAddr_eq hr, freeMemEndAddr_eq hr]
      exact hp

-- ==== clients

/-- What a client of the allocator does. -/
inductive PoolOp where
  | alloc
  | free (p : Nat)
  | write (a : Nat) (b : UInt8)

/-- One action of a client that holds the pages `held`. It returns only
pages it holds and writes only into pages it holds. -/
def poolStep (held : List Nat) : PoolOp → K (List Nat)
  | .alloc => do
      let p ← allocPage
      return if p = 0 then held else p :: held
  | .free p =>
      if p ∈ held then do
        freePage p
        return held.erase p
      else return held
  | .write a b =>
      if roundDown a pgSize ∈ held then do
        onMem fun m => store m 1 a b.toNat
        return held
      else return held

/-- A client's actions, one after another. -/
def poolRun : List PoolOp → List Nat → K (List Nat)
  | [], held => return held
  | op :: ops, held => do
      let held ← poolStep held op
      poolRun ops held

/-- Free and held pages are together the pages of `pages`. -/
structure Conserved (s : Kernel) (pages fl held : List Nat) : Prop where
  pool : Pool s fl
  perm : (fl ++ held).Perm pages
  nodup : pages.Nodup
  page : ∀ p ∈ pages, PageIn s p

variable {pages held : List Nat}

theorem Conserved.disjoint (hc : Conserved s pages fl held) (hf : p ∈ fl)
    (hh : p ∈ held) : False := by
  have hnd : (fl ++ held).Nodup := hc.perm.nodup_iff.mpr hc.nodup
  exact (List.nodup_append.mp hnd).2.2 p hf p hh rfl

theorem Conserved.held_page (hc : Conserved s pages fl held)
    (hh : p ∈ held) : PageIn s p :=
  hc.page p (hc.perm.mem_iff.mp (List.mem_append_right _ hh))

theorem wp_poolStep_alloc (hc : Conserved s pages fl held) :
    Wp bad E (poolStep held .alloc) (fun held' s' => s'.rest = s.rest ∧
      ∃ fl', Conserved s' pages fl' held') s := by
  simp only [poolStep]
  rw [wp_bind]
  refine (wp_allocPage hc.pool).mono fun p s₁ hres => ?_
  obtain ⟨hr, _, hcase⟩ := hres
  have hpage : ∀ p ∈ pages, PageIn s₁ p := fun q hq => (hc.page q hq).congr hr
  rw [wp_pure]
  refine ⟨hr, ?_⟩
  rcases hcase with ⟨rfl, rfl, _, hp⟩ | ⟨t, rfl, hp⟩
  · exact ⟨[], hp, hc.perm, hc.nodup, hpage⟩
  · have hpos := hc.pool.pos (List.mem_cons_self ..)
    rw [if_neg (by omega)]
    refine ⟨t, hp, ?_, hc.nodup, hpage⟩
    exact List.perm_middle.trans hc.perm

theorem wp_poolStep_free (hc : Conserved s pages fl held) :
    Wp bad E (poolStep held (.free p)) (fun held' s' => s'.rest = s.rest ∧
      ∃ fl', Conserved s' pages fl' held') s := by
  simp only [poolStep]
  by_cases hh : p ∈ held
  · rw [if_pos hh, wp_bind]
    have hnew : p ∉ fl := fun hf => hc.disjoint hf hh
    refine (wp_freePage hc.pool (Or.inl (hc.held_page hh)) hnew).mono ?_
    intro _ s₁ hres
    obtain ⟨hr, _, _, hp⟩ := hres
    rw [wp_pure]
    refine ⟨hr, p :: fl, hp, ?_, hc.nodup, fun q hq => (hc.page q hq).congr hr⟩
    refine List.Perm.trans ?_ hc.perm
    refine List.perm_middle.symm.trans ?_
    exact List.Perm.append_left fl (List.perm_cons_erase hh).symm
  · rw [if_neg hh, wp_pure]
    exact ⟨rfl, fl, hc⟩

theorem wp_poolStep_write {a : Nat} {b : UInt8}
    (hc : Conserved s pages fl held) :
    Wp bad E (poolStep held (.write a b)) (fun held' s' => s'.rest = s.rest ∧
      ∃ fl', Conserved s' pages fl' held') s := by
  simp only [poolStep]
  by_cases hh : roundDown a pgSize ∈ held
  · rw [if_pos hh]
    simp only [wp_bind, onMem, wp_modify, wp_pure]
    refine ⟨rfl, fl, hc.pool.write rfl rfl fun p hp => ?_, hc.perm, hc.nodup,
      fun q hq => (hc.page q hq).congr (by rfl)⟩
    -- the page written to is held, so it is none of the free ones
    have hne : p ≠ roundDown a pgSize := fun hpa => hc.disjoint hp (hpa ▸ hh)
    have hdis := page_disjoint (hc.pool.page p hp).aligned
      (hc.held_page hh).aligned hne
    refine store_agree s.mem ?_
    unfold roundDown at hdis
    simp only [pgSize] at hdis
    omega
  · rw [if_neg hh, wp_pure]
    exact ⟨rfl, fl, hc⟩

theorem wp_poolRun (ops : List PoolOp) :
    ∀ {s fl held}, Conserved s pages fl held →
      Wp bad E (poolRun ops held) (fun held' s' => s'.rest = s.rest ∧
        ∃ fl', Conserved s' pages fl' held') s := by
  induction ops with
  | nil => intro s fl held hc; exact (wp_pure _).mpr ⟨rfl, fl, hc⟩
  | cons op ops ih =>
      intro s fl held hc
      unfold poolRun
      rw [wp_bind]
      have hstep : Wp bad E (poolStep held op) (fun held' s' =>
          s'.rest = s.rest ∧ ∃ fl', Conserved s' pages fl' held') s := by
        cases op with
        | alloc => exact wp_poolStep_alloc hc
        | free p => exact wp_poolStep_free hc
        | write a b => exact wp_poolStep_write hc
      refine hstep.mono fun held' s₁ hres => ?_
      obtain ⟨hr, fl', hc'⟩ := hres
      refine (ih hc').mono fun held'' s₂ hres => ?_
      exact ⟨hres.1.trans hr, hres.2⟩

/-- The allocator, over every run of every client: the list stays
NULL-terminated, duplicate-free, aligned and in range; free and held
pages are the initial pool; `alloc_page` returns a page that is not
held, and NULL exactly when all are; `free_page` of a held page never
panics. The only panic of a run is `pmm_init` finding too little
memory. -/
theorem page_allocator_correct (cfg : Config) (ops : List PoolOp) :
    Wp (fun _ => False) (fun e _ => e = memSizePanic)
      (do pmmInit cfg.kernelEnd; poolRun ops [])
      (fun held s => ∃ fl, FreeList s fl ∧ fl.Nodup ∧
        (∀ p ∈ fl, p % pgSize = 0 ∧ s.freeMemStartAddr ≤ p
          ∧ p < s.freeMemEndAddr) ∧
        (fl ++ held).Perm
          (poolPages s.freeMemStartAddr s.freeMemEndAddr) ∧
        Returns allocPage (fun p _ => p ∉ held ∧ (p = 0 ↔
          ∀ q ∈ poolPages s.freeMemStartAddr s.freeMemEndAddr, q ∈ held)) s ∧
        ∀ p ∈ held, Returns (freePage p) (fun _ _ => True) s) cfg.init := by
  rw [wp_bind]
  refine (wp_pmmInit cfg.end_pos.le cfg.end_lt fun _ _ => rfl).mono fun _ s₁ hres => ?_
  obtain ⟨hr₁, hp⟩ := hres
  have hc₁ : Conserved s₁ (poolPages s₁.freeMemStartAddr s₁.freeMemEndAddr)
      (poolPages s₁.freeMemStartAddr s₁.freeMemEndAddr).reverse [] := by
    refine ⟨hp, ?_, poolPages_nodup _ _, fun p hmem => ?_⟩
    · rw [List.append_nil]
      exact List.reverse_perm _
    · exact hp.page p (List.mem_reverse.mpr hmem)
  refine (wp_poolRun ops hc₁).mono fun held s₂ hres => ?_
  obtain ⟨hr₂, fl, hc⟩ := hres
  rw [freeMemStartAddr_eq hr₂, freeMemEndAddr_eq hr₂]
  refine ⟨fl, hc.pool.chain, hc.pool.nodup, fun p hmem => ?_, hc.perm, ?_,
    fun p hh => ?_⟩
  · have hpg := hc.pool.page p hmem
    rw [← freeMemStartAddr_eq hr₂, ← freeMemEndAddr_eq hr₂]
    exact ⟨hpg.aligned, hpg.lo, hpg.hi⟩
  · refine (wp_allocPage hc.pool).mono fun p s₃ hres => ?_
    obtain ⟨_, _, ⟨rfl, rfl, _, _⟩ | ⟨t, rfl, _⟩⟩ := hres
    · -- the list is empty: every page of the pool is held
      have hpos : ∀ q ∈ held, 0 < q := fun q hq =>
        Nat.lt_of_lt_of_le hc.pool.start_pos (hc.held_page hq).lo
      refine ⟨fun hz => Nat.lt_irrefl 0 (hpos 0 hz), ?_⟩
      refine iff_of_true rfl fun q hq => ?_
      simpa using hc.perm.mem_iff.mpr hq
    · -- the head of the list is free, so not held
      have hpmem : p ∈ p :: t := List.mem_cons_self ..
      have hnot : p ∉ held := fun hh => hc.disjoint hpmem hh
      refine ⟨hnot, iff_of_false ?_ fun hall => ?_⟩
      · have := hc.pool.pos hpmem
        omega
      · refine hnot (hall p (hc.perm.mem_iff.mp ?_))
        exact List.mem_append_left _ hpmem
  · have hnew : p ∉ fl := fun hf => hc.disjoint hf hh
    refine (wp_freePage hc.pool (Or.inl (hc.held_page hh)) hnew).mono ?_
    exact fun _ _ _ => trivial

end Pke
