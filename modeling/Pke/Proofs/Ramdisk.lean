/-
The RAM disk is a private block array.

`init_ramdisk0` takes 128 pages one at a time and keeps the address of
the last one, trusting that together they are one range. They are: the
free list it takes them from is a tail of the list `pmm_init` made,
which runs downwards without a gap (Boot.lean), so the last page taken
is the lowest. The pool then falls into four parts, in the order of the
list: the tables of the kernel, the disk, the pages of the file system,
and what is left. A page is in one part only, so the disk is disjoint
from every page handed out before it and from every page left to hand
out after it.

With that, `ramdisk0_input` and `ramdisk0_output` are the transfers of a
block array (Lib/BlockArray.lean).
-/
import Pke.Lib.BlockArray
import Pke.Proofs.Boot

namespace Pke

open ByteMem Traced BlockArray

variable {bad : Event → Prop} {E : Halt → Kernel → Prop}
variable {cfg : Config} {s s' s₁ s₂ s₃ : Kernel} {fl : List Nat}

-- ==== transfers

/-- The range the disk occupies. -/
def diskLayout (s : Kernel) : Layout where
  base := s.ramdisk0BaseAddr
  size := ramdisk0Bsize
  count := ramdisk0Block

/-- A client of the disk: transfers, and stores of its own. -/
def diskStep : BlockArray.Op → K Unit
  | .put buffer b => ramdisk0Input buffer b
  | .fetch buffer b => ramdisk0Output buffer b
  | .store a v => onMem fun m => store m 1 a v.toNat

def diskRun (ops : List BlockArray.Op) : K Unit := ops.forM diskStep

/-- Only memory changed, and it looks like `σ`. -/
structure DiskAt (s : Kernel) (σ : State) (s' : Kernel) : Prop where
  rest : s' = { s with mem := s'.mem }
  views : (diskLayout s).Views s'.mem σ

theorem DiskAt.layout {σ : State} (h : DiskAt s σ s') :
    diskLayout s' = diskLayout s := by
  rw [h.rest]
  rfl

theorem wp_diskStep {op : BlockArray.Op} {σ : State} (h : DiskAt s σ s')
    (hop : (diskLayout s).Fits op) :
    Wp bad E (diskStep op)
      (fun _ s'' => DiskAt s (BlockArray.step ramdisk0Bsize σ op) s'') s' := by
  have hviews := h.views.apply hop
  rw [← h.layout] at hviews
  have hafter : DiskAt s (BlockArray.step ramdisk0Bsize σ op)
      { s' with mem := ((diskLayout s').apply s'.mem op) } := by
    refine ⟨?_, h.layout ▸ hviews⟩
    rw [h.rest]
  cases op with
  | put buffer b =>
      have hb : ¬ b ≥ ramdisk0Block := Nat.not_le.mpr hop.1
      simp only [diskStep, ramdisk0Input, if_neg hb, wp_bind, wp_get, memcpy,
        onMem, wp_modify]
      exact hafter
  | fetch buffer b =>
      have hb : ¬ b ≥ ramdisk0Block := Nat.not_le.mpr hop.1
      simp only [diskStep, ramdisk0Output, if_neg hb, wp_bind, wp_get, memcpy,
        onMem, wp_modify]
      exact hafter
  | store a v =>
      simp only [diskStep, onMem, wp_modify]
      exact hafter

/-- A run of transfers is a run of the array. -/
theorem wp_diskRun {ops : List BlockArray.Op} {σ : State}
    (h : DiskAt s σ s') (hops : ∀ op ∈ ops, (diskLayout s).Fits op) :
    Wp bad E (diskRun ops)
      (fun _ s'' => DiskAt s (BlockArray.run ramdisk0Bsize σ ops) s'') s' := by
  unfold diskRun
  apply wp_forM (fun done s'' =>
    DiskAt s (BlockArray.run ramdisk0Bsize σ done) s'') h
  intro done op rest hops' s₁ h₁
  have hop : op ∈ ops := by
    rw [hops']
    exact List.mem_append_right _ List.mem_cons_self
  apply (wp_diskStep h₁ (hops op hop)).mono
  intro _ s₂ h₂
  unfold BlockArray.run at h₂ ⊢
  rw [List.foldl_append]
  exact h₂

/-- Blocks and memory as they are in the state. -/
def diskState (s : Kernel) : State where
  block b x := s.mem (s.ramdisk0BaseAddr + b * ramdisk0Bsize + x)
  memory := s.mem

theorem diskAt_self (s : Kernel) : DiskAt s (diskState s) s :=
  ⟨rfl, (diskLayout s).views_self s.mem⟩

/-- What is read from a block is what was last written to it, whatever
happened in between. -/
theorem wp_diskReads {ops₁ ops₂ : List BlockArray.Op} {buffer b buffer' : Nat}
    (hops : ∀ op ∈ ops₁ ++ .put buffer b :: (ops₂ ++ [.fetch buffer' b]),
      (diskLayout s).Fits op)
    (hlast : ∀ op ∈ ops₂, ¬ op.Puts b) :
    Wp bad E (diskRun ops₁) (fun _ s₁ =>
      Wp bad E (diskRun (.put buffer b :: (ops₂ ++ [.fetch buffer' b])))
        (fun _ s₂ => ∀ x < ramdisk0Bsize,
          s₂.mem (buffer' + x) = s₁.mem (buffer + x)) s₁) s := by
  have hput := hops (.put buffer b)
    (List.mem_append_right _ List.mem_cons_self)
  have hfetch := hops (.fetch buffer' b) (List.mem_append_right _
    (List.mem_cons_of_mem _ (List.mem_append_right _ List.mem_cons_self)))
  apply (wp_diskRun (diskAt_self s) fun op hop =>
    hops op (List.mem_append_left _ hop)).mono
  intro _ s₁ h₁
  apply (wp_diskRun h₁ fun op hop =>
    hops op (List.mem_append_right _ hop)).mono
  intro _ s₂ h₂ x hx
  rw [h₂.views.memory _ (hfetch.2.outside hx),
    h₁.views.memory _ (hput.2.outside hx)]
  generalize BlockArray.run ramdisk0Bsize (diskState s) ops₁ = σ
  have hrun : BlockArray.run ramdisk0Bsize σ
      (.put buffer b :: (ops₂ ++ [.fetch buffer' b]))
      = BlockArray.step ramdisk0Bsize
        (BlockArray.run ramdisk0Bsize σ (.put buffer b :: ops₂))
        (.fetch buffer' b) := by
    unfold BlockArray.run
    rw [← List.cons_append, List.foldl_append]
    rfl
  rw [hrun]
  show (if _ then _ else _) = _
  rw [if_pos ⟨Nat.le_add_right _ _, Nat.add_lt_add_left hx _⟩,
    Nat.add_sub_cancel_left, run_put buffer hlast]

-- ==== the pages

/-- `alloc_page` tells which page it returns. -/
theorem allocPage_run (s : Kernel) :
    ∃ s', allocPage s = ([.alloc s.gFreeMemList], .ok s.gFreeMemList s') := by
  by_cases h : s.gFreeMemList = 0
  · simp only [allocPage, Bind.bind, Traced.bind, Traced.get, Pure.pure, h,
      ne_eq, not_true_eq_false, if_false, countPages, Traced.modify,
      Traced.emit, List.nil_append, Prod.mk.injEq]
    exact ⟨_, rfl, rfl⟩
  · simp only [allocPage, Bind.bind, Traced.bind, Traced.get, Pure.pure, h,
      ne_eq, not_false_eq_true, if_true, countPages, Traced.modify,
      Traced.emit, List.nil_append, Prod.mk.injEq, ld]
    exact ⟨_, rfl, rfl⟩

/-- The loop of `init_ramdisk0` takes the pages from the front of the
list. -/
theorem takeLoop_run (l : List Nat) :
    ∀ s fl, Pool s fl → l.length ≤ fl.length → ∃ s',
      (l.forM fun _ => do
        let p ← allocPage
        modify fun s => { s with ramdisk0BaseAddr := p } : K PUnit) s
        = ((fl.take l.length).map .alloc, .ok () s') := by
  induction l with
  | nil => exact fun s fl _ _ => ⟨s, rfl⟩
  | cons x l ih =>
      intro s fl hp hlen
      obtain ⟨s₁, hrun⟩ := allocPage_run s
      have hpop : ∃ t, fl = s.gFreeMemList :: t ∧ Pool s₁ t := by
        have hroom : Room (fun _ => False) (0 + 1) fl :=
          Or.inl (by rw [List.length_cons] at hlen; omega)
        refine (wp_pop (E := fun _ _ => True) (Q := fun p s' =>
          ∃ t, fl = p :: t ∧ Pool s' t) hp hroom ?_).of_run hrun fun _ _ h => h
        exact fun p t s' hfl _ _ hp' _ => ⟨t, hfl, hp'⟩
      obtain ⟨t, hfl, hp₁⟩ := hpop
      obtain ⟨s₂, hrest⟩ := ih { s₁ with ramdisk0BaseAddr := s.gFreeMemList } t
        (hp₁.congr rfl rfl rfl) (by
          rw [hfl, List.length_cons, List.length_cons] at hlen
          omega)
      refine ⟨s₂, ?_⟩
      rw [hfl, List.length_cons, List.take_succ_cons, List.map_cons]
      show _ = ([Event.alloc s.gFreeMemList] ++ _, _)
      refine bind_run (a := ⟨⟩) (f := fun _ => l.forM _) ?_ hrest
      rw [← List.append_nil [Event.alloc s.gFreeMemList]]
      exact bind_run hrun rfl

/-- The address is in the page. -/
def InPage (p a : Nat) : Prop := p ≤ a ∧ a < p + pgSize

/-- The disk after boot: the pool in four parts, the second of which
`init_ramdisk0` took, one page after the other. -/
structure PrivateDisk (cfg : Config) (before disk mount fl : List Nat)
    (s₁ : Kernel) (es : List Event) (s₂ s₃ : Kernel) : Prop where
  parts : cfg.pool.reverse = before ++ (disk ++ (mount ++ fl))
  count : disk.length = ramdisk0Block
  listed : FreeList s₁ (disk ++ (mount ++ fl))
  taken : es = disk.map .alloc
  left : FreeList s₂ (mount ++ fl)
  free : FreeList s₃ fl
  range : ∀ a, (diskLayout s₃).Within a ↔ ∃ p ∈ disk, InPage p a
  apart : ∀ p ∈ before ++ (mount ++ fl), ∀ a, InPage p a →
    ¬ (diskLayout s₃).Within a
  later : ∀ ops, Returns (poolRun ops (before ++ mount)) (fun held s' =>
    ∃ fl', FreeList s' fl' ∧ ∀ p ∈ held ++ fl', ∀ a, InPage p a →
      ¬ (diskLayout s₃).Within a) s₃
  array : ∀ ops, (∀ op ∈ ops, (diskLayout s₃).Fits op) →
    Returns (diskRun ops) (fun _ s' =>
      DiskAt s₃ (BlockArray.run ramdisk0Bsize (diskState s₃) ops) s') s₃
  reads : ∀ ops₁ buffer b ops₂ buffer',
    (∀ op ∈ ops₁ ++ .put buffer b :: (ops₂ ++ [.fetch buffer' b]),
      (diskLayout s₃).Fits op) → (∀ op ∈ ops₂, ¬ op.Puts b) →
    Returns (diskRun ops₁) (fun _ s' =>
      Returns (diskRun (.put buffer b :: (ops₂ ++ [.fetch buffer' b])))
        (fun _ s'' => ∀ x < ramdisk0Bsize,
          s''.mem (buffer' + x) = s'.mem (buffer + x)) s') s₃

/-- The range of the disk is the pages taken for it. -/
theorem DiskTaken.range (h : DiskTaken fl s s') (hd : Descending fl) (a : Nat) :
    (diskLayout s').Within a ↔ ∃ p ∈ fl.take ramdisk0Block, InPage p a := by
  have hpage : ∀ p, p ∈ fl.take ramdisk0Block ↔
      ∃ b < ramdisk0Block, p = s'.ramdisk0BaseAddr + b * pgSize := by
    intro p
    rw [List.mem_iff_getElem?]
    constructor
    · rintro ⟨k, hk⟩
      have hlt : k < ramdisk0Block := by
        by_contra hge
        rw [List.getElem?_take, if_neg hge] at hk
        cases hk
      rw [List.getElem?_take_of_lt hlt] at hk
      refine ⟨ramdisk0Block - 1 - k, by omega, ?_⟩
      have hb := h.block hd (b := ramdisk0Block - 1 - k) (by omega)
      rw [show ramdisk0Block - 1 - (ramdisk0Block - 1 - k) = k by omega,
        hk] at hb
      exact Option.some.inj hb
    · rintro ⟨b, hb, rfl⟩
      refine ⟨ramdisk0Block - 1 - b, ?_⟩
      rw [List.getElem?_take_of_lt (by omega)]
      exact h.block hd hb
  show (s'.ramdisk0BaseAddr ≤ a ∧
    a < s'.ramdisk0BaseAddr + ramdisk0Block * ramdisk0Bsize) ↔ _
  constructor
  · rintro ⟨hlo, hhi⟩
    refine ⟨s'.ramdisk0BaseAddr + (a - s'.ramdisk0BaseAddr) / pgSize * pgSize,
      (hpage _).mpr ⟨_, ?_, rfl⟩, ?_, ?_⟩
    · simp only [ramdisk0Block, ramdisk0Bsize, pgSize] at hhi ⊢
      omega
    · simp only [pgSize]
      omega
    · simp only [pgSize]
      omega
  · rintro ⟨p, hp, hlo, hhi⟩
    obtain ⟨b, hb, rfl⟩ := (hpage p).mp hp
    simp only [ramdisk0Block, ramdisk0Bsize, pgSize] at hb hlo hhi ⊢
    omega

/-- A page of the pool lies between the bounds of the pool. -/
theorem Config.pool_page {p : Nat} (hp : p ∈ cfg.pool)
    (hv : bootView s = (roundUp cfg.kernelEnd pgSize,
      min pkeMaxAllowableRam cfg.memSize + dramBase, none, none,
      userFreeAddressStart)) : PageIn s p := by
  have hround := roundUp_eq (by have := cfg.end_pos; omega : 0 < cfg.kernelEnd)
    cfg.end_lt
  obtain ⟨hlo, hhi, hal⟩ := mem_poolPages.mp hp
  refine ⟨?_, ?_, ?_⟩
  · rw [hround] at hlo hal
    simp only [pgSize] at hlo hal ⊢
    omega
  · exact (congrArg Prod.fst hv).trans_le hlo
  · have hstop : s.freeMemEndAddr
        = min pkeMaxAllowableRam cfg.memSize + dramBase :=
      congrArg (fun v => v.2.1) hv
    rw [hstop]
    omega

section Parts

variable {before disk mount : List Nat}
variable (hpages : cfg.pool.reverse = before ++ (disk ++ (mount ++ fl)))
variable (hview : bootView s = (roundUp cfg.kernelEnd pgSize,
  min pkeMaxAllowableRam cfg.memSize + dramBase, none, none,
  userFreeAddressStart))
include hpages hview

/-- The parts of the pool do not overlap. -/
theorem parts_apart
    (hrange : ∀ a, (diskLayout s).Within a ↔ ∃ p ∈ disk, InPage p a) :
    ∀ p ∈ before ++ (mount ++ fl), ∀ a, InPage p a →
      ¬ (diskLayout s).Within a := by
  intro p hp a ha hin
  obtain ⟨d, hd, hda⟩ := (hrange a).mp hin
  have hnd : (before ++ (disk ++ (mount ++ fl))).Nodup := by
    rw [← hpages, List.nodup_reverse]
    exact poolPages_nodup _ _
  have hmem : ∀ x, x ∈ before ++ (disk ++ (mount ++ fl)) → x ∈ cfg.pool := by
    intro x hx
    rw [← hpages, List.mem_reverse] at hx
    exact hx
  have hne : p ≠ d := by
    rintro rfl
    rcases List.mem_append.mp hp with h | h
    · exact (List.nodup_append.mp hnd).2.2 p h p
        (List.mem_append_left _ hd) rfl
    · have hnd' := (List.nodup_append.mp hnd).2.1
      exact (List.nodup_append.mp hnd').2.2 p hd p h rfl
  have hpin : p ∈ before ++ (disk ++ (mount ++ fl)) := by
    rcases List.mem_append.mp hp with h | h
    · exact List.mem_append_left _ h
    · exact List.mem_append_right _ (List.mem_append_right _ h)
  have hdin : d ∈ before ++ (disk ++ (mount ++ fl)) :=
    List.mem_append_right _ (List.mem_append_left _ hd)
  have hdis := page_disjoint (cfg.pool_page (hmem p hpin) hview).aligned
    (cfg.pool_page (hmem d hdin) hview).aligned hne
  obtain ⟨h₁, h₂⟩ := ha
  obtain ⟨h₃, h₄⟩ := hda
  simp only [pgSize] at hdis h₂ h₄
  omega

/-- Whatever is taken, returned or written to later. -/
theorem later_apart (hp : Pool s fl) {D : Nat → Prop}
    (hapart : ∀ p ∈ before ++ (mount ++ fl), ∀ a, InPage p a → ¬ D a)
    (ops : List PoolOp) :
    Wp bad E (poolRun ops (before ++ mount)) (fun held s' => ∃ fl',
      FreeList s' fl' ∧ ∀ p ∈ held ++ fl', ∀ a, InPage p a → ¬ D a) s := by
  have hmem : ∀ p, p ∈ fl ++ (before ++ mount) ↔
      p ∈ before ++ (mount ++ fl) := by
    intro p
    simp only [List.mem_append]
    tauto
  have hnd : (fl ++ (before ++ mount)).Nodup := by
    have hall : (before ++ (disk ++ (mount ++ fl))).Nodup := by
      rw [← hpages, List.nodup_reverse]
      exact poolPages_nodup _ _
    have hsub : (before ++ (mount ++ fl)).Sublist
        (before ++ (disk ++ (mount ++ fl))) :=
      List.Sublist.append_left (List.sublist_append_right _ _) before
    have hperm : (fl ++ (before ++ mount)).Perm (before ++ (mount ++ fl)) := by
      rw [← List.append_assoc before mount fl]
      exact List.perm_append_comm
    exact hperm.nodup_iff.mpr (hall.sublist hsub)
  have hc : Conserved s (fl ++ (before ++ mount)) fl (before ++ mount) := by
    refine ⟨hp, List.Perm.refl _, hnd, fun p hin => ?_⟩
    apply cfg.pool_page _ hview
    rw [← List.mem_reverse, hpages]
    rcases List.mem_append.mp ((hmem p).mp hin) with h | h
    · exact List.mem_append_left _ h
    · exact List.mem_append_right _ (List.mem_append_right _ h)
  apply (wp_poolRun ops hc).mono
  intro held s' hres
  obtain ⟨_, fl', hc'⟩ := hres
  refine ⟨fl', hc'.pool.chain, fun p hin a ha => ?_⟩
  apply hapart p _ a ha
  rw [← hmem p]
  apply hc'.perm.mem_iff.mp
  rw [List.mem_append] at hin ⊢
  exact hin.symm

end Parts

/-- What is known of the disk once the file system is mounted. -/
theorem privateDisk {es₁ es : List Event}
    (hfit : Fits bad (fun _ _ => True) cfg 200)
    (hboot : bootToDisk cfg cfg.init = (es₁, .ok () s₁))
    (hfs : fsInit s₁ = (es, .ok () s₃))
    (hclean : ∀ e ∈ es₁ ++ es, ¬ bad e) :
    ∃ es₂ s₂ before disk mount fl, initRamdisk0 s₁ = (es₂, .ok () s₂) ∧
      PrivateDisk cfg before disk mount fl s₁ es₂ s₂ s₃ := by
  rw [List.forall_mem_append] at hclean
  have hfit₁ : Fits bad (fun _ _ => True) cfg 67 :=
    hfit.imp_left fun h => by omega
  obtain ⟨before, fl, hst⟩ := (wp_bootToDisk hfit₁).of_run hboot hclean.1
  -- `fs_init` is `init_ramdisk0` and the rest
  obtain ⟨es₂', pdev, s₂', es₄, hdev, hvfs, rfl⟩ := bind_ok hfs
  obtain ⟨es₂, _, s₂, es₃, hdisk, hpdev, rfl⟩ := bind_ok hdev
  rw [List.forall_mem_append, List.forall_mem_append] at hclean
  have hmount : (do let pdev ← devInitRamdisk0; vfsMount pdev) s₂
      = (es₃ ++ es₄, .ok () s₃) := bind_run hpdev hvfs
  have hcount := hst.count
  have htables := hst.tables
  have hroom : Room bad 133 fl := by
    apply hfit.room.less
    rw [List.length_reverse]
    omega
  have htaken := (wp_initRamdisk0 (E := fun _ _ => True) hst.pool
    (hroom.less (by omega))).of_run hdisk hclean.2.1.1
  have hlen : ramdisk0Block ≤ fl.length := by
    obtain ⟨hlt, _⟩ := List.getElem?_eq_some_iff.mp htaken.base
    simp only [ramdisk0Block] at hlt ⊢
    omega
  have hroom₂ : Room bad (0 + 5) (fl.drop ramdisk0Block) := by
    apply hroom.less
    rw [List.length_drop]
    simp only [ramdisk0Block] at hlen ⊢
    omega
  have hclean₂ : ∀ e ∈ es₃ ++ es₄, ¬ bad e :=
    List.forall_mem_append.mpr ⟨hclean.2.1.2, hclean.2.2⟩
  obtain ⟨mount, fl₃, hmnt, hlen₃, h₃⟩ := (wp_mountDisk (E := fun _ _ => True)
    ⟨htaken.pool, rfl, htaken.blocks hst.pool hst.descending⟩
    hroom₂).of_run hmount hclean₂
  have hsplit : fl = fl.take ramdisk0Block ++ (mount ++ fl₃) := by
    rw [← hmnt, List.take_append_drop]
  have hlayout : diskLayout s₃ = diskLayout s₂ := by
    have hbase : s₃.rest.ramdisk0BaseAddr = s₂.rest.ramdisk0BaseAddr := by
      rw [h₃.rest]
    exact congrArg (fun b => (⟨b, ramdisk0Bsize, ramdisk0Block⟩ : Layout)) hbase
  have hview : bootView s₃ = (roundUp cfg.kernelEnd pgSize,
      min pkeMaxAllowableRam cfg.memSize + dramBase, none, none,
      userFreeAddressStart) :=
    ((bootView_of_rest h₃.rest).trans (bootView_of_rest htaken.rest)).trans
      hst.view
  have hpages : cfg.pool.reverse
      = before ++ (fl.take ramdisk0Block ++ (mount ++ fl₃)) := by
    rw [hst.pages, ← hsplit]
  have hrange : ∀ a, (diskLayout s₃).Within a ↔
      ∃ p ∈ fl.take ramdisk0Block, InPage p a := by
    rw [hlayout]
    exact htaken.range hst.descending
  have hapart := parts_apart hpages hview hrange
  refine ⟨es₂, s₂, before, fl.take ramdisk0Block, mount, fl₃, hdisk, hpages,
    ?_, ?_, ?_, ?_, h₃.pool.chain, hrange, hapart, ?_, ?_, ?_⟩
  · rw [List.length_take]
    exact Nat.min_eq_left hlen
  · rw [← hsplit]
    exact hst.pool.chain
  · obtain ⟨s', hrun⟩ := takeLoop_run (List.range ramdisk0Block) s₁ fl hst.pool
      (by rw [List.length_range]; exact hlen)
    rw [List.length_range] at hrun
    exact congrArg Prod.fst (hdisk.symm.trans hrun)
  · rw [← hmnt]
    exact htaken.pool.chain
  · exact later_apart hpages hview h₃.pool hapart
  · exact fun ops hops => wp_diskRun (diskAt_self s₃) hops
  · exact fun ops₁ buffer b ops₂ buffer' hops hlast =>
      wp_diskReads hops hlast

/-- The RAM disk, for every size of memory and end of the kernel: with
200 pages boot gets through `fs_init`, and whenever it does without a
failed allocation the disk is private to its two functions. -/
theorem ramdisk_private (cfg : Config) :
    (200 ≤ cfg.pool.length → ∃ es₁ s₁ es s₃,
      bootToDisk cfg cfg.init = (es₁, .ok () s₁) ∧
      fsInit s₁ = (es, .ok () s₃)) ∧
    ∀ es₁ s₁ es s₃, bootToDisk cfg cfg.init = (es₁, .ok () s₁) →
      fsInit s₁ = (es, .ok () s₃) →
      200 ≤ cfg.pool.length ∨ Event.alloc 0 ∉ es₁ ++ es →
      ∃ es₂ s₂ before disk mount fl, initRamdisk0 s₁ = (es₂, .ok () s₂) ∧
        PrivateDisk cfg before disk mount fl s₁ es₂ s₂ s₃ := by
  constructor
  · intro hpool
    have hfit : Fits (fun _ => False) (fun _ _ => False) cfg 67 :=
      Or.inl (by omega)
    have hret : Returns (bootToDisk cfg)
        (fun _ s₁ => ∃ tk fl, Started cfg tk s₁ fl) cfg.init :=
      wp_bootToDisk hfit
    obtain ⟨es₁, _, s₁, hboot, tk, fl, hst⟩ := hret.elim
    have hroom : Room (fun _ => False) (0 + 133) fl := by
      have hcount := hst.count
      have htables := hst.tables
      exact Or.inl (by omega)
    have hret₂ : Returns fsInit (fun _ _ => True) s₁ :=
      (wp_fsInit hst.pool hst.descending hroom).mono fun _ _ _ => trivial
    obtain ⟨es, _, s₃, hfs, _⟩ := hret₂.elim
    exact ⟨es₁, s₁, es, s₃, hboot, hfs⟩
  · intro es₁ s₁ es s₃ hboot hfs henough
    rcases henough with hpool | hclean
    · have hfit : Fits (fun _ => False) (fun _ _ => True) cfg 200 :=
        Or.inl hpool
      exact privateDisk hfit hboot hfs fun _ _ h => h
    · have hfit : Fits (fun e => e = .alloc 0) (fun _ _ => True) cfg 200 :=
        Or.inr ⟨rfl, fun _ _ => trivial⟩
      refine privateDisk hfit hboot hfs fun e he heq => ?_
      rw [heq] at he
      exact hclean he

/-- The small machine has such a disk. -/
theorem ramdisk_private_tiny : ∃ es₁ s₁ es s₃ es₂ s₂ before disk mount fl,
    bootToDisk (tinyMachine 0x10000) (tinyMachine 0x10000).init
      = (es₁, .ok () s₁) ∧
    fsInit s₁ = (es, .ok () s₃) ∧ initRamdisk0 s₁ = (es₂, .ok () s₂) ∧
    PrivateDisk (tinyMachine 0x10000) before disk mount fl s₁ es₂ s₂ s₃ := by
  have hpool : 200 ≤ (tinyMachine 0x10000).pool.length := by
    rw [smallMachine_pool]
    decide
  obtain ⟨hruns, hdisk⟩ := ramdisk_private (tinyMachine 0x10000)
  obtain ⟨es₁, s₁, es, s₃, hboot, hfs⟩ := hruns hpool
  obtain ⟨es₂, s₂, before, disk, mount, fl, h⟩ :=
    hdisk es₁ s₁ es s₃ hboot hfs (Or.inl hpool)
  exact ⟨es₁, s₁, es, s₃, es₂, s₂, before, disk, mount, fl, hboot, hfs, h⟩

end Pke
