/-
Founding a process: which pages `alloc_process` takes, in which order,
and where the number of its files goes.

The trapframe, the root table, the two stacks and the region table come
off the list first, then the four or five tables of the three mappings
every process starts with (`systemTables`), then the page of the file
table (`wp_buildSpace_planted`).

# The number of files

`struct files_struct` is twelve bytes longer than its page, and
`files_create` stores the number of files at offset 4104: in bytes 8 to
11 of whatever page lies behind. Link words are bytes 0 to 7, so the free
list never suffers (`Heap.counted`). The list `pmm_init` makes descends
page by page, so on a list that is still in that order the page behind
the file table is the one taken just before: the table of the trap
section, where the store hits entry 1. Nothing is mapped there
(`kernBase + pgSize` is text of the kernel in front of the trap section),
the entry was zero, and the number becomes an entry for page 0: no leaf,
if the number is even, else a leaf nobody recorded.

`Aside` is the condition under which that is all that happens: the page
behind is the last table, and the number is no leaf for user mode, or the
page behind is still free. It is read off the free list before the call.
Where it fails the store goes into somebody's frame, table or trapframe,
and nothing can be said.
-/
import Pke.Proofs.Plant
import Pke.Proofs.Control

namespace Pke

open ByteMem Traced Radix

variable {bad : Event → Prop} {E : Halt → Kernel → Prop}
variable {cfg : Config} {P : MappedRegion → Prop} {s s' : Kernel}
variable {own own' : Nat → Owner} {fl fl' : List Nat} {i : Slot}
variable {root info : Nat} {ps : List (List (Fin 512))} {X : Nat → Prop}

-- ==== the regions

/-- The tables a new process needs, in the order they are taken. -/
def systemTables (cfg : Config) (trapframe : Nat) : List (List (Fin 512)) :=
  waysTo [[]] [userStackTop - pgSize, trapframe, cfg.trapSecStart]

/-- A write to a page in `X` that is no table. -/
theorem planted_within {q : Nat} {m' : Mem} (hh : Heap s own fl)
    (hT : Tables s.mem own i root) (hX : X q) (hq : q % pgSize = 0)
    (hnot : ∀ path, own q ≠ .table i path) (hw : Within s.mem m' q) :
    Planted X root [] s fl { s with mem := m' } fl := by
  have hag : ∀ path t, own t = .table i path → Agree s.mem m' t (t + 4096) := by
    intro path t ht
    apply hw.agree (hh.table_aligned path t ht) hq
    rintro rfl
    exact hnot path ht
  have hsame := tableAt_congr hT hag
  constructor
  case taken => exact ⟨[], rfl, .nil⟩
  case fresh => exact fun _ hq => absurd hq List.not_mem_nil
  case nodes => exact fun path hlen _ => hsame path (Nat.le_of_lt hlen)
  case others =>
    intro p hal hXp _
    apply hw.agree hal hq
    rintro rfl
    exact hXp hX
  case tidy =>
    intro htidy path t hlen ht j
    have hold : tableAt s.mem root path = some t :=
      (hsame path (Nat.le_of_lt hlen)).symm.trans ht
    have hj := j.isLt
    have hrow : row m' t j = row s.mem t j := by
      unfold row
      exact load_agree ((hag path t (hT path t hlen hold)).mono (by omega) (by omega))
    show Tidy (row m' t j)
    rw [hrow]
    exact htidy path t hlen hold j

/-- A page mapped and recorded: what the next mapping relies on. -/
structure MapRecorded (cfg : Config) (i : Slot) (root info va : Nat)
    (ps : List (List (Fin 512))) (s : Kernel) (fl : List Nat)
    (s' : Kernel) (own' : Nat → Owner) (fl' : List Nat) : Prop where
  pages : Heap s' own' fl'
  ranges : Ranges cfg s'
  tables : Tables s'.mem own' i root
  owner : own' info = .regions i
  rest : s'.rest = s.rest
  present : Present s'.mem root (ps ++ wayTo ps va)
  leaf : ∀ a, a < 2 ^ 39 → a / 4096 ≠ va / 4096 →
    leaf s'.mem root a = leaf s.mem root a
  planted : Planted (· = info) root (wayTo ps va) s fl s' fl'

theorem wp_mapRecord_planted {pa perm va n : Nat} {seg : SegType} {next : K Unit}
    {Q : Unit → Kernel → Prop} (hr : Ranges cfg s) (hh : Heap s own fl)
    (hT : Tables s.mem own i root) (hinfo : own info = .regions i)
    (hps : Present s.mem root ps) (hal : va % pgSize = 0) (hva : va < maxVa)
    (hfree : leaf s.mem root va = none) (hpa : MemPage pa)
    (hperm : PlainPerm perm) (hn : n < maxRegions)
    (hroom : Enough E (wayTo ps va).length fl)
    (hnext : ∀ s' own' fl', MapRecorded cfg i root info va ps s fl s' own' fl' →
      Wp bad E next Q s') :
    Wp bad E (do
      userVmMap root va pgSize pa perm
      setRegion info n va 1 seg
      next) Q s := by
  rw [wp_bind]
  have hpa64 : pa + pgSize ≤ 2 ^ 64 := Nat.le_trans hpa.hi (by decide)
  refine (wp_userVmMap_planted (X := (· = info)) hal hperm.lt_flags hpa64 hr hh hT hps
    (Or.inl ⟨hva, hfree⟩) hroom).mono fun _ s₁ hres => ?_
  obtain ⟨-, own₁, fl₁, hg, hmap⟩ := hres
  have hm := hmap.leaves
  have hp := hmap.planted hpa hperm
  rw [wp_bind, wp_setRegion]
  have hinfo₁ : own₁ info = .regions i := hg.keep_used hinfo Owner.noConfusion
  have hinfoal := (tag_page (n := i) hg.heap (by rw [hinfo₁]; rfl)).aligned
  have hnot : ∀ path, own₁ info ≠ .table i path := by
    intro path
    rw [hinfo₁]
    exact Owner.noConfusion
  have hw : Within s₁.mem (regionStore s₁.mem info n va 1 seg.word) info :=
    within_regionStore hn
  have htab : ∀ path t, own₁ t = .table i path →
      Agree s₁.mem (regionStore s₁.mem info n va 1 seg.word) t (t + 4096) := by
    intro path t ht
    apply hw.agree (hg.heap.table_aligned path t ht) hinfoal
    rintro rfl
    exact hnot path ht
  have hplant := hp.trans
    (planted_within (X := (· = info)) hg.heap hg.tables rfl hinfoal hnot hw)
  rw [List.append_nil] at hplant
  apply hnext _ own₁ fl₁
  constructor
  case pages =>
    exact hg.heap.within hinfoal (by rw [hinfo₁]; exact Owner.noConfusion) hw
  case ranges => exact (hr.of_rest hg.rest).of_rest rfl
  case tables => exact hg.tables.congr htab fun _ _ h => h
  case owner => exact hinfo₁
  case rest => exact hg.rest
  case present => exact hplant.present hps
  case leaf =>
    intro a ha hne
    show Pke.leaf (regionStore s₁.mem info n va 1 seg.word) root a = _
    rw [leaf_congr hg.tables htab, hm.one ha, if_neg hne]
  case planted => exact hplant

/-- The common end of `alloc_process` and `realloc_process`, page by
page. -/
theorem wp_mapSystemRegions_planted {ustack : Nat} (hh : Heap s own fl)
    (hr : Ranges cfg s) (hd : Draft s own i ustack)
    (hroom : Enough E (systemTables cfg (s.procs i).trapframe).length fl) :
    Wp bad E (mapSystemRegions cfg i ustack) (fun _ s' => ∃ own' fl',
      Heap s' own' fl' ∧ Ranges cfg s' ∧
      s'.procs i = { s.procs i with totalMappedRegion := 3 } ∧
      Present s'.mem (s.procs i).pagetable
        ([] :: systemTables cfg (s.procs i).trapframe) ∧
      Tables s'.mem own' i (s.procs i).pagetable ∧
      leaf s'.mem (s.procs i).pagetable (kernBase + pgSize) = none ∧
      Planted (· = (s.procs i).mappedInfo) (s.procs i).pagetable
        (systemTables cfg (s.procs i).trapframe) s fl s' fl') s := by
  have htrap := cfg.trap_base
  have htal := cfg.trap_aligned
  have htfp := hr.frame (tag_page (n := i) hh (by rw [hd.trapframe]; rfl))
  have htfm := hr.memPage (tag_page (n := i) hh (by rw [hd.trapframe]; rfl))
  have husm := hr.memPage (tag_page (n := i) hh (by rw [hd.ustack]; rfl))
  have htrapm : MemPage cfg.trapSecStart := by
    simp only [kernBase, pgSize] at htrap
    refine ⟨htal, ?_, ?_⟩
    · simp only [dramBase]
      omega
    · simp only [pgSize]
      omega
  have hzero := hd.root_zero
  have hps : Present s.mem (s.procs i).pagetable [[]] := by
    intro q hq
    rw [List.mem_singleton]
    constructor
    · rintro rfl
      exact ⟨_, rfl⟩
    · rintro ⟨t, ht⟩
      exact (tableAt_zeroed hzero ht).1
  simp only [pgSize, kernBase] at htrap htal
  unfold systemTables waysTo waysTo waysTo waysTo at hroom ⊢
  rw [List.append_nil] at hroom ⊢
  rw [List.length_append, List.length_append] at hroom
  generalize hw₁ : wayTo [[]] (userStackTop - pgSize) = way₁ at hroom ⊢
  generalize hw₂ : wayTo ([[]] ++ way₁) (s.procs i).trapframe = way₂ at hroom ⊢
  generalize hw₃ : wayTo ([[]] ++ way₁ ++ way₂) cfg.trapSecStart = way₃ at hroom ⊢
  unfold mapSystemRegions
  rw [wp_bind, wp_proc]
  -- the user stack
  apply wp_mapRecord_planted hr hh (Tables.zeroed hzero hd.root) hd.info hps
    (by decide) (by decide) (leaf_zeroed hzero) husm ⟨by decide, by decide, by decide⟩
    (by decide) (hroom.less (by rw [hw₁]; omega))
  intro s₁ own₁ fl₁ h₁
  have hp₁ := h₁.present
  have hpl₁ := h₁.planted
  rw [hw₁] at hp₁ hpl₁
  have hlen₁ := hpl₁.length
  -- the trapframe, at its physical address
  apply wp_mapRecord_planted h₁.ranges h₁.pages h₁.tables h₁.owner hp₁ htfp.2.2
    (by simp only [maxVa]; omega) ?_ htfm ⟨by decide, by decide, by decide⟩
    (by decide) (hroom.less (by rw [hw₂]; omega))
  · intro s₂ own₂ fl₂ h₂
    have hp₂ := h₂.present
    have hpl₂ := h₂.planted
    rw [hw₂] at hp₂ hpl₂
    have hlen₂ := hpl₂.length
    -- the trap section, at its physical address
    apply wp_mapRecord_planted h₂.ranges h₂.pages h₂.tables h₂.owner hp₂ htal
      (by simp only [maxVa]; omega) ?_ htrapm ⟨by decide, by decide, by decide⟩
      (by decide) (hroom.less (by rw [hw₃]; omega))
    · intro s₃ own₃ fl₃ h₃
      have hp₃ := h₃.present
      have hpl₃ := h₃.planted
      rw [hw₃] at hp₃ hpl₃
      have hproc : s₃.procs i = s.procs i := by
        rw [procs_eq h₃.rest, procs_eq h₂.rest, procs_eq h₁.rest]
      apply wp_setProc h₃.pages
      intro s₄ hproc₄ hm hh₄ ht₄
      rw [hproc] at hproc₄
      refine ⟨own₃, fl₃, hh₄, h₃.ranges.congr ht₄.apart, hproc₄, ?_, ?_, ?_, ?_⟩
      · rw [hm]
        rw [List.append_assoc, List.append_assoc] at hp₃
        exact hp₃
      · rw [hm]
        exact h₃.tables
      · simp only [kernBase, pgSize]
        rw [hm, h₃.leaf _ (by decide) (by omega), h₂.leaf _ (by decide) (by omega),
          h₁.leaf _ (by decide) (by decide)]
        exact leaf_zeroed hzero
      · have hpl := hpl₁.trans (hpl₂.trans hpl₃)
        exact ⟨by rw [hm]; exact hpl.taken, hpl.fresh, by rw [hm]; exact hpl.nodes,
          by rw [hm]; exact hpl.others, by rw [hm]; exact hpl.tidy⟩
    · rw [h₂.leaf _ (by omega) (by omega), h₁.leaf _ (by omega)
        (by simp only [userStackTop, pgSize]; omega)]
      exact leaf_zeroed hzero
  · rw [h₁.leaf _ (by omega) (by simp only [userStackTop, pgSize]; omega)]
    exact leaf_zeroed hzero

-- ==== the tables

/-- Memory is in the third gigabyte. -/
theorem px_two {va : Nat} (hlo : dramBase ≤ va) (hhi : va < 0xC0000000) :
    px 2 va = 2 := by
  apply Fin.ext
  rw [px_val]
  simp only [dramBase] at hlo
  show va / 2 ^ 30 % 512 = 2
  omega

theorem systemTables_eq {tf : Nat} (hlo : dramBase ≤ tf) (hhi : tf < 0xC0000000)
    (htrap : cfg.trapSecStart < 0xC0000000) :
    systemTables cfg tf = [[1], [1, 511], [2], [2, px 1 tf]] ++
      if px 1 cfg.trapSecStart = px 1 tf then [] else [[2, px 1 cfg.trapSecStart]] := by
  have hbase : dramBase ≤ cfg.trapSecStart := by
    have := cfg.trap_base
    simp only [kernBase, dramBase, pgSize] at this ⊢
    omega
  have h₁ : wayTo [[]] (userStackTop - pgSize) = [[1], [1, 511]] := by decide
  have h₂ : wayTo [[], [1], [1, 511]] tf = [[2], [2, px 1 tf]] := by
    unfold wayTo vpath absent
    rw [px_two hlo hhi]
    simp
  have h₃ : wayTo [[], [1], [1, 511], [2], [2, px 1 tf]] cfg.trapSecStart
      = if px 1 cfg.trapSecStart = px 1 tf then []
        else [[2, px 1 cfg.trapSecStart]] := by
    unfold wayTo vpath absent
    rw [px_two hbase htrap]
    simp
  unfold systemTables waysTo waysTo waysTo waysTo
  rw [h₁]
  show [[1], [1, 511]] ++ (wayTo [[], [1], [1, 511]] tf ++
    (wayTo ([[], [1], [1, 511]] ++ wayTo [[], [1], [1, 511]] tf) cfg.trapSecStart
      ++ [])) = _
  rw [h₂]
  show [[1], [1, 511]] ++ ([[2], [2, px 1 tf]] ++
    (wayTo [[], [1], [1, 511], [2], [2, px 1 tf]] cfg.trapSecStart ++ [])) = _
  rw [h₃, List.append_nil]
  rfl

/-- How many tables a new process needs. -/
def tableCount (cfg : Config) (trapframe : Nat) : Nat :=
  if px 1 cfg.trapSecStart = px 1 trapframe then 4 else 5

theorem length_systemTables {tf : Nat} (hlo : dramBase ≤ tf)
    (hhi : tf < 0xC0000000) (htrap : cfg.trapSecStart < 0xC0000000) :
    (systemTables cfg tf).length = tableCount cfg tf := by
  rw [systemTables_eq hlo hhi htrap]
  unfold tableCount
  split <;> rfl

-- ==== the number of files

/-- The number of files `n`, stored behind the page `p`. -/
def counted (cfg : Config) (n p : Nat) (m : Mem) : Mem :=
  if cfg.tableFits then m else store m 4 (p + FileTable.nfileOff) n

/-- The page the file table of a process founded on this list gets. -/
def filesPage (cfg : Config) (fl : List Nat) : Option Nat :=
  fl[tableCount cfg (fl.headD 0) + 5]?

/-- The number of files of a process founded on this list is stored where
it does no harm: in a page that stays free, or in an entry of its last
table that is then no leaf for user mode. -/
def Aside (cfg : Config) (n : Nat) (fl : List Nat) : Prop :=
  cfg.tableFits = true ∨
    ∀ p, filesPage cfg fl = some p →
      p + pgSize ∈ fl.drop (tableCount cfg (fl.headD 0) + 6) ∨
      (fl[tableCount cfg (fl.headD 0) + 4]? = some (p + pgSize) ∧
        (n &&& pteV = 0 ∨ n &&& pteU = 0))

variable {n p q : Nat} {m : Mem}

@[simp] theorem wp_countFiles {Q : Unit → Kernel → Prop} :
    Wp bad E (countFiles cfg p) Q s
      ↔ Q () { s with mem := counted cfg s.hostFiles p s.mem } := by
  simp only [countFiles, counted, wp_bind, wp_get]
  split
  · rw [wp_pure]
  · simp only [sw, onMem, wp_modify]

/-- Only the page behind is written. -/
theorem counted_agree (hp : p % pgSize = 0) (hq : q % pgSize = 0)
    (hne : cfg.tableFits = false → q ≠ p + pgSize) :
    Agree m (counted cfg n p m) q (q + 4096) := by
  unfold counted
  split
  · exact Agree.refl m q _
  · next hfits =>
    have := hne (Bool.not_eq_true _ ▸ hfits)
    refine store_agree m ?_
    simp only [pgSize, FileTable.nfileOff, FileTable.ofileOff, FileTable.fileSize,
      maxFiles] at hp hq this ⊢
    omega

/-- Link words are not written. -/
theorem Heap.counted (hh : Heap s own fl) (hp : p % pgSize = 0) :
    Heap { s with mem := counted cfg n p s.mem } own fl where
  pool := hh.pool.write rfl rfl fun q hq => by
    have hal := (hh.pool.page q hq).aligned
    unfold Pke.counted
    split
    · exact Agree.refl s.mem q _
    · refine store_agree s.mem ?_
      simp only [pgSize, FileTable.nfileOff, FileTable.ofileOff, FileTable.fileSize,
        maxFiles] at hp hal ⊢
      omega
  free := hh.free
  page q hq := PageIn.congr (s := s) rfl (hh.page q hq)

/-- Where the number goes: nowhere, into a free page, or into the table of
the trap section. -/
def Lands (cfg : Config) (n : Nat) (m : Mem) (root p : Nat) (fl : List Nat) :
    Prop :=
  cfg.tableFits = true ∨ p + pgSize ∈ fl ∨
    (tableAt m root (vpath cfg.trapSecStart) = some (p + pgSize) ∧
      (n &&& pteV = 0 ∨ n &&& pteU = 0))

/-- No page in use is written but a table of the process. -/
theorem Lands.agree (hl : Lands cfg n s.mem root p fl) (hh : Heap s own fl)
    (hT : Tables s.mem own i root) (hp : p % pgSize = 0) (hq : q % pgSize = 0)
    (hused : own q ≠ .free) (htab : ∀ path, own q ≠ .table i path) :
    Agree s.mem (counted cfg n p s.mem) q (q + 4096) := by
  refine counted_agree hp hq fun hfits heq => ?_
  rcases hl with h | h | ⟨h, -⟩
  · rw [h] at hfits
    cases hfits
  · exact hused ((hh.free q).mpr (heq ▸ h))
  · exact htab _ (heq ▸ hT _ _ (vpath_lt _) h)

/-- The page in front of the trap section's megabytes shares its table. -/
theorem vpath_stray (cfg : Config) :
    vpath (kernBase + pgSize) = vpath cfg.trapSecStart := by
  have hlo := cfg.trap_base
  have hhi := cfg.trap_near
  simp only [kernBase, pgSize] at hlo hhi ⊢
  unfold vpath
  congr 1
  · apply Fin.ext
    rw [px_val, px_val]
    omega
  · congr 1
    apply Fin.ext
    rw [px_val, px_val]
    omega

/-- In a table the number is an entry. -/
theorem counted_entry (hfits : cfg.tableFits = false) (hn : n < 1024)
    (hrow : row m (p + pgSize) (px 0 (kernBase + pgSize)) = 0) :
    counted cfg n p m
      = store m 8 (p + pgSize + 8 * px 0 (kernBase + pgSize)) n := by
  have hpx : (px 0 (kernBase + pgSize) : Nat) = 1 := rfl
  have haddr : p + FileTable.nfileOff = p + pgSize + 8 * 1 := rfl
  unfold row at hrow
  rw [hpx] at hrow ⊢
  unfold counted
  rw [hfits, if_neg Bool.false_ne_true, haddr]
  refine store_widen (k := 4) (Nat.lt_trans hn (by decide)) fun x hlo hhi => ?_
  exact eq_zero_of_load hrow (by omega) (by omega)

/-- What the store does to the tree of the process: at most it adds the
stray leaf. -/
theorem Lands.tree (hl : Lands cfg n s.mem root p fl) (hh : Heap s own fl)
    (hT : Tables s.mem own i root) (hp : p % pgSize = 0) (hn : n < 1024)
    (htidy : TidyTables s.mem root)
    (hclear : leaf s.mem root (kernBase + pgSize) = none) :
    (∀ q, q.length < 3 →
      tableAt (counted cfg n p s.mem) root q = tableAt s.mem root q) ∧
    ∀ va, va < 2 ^ 39 →
      leaf (counted cfg n p s.mem) root va = leaf s.mem root va ∨
      (leaf s.mem root va = none ∧
        ∀ w, leaf (counted cfg n p s.mem) root va = some w →
          StrayLeaf cfg (va / pgSize) w) := by
  by_cases hout : ∀ path t, own t = .table i path →
      Agree s.mem (counted cfg n p s.mem) t (t + 4096)
  · exact ⟨fun q hq => tableAt_congr hT hout q (Nat.le_of_lt hq),
      fun va _ => Or.inl (leaf_congr hT hout)⟩
  -- the page behind is a table, so it is the one of the trap section
  have hin : cfg.tableFits = false ∧
      tableAt s.mem root (vpath cfg.trapSecStart) = some (p + pgSize) ∧
      (n &&& pteV = 0 ∨ n &&& pteU = 0) := by
    have hfits : cfg.tableFits = false := by
      by_contra hne
      apply hout
      intro path t ht
      exact counted_agree hp (hh.table_aligned path t ht) fun h => absurd h hne
    refine ⟨hfits, (hl.resolve_left ?_).resolve_left fun hfree => hout ?_⟩
    · rw [hfits]
      exact Bool.false_ne_true
    · intro path t ht
      refine counted_agree hp (hh.table_aligned path t ht) fun _ heq => ?_
      rw [heq, (hh.free _).mpr hfree] at ht
      cases ht
  obtain ⟨hfits, ht, hflags⟩ := hin
  rw [← vpath_stray cfg] at ht
  have hrow : row s.mem (p + pgSize) (px 0 (kernBase + pgSize)) = 0 := by
    rw [leaf_eq ht] at hclear
    rcases htidy _ _ (vpath_lt _) ht (px 0 (kernBase + pgSize)) with
      hzero | ⟨k, f, -, -, -, hodd, -, hw⟩
    · exact hzero
    · -- an entry that is not zero is valid
      have hv : row s.mem (p + pgSize) (px 0 (kernBase + pgSize)) &&& pteV ≠ 0 := by
        rw [hw, show pteV = 2 ^ 1 - 1 from rfl, Nat.and_two_pow_sub_one_eq_mod]
        omega
      unfold validEntry at hclear
      rw [if_pos hv] at hclear
      cases hclear
  rw [counted_entry hfits hn hrow]
  have h39 : kernBase + pgSize < 2 ^ 39 := by decide
  refine ⟨tableAt_store hT hh.table_aligned ht n, fun va hva => ?_⟩
  rw [leaf_store hT hh.table_aligned ht n h39 hva]
  by_cases hpage : va / 4096 = (kernBase + pgSize) / 4096
  · refine Or.inr ⟨?_, fun w hw => ?_⟩
    · rw [leaf_page h39 hva hpage]
      exact hclear
    · rw [if_pos hpage, Nat.mod_eq_of_lt (Nat.lt_trans hn (by decide))] at hw
      unfold validEntry at hw
      split at hw
      · next hv =>
        obtain rfl := Option.some.inj hw
        exact ⟨hfits, hpage, hn, hflags.resolve_left hv⟩
      · cases hw
  · exact Or.inl (if_neg hpage)

/-- The space of a new process after the store. -/
theorem Space.counted (hS : Space cfg P s own i fun _ _ => False)
    (hl : Lands cfg n s.mem (s.procs i).pagetable p fl) (hh : Heap s own fl)
    (hp : p % pgSize = 0) (hn : n < 1024)
    (htidy : TidyTables s.mem (s.procs i).pagetable)
    (hclear : leaf s.mem (s.procs i).pagetable (kernBase + pgSize) = none) :
    Space cfg P { s with mem := counted cfg n p s.mem } own i
      fun _ _ => False := by
  obtain ⟨htables, hleaf⟩ := hl.tree hh hS.regions.tables hp hn htidy hclear
  have hinfo := hS.regions.owner
  have hag : Agree s.mem (Pke.counted cfg n p s.mem) (s.procs i).mappedInfo
      ((s.procs i).mappedInfo + 4096) := by
    refine hl.agree hh hS.regions.tables hp
      (tag_page (n := i) hh (by rw [hinfo]; rfl)).aligned ?_ fun path => ?_
    · rw [hinfo]; exact Owner.noConfusion
    · rw [hinfo]; exact Owner.noConfusion
  have hat : ∀ k < maxRegions,
      regionAt (Pke.counted cfg n p s.mem) (s.procs i).mappedInfo k
        = regionAt s.mem (s.procs i).mappedInfo k :=
    fun k hk => regionAt_agree hag hk
  constructor
  case regions =>
    apply hS.regions.transfer _ hinfo hag (fun _ _ => rfl)
    · intro va w hva hw _
      rcases hleaf va hva with h | ⟨h, -⟩
      · exact h.trans hw
      · rw [h] at hw
        cases hw
    · intro va w hva hw
      rcases hleaf va hva with h | ⟨-, h⟩
      · exact Or.inl ⟨h ▸ hw, id⟩
      · exact Or.inr (Or.inr (h w hw))
    · intro path t hlen ht
      exact hS.regions.tables path t hlen ((htables path hlen).symm.trans ht)
  case kstack => exact hS.kstack
  case three => exact hS.three
  case stack => exact (hat 0 (by decide)).trans hS.stack
  case context => exact (hat 1 (by decide)).trans hS.context
  case system => exact (hat 2 (by decide)).trans hS.system
  case image =>
    intro k h3 hk
    have hsame := hat k (Nat.lt_of_lt_of_le hk hS.regions.table.count)
    show ((regionAt (Pke.counted cfg n p s.mem) _ k).segType = _ ∨ _) ∧ P _
    rw [hsame]
    exact hS.image k h3 hk

/-- The store stays in the process's own tables and in free pages. -/
theorem Lands.touches (hl : Lands cfg n s.mem root p fl) (hh : Heap s own fl)
    (hT : Tables s.mem own i root) (hp : p % pgSize = 0) :
    Touches i s own { s with mem := Pke.counted cfg n p s.mem } own where
  apart := rfl
  keep _ _ _ := rfl
  agree q hq hused htag := hl.agree hh hT hp hq hused fun path hpath =>
    htag (by rw [hpath]; rfl)
  yield _ h := h.imp id Or.inr

-- ==== alloc_process

/-- Where the pages of a new address space are from, and its tables. -/
structure LaidOut (cfg : Config) (p : Process) (m : Mem) (fl fl' : List Nat) :
    Prop where
  list : ∃ us tk, fl = p.trapframe :: p.pagetable :: (p.kstack - pgSize) ::
      us :: p.mappedInfo :: (tk ++ fl') ∧
    TablesAt m p.pagetable (systemTables cfg p.trapframe) tk
  bounds : dramBase ≤ p.trapframe ∧ p.trapframe < 0xC0000000
  present : Present m p.pagetable ([] :: systemTables cfg p.trapframe)
  tidy : TidyTables m p.pagetable
  clear : leaf m p.pagetable (kernBase + pgSize) = none

/-- The table of the trap section is the last one. -/
theorem getLast_systemTables {tf : Nat} (hlo : dramBase ≤ tf)
    (hhi : tf < 0xC0000000) :
    (systemTables cfg tf).getLast? = some (vpath cfg.trapSecStart) := by
  have hbase := cfg.trap_base
  have hnear := cfg.trap_near
  simp only [kernBase, pgSize] at hbase hnear
  have hpx : px 2 cfg.trapSecStart = 2 :=
    px_two (by simp only [dramBase]; omega) (by omega)
  rw [systemTables_eq hlo hhi (by omega)]
  unfold vpath
  rw [hpx]
  split
  · next heq =>
    rw [heq]
    rfl
  · rfl

theorem LaidOut.suffix {pr : Process} (h : LaidOut cfg pr m fl fl') : fl' <:+ fl := by
  obtain ⟨us, tk, hfl, -⟩ := h.list
  rw [hfl]
  exact List.suffix_append (_ :: _ :: _ :: us :: _ :: tk) fl'

/-- The file table comes behind the page tables. -/
theorem LaidOut.filesPage {pr : Process} (h : LaidOut cfg pr m fl (p :: fl')) :
    filesPage cfg fl = some p ∧ ∃ us tk, fl = pr.trapframe :: pr.pagetable ::
        (pr.kstack - pgSize) :: us :: pr.mappedInfo :: (tk ++ p :: fl') ∧
      TablesAt m pr.pagetable (systemTables cfg pr.trapframe) tk ∧
      tk.length = tableCount cfg (fl.headD 0) := by
  obtain ⟨us, tk, hfl, htk⟩ := h.list
  have hnear := cfg.trap_near
  have hlen : tk.length = tableCount cfg (fl.headD 0) := by
    rw [← htk.length_eq, hfl]
    refine length_systemTables h.bounds.1 h.bounds.2 ?_
    simp only [kernBase, pgSize] at hnear
    omega
  refine ⟨?_, us, tk, hfl, htk, hlen⟩
  unfold Pke.filesPage
  rw [← hlen, hfl]
  show (tk ++ p :: fl')[tk.length]? = some p
  rw [List.getElem?_append_right (Nat.le_refl _), Nat.sub_self]
  rfl

theorem LaidOut.lands {pr : Process} (h : LaidOut cfg pr m fl (p :: fl'))
    (ha : Aside cfg n fl) : Lands cfg n m pr.pagetable p fl' := by
  obtain ⟨hat, us, tk, hfl, htk, hlen⟩ := h.filesPage
  refine ha.imp id fun hpage => ?_
  rw [← hlen] at hpage
  refine (hpage p hat).imp (fun hmem => ?_) fun hlast => ⟨?_, hlast.2⟩
  · rw [hfl] at hmem
    change p + pgSize ∈ (tk ++ p :: fl').drop (tk.length + 1) at hmem
    rwa [List.drop_append, List.drop_eq_nil_of_le (Nat.le_succ _), List.nil_append,
      Nat.add_sub_cancel_left] at hmem
  · -- the page in front of the file table on the list
    have hfront : fl[tk.length + 4]? = tk.getLast? := by
      have hpos : 0 < tk.length := by
        rw [hlen]
        unfold tableCount
        split
        · decide
        · decide
      obtain ⟨k, hk⟩ := Nat.exists_eq_succ_of_ne_zero (Nat.ne_of_gt hpos)
      rw [hfl, List.getLast?_eq_getElem?, hk]
      show (tk ++ p :: fl')[k]? = tk[k]?
      exact List.getElem?_append_left (by omega)
    rw [hfront] at hlast
    exact htk.last (getLast_systemTables h.bounds.1 h.bounds.2) hlast.1

/-- The pages `alloc_process` takes: six of its own, and the tables of the
three mappings. The first page is the trapframe, mapped at its own
address. -/
def buildPages (cfg : Config) (fl : List Nat) : Nat :=
  (systemTables cfg (fl.headD 0)).length + 6

theorem length_absent_le (ps : List (List (Fin 512))) (q : List (Fin 512)) :
    (absent ps q).length ≤ 1 := by
  unfold absent
  split
  · exact Nat.zero_le 1
  · exact Nat.le_refl 1

theorem length_wayTo_le (ps : List (List (Fin 512))) (va : Nat) :
    (wayTo ps va).length ≤ 2 := by
  have h₁ := length_absent_le ps [px 2 va]
  have h₂ := length_absent_le ps (vpath va)
  unfold wayTo
  rw [List.length_append]
  omega

theorem buildPages_le (cfg : Config) (fl : List Nat) : buildPages cfg fl ≤ 12 := by
  unfold buildPages systemTables waysTo waysTo waysTo waysTo
  simp only [List.length_append, List.length_nil]
  have h₁ := length_wayTo_le [[]] (userStackTop - pgSize)
  have h₂ := length_wayTo_le ([[]] ++ wayTo [[]] (userStackTop - pgSize))
    (fl.headD 0)
  have h₃ := length_wayTo_le ([[]] ++ wayTo [[]] (userStackTop - pgSize)
    ++ wayTo ([[]] ++ wayTo [[]] (userStackTop - pgSize)) (fl.headD 0))
    cfg.trapSecStart
  omega

/-- `alloc_process` up to `files_create`, page by page. -/
theorem wp_buildSpace_planted (hh : Heap s own fl) (hr : Ranges cfg s)
    (hroom : buildPages cfg fl ≤ fl.length + 1 ∨
      (bad (.alloc 0) ∧ ∀ e s', E e s')) :
    Wp bad E (buildSpace cfg i) (fun _ s' => ∃ own' fl', Heap s' own' fl' ∧
      Tables s'.mem own' i (s'.procs i).pagetable ∧
      LaidOut cfg (s'.procs i) s'.mem fl fl') s := by
  have hroom' : Room bad ((systemTables cfg (fl.headD 0)).length + 5) fl := by
    refine hroom.imp (fun h => ?_) And.left
    unfold buildPages at h
    omega
  unfold buildSpace
  apply wp_buildDraft hh hroom'
  intro us s₁ own₁ fl₁ h₁ room₁
  have hhead : fl.headD 0 = (s₁.procs i).trapframe := by
    rw [h₁.list]
    rfl
  have hlen₁ : fl.length = fl₁.length + 5 := by
    rw [h₁.list]
    rfl
  have htables : Enough E (systemTables cfg (s₁.procs i).trapframe).length
      fl₁ := by
    refine hroom.imp (fun h => ?_) And.right
    unfold buildPages at h
    rw [hhead] at h
    omega
  have hr₁ := hr.congr h₁.touches.apart
  have htf := hr₁.frame (tag_page (n := i) h₁.pages
    (by rw [h₁.draft.trapframe]; rfl))
  have hbase := cfg.trap_base
  simp only [kernBase, pgSize] at hbase
  rw [wp_bind]
  apply (wp_mapSystemRegions_planted h₁.pages hr₁ h₁.draft htables).mono
  intro _ s₂ hres
  obtain ⟨own₂, fl₂, hh₂, hr₂, hproc₂, hpres₂, hT₂, hclear₂, hpl⟩ := hres
  obtain ⟨tk, hfl₁, htk⟩ := hpl.taken
  apply wp_setAcct (i := i) hh₂
  intro s₃ hr₃ hm₃ hh₃ _
  have hslot : s₃.procs i = { s₁.procs i with totalMappedRegion := 3 } := by
    rw [procs_eq hr₃, hproc₂]
  refine ⟨own₂, fl₂, hh₃, ?_, ?_⟩
  · rw [hslot, hm₃]
    exact hT₂
  · rw [hslot, hm₃]
    refine ⟨⟨us, tk, ?_, htk⟩, ⟨?_, ?_⟩, hpres₂, hpl.tidy ?_, hclear₂⟩
    · rw [h₁.list, hfl₁]
    · show dramBase ≤ (s₁.procs i).trapframe
      simp only [dramBase]
      omega
    · show (s₁.procs i).trapframe < 0xC0000000
      omega
    · intro q t hq ht j
      obtain ⟨rfl, rfl⟩ := tableAt_zeroed h₁.draft.root_zero ht
      have hj := j.isLt
      refine Or.inl (load_eq_zero fun x hlo hhi => ?_)
      exact h₁.draft.root_zero x (by omega) (by omega)

/-- The page of the file table was taken and filled in. -/
structure Filed (i : Slot) (p : Nat) (s : Kernel) (own : Nat → Owner)
    (fl : List Nat) (s' : Kernel) (own' : Nat → Owner) (fl' : List Nat) :
    Prop where
  list : fl = p :: fl'
  rest : s'.rest = s.rest
  pages : Heap s' own' fl'
  touches : Touches i s own s' own'
  was : own p = .free
  held : own' p = .held
  keep : ∀ q, own q ≠ .free → own' q = own q
  agree : ∀ q, q % pgSize = 0 → own q ≠ .free → Agree s.mem s'.mem q (q + 4096)

/-- `files_create`: the page goes out of sight, and the number of files is
stored behind it. -/
theorem wp_filesCreate {Q : Nat → Kernel → Prop} (hh : Heap s own fl)
    (hroom : Room bad (n + 1) fl)
    (hok : ∀ p s' own' fl', Filed i p s own fl s' own' fl' →
      Q p { s' with mem := counted cfg s.hostFiles p s'.mem }) :
    Wp bad E (filesCreate cfg) Q s := by
  unfold filesCreate
  rw [wp_bind]
  apply wp_take (i := i) (fun _ => .held)
    (fun _ => ⟨Owner.noConfusion, Or.inl rfl⟩) hh hroom
  intro p s₁ own₁ fl₁ h₁ _
  have hpage : PageIn s p := hh.free_page h₁.was
  have hother : ∀ q, q % pgSize = 0 → q ≠ p →
      Agree s₁.mem (cfg.filesInit p s₁.mem) q (q + 4096) := by
    intro q hq hqp
    apply cfg.files_own
    have := page_disjoint hq hpage.aligned hqp
    simp only [pgSize]
    omega
  have hused : ∀ q, own q ≠ .free → q ≠ p := by
    intro q hq hqp
    rw [hqp] at hq
    exact hq h₁.was
  have hagree : ∀ q, q % pgSize = 0 → own q ≠ .free →
      Agree s.mem (cfg.filesInit p s₁.mem) q (q + 4096) := by
    intro q hq hown
    have h := hother q hq (hused q hown)
    rw [h₁.mem] at h ⊢
    exact h
  simp only [wp_bind, onMem, wp_modify, wp_countFiles, wp_pure]
  rw [← hostFiles_eq h₁.rest] at hok
  refine hok p { s₁ with mem := cfg.filesInit p s₁.mem } own₁ fl₁ ⟨h₁.head,
    h₁.rest, ?_, ?_, h₁.was, h₁.new, h₁.keep, hagree⟩
  · refine h₁.pages.write (by rfl) (by rfl) fun q hq => ?_
    apply hother q (h₁.pages.free_page hq).aligned
    intro hqp
    rw [hqp, h₁.new] at hq
    cases hq
  · exact ⟨h₁.touches.apart, h₁.touches.keep,
      fun q hq hown _ => hagree q hq hown, h₁.touches.yield⟩

section Filing

variable {s₁ s₂ : Kernel} {own₁ own₂ : Nat → Owner} {fl₁ fl₂ : List Nat}

/-- Taking the page of the file table leaves the tree. -/
theorem Filed.tree (h : Filed i p s₁ own₁ fl₁ s₂ own₂ fl₂)
    (hh : Heap s₁ own₁ fl₁) (hT : Tables s₁.mem own₁ i root) :
    Tables s₂.mem own₂ i root ∧
    (∀ q, q.length ≤ 3 → tableAt s₂.mem root q = tableAt s₁.mem root q) ∧
    (∀ va, leaf s₂.mem root va = leaf s₁.mem root va) ∧
    (TidyTables s₁.mem root → TidyTables s₂.mem root) := by
  have hag : ∀ path t, own₁ t = .table i path →
      Agree s₁.mem s₂.mem t (t + 4096) := fun path t ht =>
    h.agree t (hh.table_aligned path t ht) (by rw [ht]; exact Owner.noConfusion)
  have hsame := tableAt_congr hT hag
  refine ⟨?_, hsame, fun va => leaf_congr hT hag, fun htidy q t hq ht j => ?_⟩
  · refine hT.congr hag fun path t ht => ?_
    rw [h.keep t (by rw [ht]; exact Owner.noConfusion), ht]
  · have hold := (hsame q (Nat.le_of_lt hq)).symm.trans ht
    have hj := j.isLt
    have hrow : row s₂.mem t j = row s₁.mem t j :=
      load_agree ((hag q t (hT q t hq hold)).mono (by omega) (by omega))
    rw [hrow]
    exact htidy q t hq hold j

/-- Where the number of files goes once its page has been filled in. -/
theorem Filed.lands {pr : Process} (h : Filed i p s₁ own₁ fl₁ s₂ own₂ fl₂)
    (hh : Heap s₁ own₁ fl₁) (hT : Tables s₁.mem own₁ i pr.pagetable)
    (hlaid : LaidOut cfg pr s₁.mem fl fl₁) (ha : Aside cfg n fl) :
    Lands cfg n s₂.mem pr.pagetable p fl₂ := by
  have hlist := h.list
  subst hlist
  unfold Lands
  rw [(h.tree hh hT).2.1 _ (Nat.le_of_lt (vpath_lt _))]
  exact hlaid.lands ha

theorem Filed.aligned (h : Filed i p s₁ own₁ fl₁ s₂ own₂ fl₂)
    (hh : Heap s₁ own₁ fl₁) : p % pgSize = 0 :=
  (hh.free_page h.was).aligned

end Filing

theorem hostFiles_lt (s : Kernel) : (s.hostFiles : Nat) < 1024 :=
  Nat.lt_trans s.hostFiles.isLt (by decide)

/-- `alloc_process` up to the entry of the file table in the slot: the
address space, and the page of the file table filled in. -/
theorem wp_buildFiled (hh : Heap s own fl) (hr : Ranges cfg s)
    (hroom : Room bad 13 fl) {Q : Unit → Kernel → Prop}
    (hok : ∀ p s₁ own₁ fl₁ s₂ own₂ fl₂, s₁.hostFiles = s.hostFiles →
      Built cfg P i s own fl s₁ own₁ fl₁ → fl.length ≤ fl₁.length + 11 →
      LaidOut cfg (s₁.procs i) s₁.mem fl fl₁ → Filed i p s₁ own₁ fl₁ s₂ own₂ fl₂ →
      Wp bad E (setProc i fun q => { q with pfiles := p }) Q
        { s₂ with mem := counted cfg s.hostFiles p s₂.mem }) :
    Wp bad E (buildProcess cfg i) Q s := by
  unfold buildProcess
  rw [wp_bind]
  have hspace : Wp bad E (buildSpace cfg i) (fun _ s' => ∃ own' fl',
      Built cfg P i s own fl s' own' fl' ∧ fl.length ≤ fl'.length + 11) s :=
    wp_buildSpace hh hr (hroom.less (by omega))
  have hplan := hspace.also
    (wp_buildSpace_planted hh hr (hroom.imp (fun h => by
      have := buildPages_le cfg fl
      omega) fun h => ⟨h, fun _ _ => trivial⟩))
  refine ((leaves_buildSpace hostFiles_blind cfg (hostFiles_account i)).wp
    hplan).mono fun _ s₁ hres => ?_
  obtain ⟨⟨⟨own₁, fl₁, hb, hlen⟩, own₁', fl₁', hh₁', -, hlaid⟩, hfiles⟩ := hres
  obtain rfl : fl₁' = fl₁ := hb.pages.pool.list_eq hh₁'.pool.chain
  rw [wp_bind]
  apply wp_filesCreate (i := i) (n := 0) hb.pages (hroom.less (by omega))
  intro p s₂ own₂ fl₂ hf
  have hfiles' : s₁.hostFiles = s.hostFiles := hfiles
  rw [hfiles']
  exact hok p s₁ own₁ fl₁' s₂ own₂ fl₂ hfiles hb hlen hlaid hf

/-- A process was founded in the slot. -/
structure NewProcess (cfg : Config) (P : MappedRegion → Prop) (i : Slot)
    (s : Kernel) (own : Nat → Owner) (fl : List Nat) (s' : Kernel)
    (own' : Nat → Owner) (fl' : List Nat) : Prop where
  built : Built cfg P i s own fl s' own' fl'
  suffix : fl' <:+ fl
  trapframe : (s'.procs i).trapframe = fl.headD 0
  held : own' (s'.procs i).pfiles = .held
  was : own (s'.procs i).pfiles = .free

section Founding

variable {s₁ s₂ s₃ : Kernel} {own₁ own₂ : Nat → Owner} {fl₁ fl₂ : List Nat}

/-- The user stack of a new process, and its owner. -/
theorem Built.stackFrame (hb : Built cfg P i s own fl s' own' fl') :
    ∃ w, leaf s'.mem (s'.procs i).pagetable (userStackTop - pgSize) = some w ∧
      UserWritable w ∧ fl[3]? = some (pte2pa w) ∧
      own' (pte2pa w) = .frame i ((userStackTop - pgSize) / pgSize) ∧
      (pte2pa w) % pgSize = 0 ∧
      Agree s.mem s'.mem (pte2pa w) (pte2pa w + 4096) := by
  obtain ⟨w, hw, huser, hthird, hstack⟩ := hb.stack
  obtain ⟨w', hw', hrl⟩ := hb.space.regions.mapped 0
    (Nat.lt_of_lt_of_le (by decide) hb.space.three) .stack
    (congrArg MappedRegion.segType hb.space.stack) (userStackTop - pgSize)
    (by rw [hb.space.stack]; exact inPages_one.mpr rfl)
  rw [hw] at hw'
  obtain rfl := Option.some.inj hw'
  have hown := hrl.owner
  exact ⟨w, hw, huser, hthird, hown,
    (hb.pages.page _ (by rw [hown]; exact Owner.noConfusion)).aligned, hstack⟩

/-- With the file table on, the process is still in order. -/
theorem Filed.space (hf : Filed i p s₁ own₁ fl₁ s₂ own₂ fl₂)
    (hh : Heap s₁ own₁ fl₁) (hS : Space cfg P s₁ own₁ i fun _ _ => False) :
    Space cfg P s₂ own₂ i fun _ _ => False := by
  apply hS.frame (SameSpace.of_eq (by rw [procs_eq hf.rest]))
  · intro q hq
    apply hf.keep
    rcases hq with h | h
    · exact tag_used h
    · rw [h]; exact Owner.noConfusion
  · intro q hq
    have htag : (own₁ q).tag = some i.val := by
      rcases hq with ⟨path, h⟩ | h
      · rw [h]; rfl
      · rw [h]; rfl
    exact hf.agree q (tag_page hh htag).aligned (tag_used htag)
  · exact fun _ _ h => h

/-- What is left to say of a founded process, whatever `s` is told to be
the state it was founded in. -/
theorem Filed.newProcess {s₀ : Kernel} (hf : Filed i p s₁ own₁ fl₁ s₂ own₂ fl₂)
    (hb : Built cfg P i s own fl s₁ own₁ fl₁) (hlen : fl.length ≤ fl₁.length + 11)
    (hlaid : LaidOut cfg (s₁.procs i) s₁.mem fl fl₁)
    (hp₃ : s₃.procs i = { s₂.procs i with pfiles := p })
    (hh : Heap s₃ own₂ fl₂) (hS : Space cfg P s₃ own₂ i fun _ _ => False)
    (htouch : Touches i s₀ own s₃ own₂)
    (hstack : ∃ w, leaf s₃.mem (s₃.procs i).pagetable (userStackTop - pgSize)
        = some w ∧ UserWritable w ∧ fl[3]? = some (pte2pa w) ∧
      Agree s₀.mem s₃.mem (pte2pa w) (pte2pa w + 4096)) :
    NewProcess cfg P i s₀ own fl s₃ own₂ fl₂ := by
  have hslot : s₂.procs i = s₁.procs i := by rw [procs_eq hf.rest]
  refine ⟨⟨hh, hS, htouch, ?_, ?_, ?_, hstack⟩, ?_, ?_, ?_, ?_⟩
  · rw [hp₃, hslot]
    exact hb.total
  · intro q hq
    have e₁ := hb.keep q hq
    rw [hf.keep q (by rw [e₁]; exact hq), e₁]
  · have := congrArg List.length hf.list
    simp only [List.length_cons] at this
    omega
  · have hcons : fl₂ <:+ fl₁ := hf.list ▸ List.suffix_cons p fl₂
    exact hcons.trans hlaid.suffix
  · obtain ⟨us, tk, hfl, -⟩ := hlaid.list
    rw [hp₃, hslot, hfl]
    rfl
  · rw [hp₃]
    exact hf.held
  · rw [hp₃]
    show own p = .free
    by_contra hne
    have hwas := hf.was
    rw [hb.keep p hne] at hwas
    exact hne hwas

end Founding

/-- `alloc_process`, once it has found a slot. -/
theorem wp_buildProcess (hh : Heap s own fl) (hr : Ranges cfg s)
    (ha : Aside cfg s.hostFiles fl) (hroom : Room bad 13 fl) :
    Wp bad E (buildProcess cfg i) (fun _ s' => ∃ own' fl',
      NewProcess cfg P i s own fl s' own' fl') s := by
  apply wp_buildFiled (P := P) hh hr hroom
  intro p s₁ own₁ fl₁ s₂ own₂ fl₂ hfiles hb hlen hlaid hf
  have hT := hb.space.regions.tables
  have hp := hf.aligned hb.pages
  have hn := hostFiles_lt s
  have hslot : s₂.procs i = s₁.procs i := by rw [procs_eq hf.rest]
  have hl := hf.lands hb.pages hT hlaid ha
  obtain ⟨hT₂, -, hleaf₂, htidy₂⟩ := hf.tree hb.pages hT
  have hclear₂ := (hleaf₂ _).trans hlaid.clear
  obtain ⟨-, hleaf₃⟩ := hl.tree hf.pages hT₂ hp hn (htidy₂ hlaid.tidy) hclear₂
  have hS₃ := (hf.space hb.pages hb.space).counted (by rw [hslot]; exact hl)
    hf.pages hp hn (by rw [hslot]; exact htidy₂ hlaid.tidy)
    (by rw [hslot]; exact hclear₂)
  apply wp_setProc (hf.pages.counted hp)
  intro s₃ hp₃ hm₃ hh₃ ht₃
  obtain ⟨w, hw, huser, hthird, hown, hal, hstack⟩ := hb.stackFrame
  have hused : own₁ (pte2pa w) ≠ .free := by rw [hown]; exact Owner.noConfusion
  have hown₂ := (hf.keep _ hused).trans hown
  refine ⟨own₂, fl₂, hf.newProcess hb hlen hlaid hp₃ hh₃ ?_ ?_ ⟨w, ?_, huser,
    hthird, ?_⟩⟩
  · apply hS₃.frame
    · rw [hp₃]
      exact ⟨rfl, rfl, rfl, rfl, rfl⟩
    · exact fun _ _ => rfl
    · intro q _
      rw [hm₃]
      exact Agree.refl _ q _
    · exact fun _ _ h => h
  · exact ((hb.touches.trans hf.touches).trans (hl.touches hf.pages hT₂ hp)).trans ht₃
  · rw [hp₃, hslot, hm₃]
    rcases hleaf₃ (userStackTop - pgSize) (by decide) with h | ⟨h, -⟩
    · exact (h.trans (hleaf₂ _)).trans hw
    · rw [hleaf₂, hw] at h
      cases h
  · -- the user stack is neither free nor a table
    rw [hm₃]
    refine (hstack.trans (hf.agree _ hal hused)).trans
      (hl.agree hf.pages hT₂ hp hal ?_ fun path => ?_)
    · rw [hown₂]; exact Owner.noConfusion
    · rw [hown₂]; exact Owner.noConfusion

/-- The state with the number of files stored behind page `p` already. -/
def struck (cfg : Config) (s : Kernel) (p : Nat) : Kernel :=
  { s with mem := counted cfg s.hostFiles p s.mem }

theorem counted_congr {m' : Mem} {lo hi : Nat} (h : Agree m m' lo hi) :
    Agree (counted cfg n p m) (counted cfg n p m') lo hi := by
  unfold counted
  split
  · exact h
  · intro x hlo hhi
    unfold store
    rw [h x hlo hhi]

/-- `alloc_process` where the page behind the file table is in use, and not
by this process: the process is founded as if the number of files had been
there before. -/
theorem wp_buildProcess_struck (hh : Heap s own fl) (hr : Ranges cfg s)
    (hfile : filesPage cfg fl = some p) (hused : own (p + pgSize) ≠ .free)
    (htag : (own (p + pgSize)).tag ≠ some i.val) (hroom : Room bad 13 fl) :
    Wp bad E (buildProcess cfg i) (fun _ s' => ∃ own' fl',
      NewProcess cfg P i (struck cfg s p) own fl s' own' fl') s := by
  apply wp_buildFiled (P := P) hh hr hroom
  intro p' s₁ own₁ fl₁ s₂ own₂ fl₂ hfiles hb hlen hlaid hf
  have hlist := hf.list
  subst hlist
  obtain rfl : p' = p := Option.some.inj (hlaid.filesPage.1.symm.trans hfile)
  have hp := hf.aligned hb.pages
  have hslot : s₂.procs i = s₁.procs i := by rw [procs_eq hf.rest]
  have hbehind₁ : own₁ (p' + pgSize) = own (p' + pgSize) := hb.keep _ hused
  have hbehind : own₂ (p' + pgSize) = own (p' + pgSize) := by
    rw [hf.keep _ (by rw [hbehind₁]; exact hused), hbehind₁]
  -- the process has nothing on that page
  have hag : ∀ {m : Mem} q, (own₂ q).tag = some i.val →
      Agree m (counted cfg s.hostFiles p' m) q (q + 4096) := by
    intro m q hq
    refine counted_agree hp (tag_page hf.pages hq).aligned fun _ heq => ?_
    rw [heq, hbehind] at hq
    exact htag hq
  apply wp_setProc (hf.pages.counted hp)
  intro s₃ hp₃ hm₃ hh₃ ht₃
  obtain ⟨w, hw, huser, hthird, hown, hal, hstack⟩ := hb.stackFrame
  have hused₁ : own₁ (pte2pa w) ≠ .free := by rw [hown]; exact Owner.noConfusion
  have hleaf : ∀ va, leaf (counted cfg s.hostFiles p' s₂.mem)
      (s₁.procs i).pagetable va = leaf s₁.mem (s₁.procs i).pagetable va := by
    intro va
    obtain ⟨hT₂, -, hleaf₂, -⟩ := hf.tree hb.pages hb.space.regions.tables
    rw [← hleaf₂ va]
    exact leaf_congr hT₂ fun path t ht => hag t (by rw [ht]; rfl)
  refine ⟨own₂, fl₂, hf.newProcess hb hlen hlaid hp₃ hh₃ ?_ ?_ ⟨w, ?_, huser,
    hthird, ?_⟩⟩
  · apply (hf.space hb.pages hb.space).frame
    · rw [hp₃]
      exact ⟨rfl, rfl, rfl, rfl, rfl⟩
    · exact fun _ _ => rfl
    · intro q hq
      rw [hm₃]
      refine hag q ?_
      rcases hq with ⟨path, h⟩ | h
      · rw [h]; rfl
      · rw [h]; rfl
    · exact fun _ _ h => h
  · have hbase := hb.touches.trans hf.touches
    have hpast : Touches i (struck cfg s p') own
        { s₂ with mem := counted cfg s.hostFiles p' s₂.mem } own₂ :=
      ⟨hbase.apart, hbase.keep,
        fun q hq hu ht => counted_congr (hbase.agree q hq hu ht), hbase.yield⟩
    exact hpast.trans ht₃
  · rw [hp₃, hslot, hm₃]
    exact (hleaf _).trans hw
  · rw [hm₃]
    exact counted_congr (hstack.trans (hf.agree _ hal hused₁))

end Pke
