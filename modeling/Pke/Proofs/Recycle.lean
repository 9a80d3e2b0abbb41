/-
What becomes of the pages of a process that calls exec.

`realloc_process` gives the frames of the recorded regions back, in the
order of the region table, then the root table, and then takes pages
again: for the trapframe, the root, the user stack, and for the tables of
the three mappings every process starts with. The free list is a stack,
so the page given back last is taken first. `recycleList` (Release.lean)
is the list between the two halves; the place of a page on it decides:

- 0 is the old root table, and becomes the trapframe;
- 1 becomes the root table, and 3 to 6 or 7 become tables: zeroed;
- 2 becomes the user stack, which nobody clears;
- the others stay on the list.

A page on the list has its first doubleword overwritten by the link. So
the fate of an argument that is still in the caller's memory is decided
by where it is (`exec_strings_survive_iff`).
-/
import Pke.Lib.CString
import Pke.Proofs.Image
import Pke.Proofs.Ownership
import Pke.Proofs.Found

namespace Pke

open ByteMem Traced

variable {bad : Event → Prop} {E : Halt → Kernel → Prop}
variable {cfg : Config} {P : MappedRegion → Prop} {s s' : Kernel}
variable {own own' : Nat → Owner} {fl fl' : List Nat} {i : Slot}
variable {root info : Nat} {ps : List (List (Fin 512))} {X : Nat → Prop}

-- ==== realloc_process

/-- What `realloc_process` made of the pages on the list: the trapframe,
the root, the user stack and the tables, in this order. -/
structure Recycled (cfg : Config) (i : Slot) (s : Kernel) (own : Nat → Owner)
    (fl : List Nat) (us : Nat) (s' : Kernel) (fl' : List Nat) : Prop where
  taken : ∃ tk, recycleList s i fl
      = (s'.procs i).trapframe :: (s'.procs i).pagetable :: us :: (tk ++ fl') ∧
    TablesAt s'.mem (s'.procs i).pagetable
      (systemTables cfg (s'.procs i).trapframe) tk
  page : ∀ p ∈ recycleList s i fl, PageIn s p
  present : Present s'.mem (s'.procs i).pagetable
    ([] :: systemTables cfg (s'.procs i).trapframe)
  tidy : TidyTables s'.mem (s'.procs i).pagetable
  sp : load s'.mem 8 ((s'.procs i).trapframe + tfSp) = userStackTop
  links : ∀ p ∈ us :: fl', load s'.mem 8 p = 0 ∨
    load s'.mem 8 p ∈ recycleList s i fl
  tails : ∀ p, p % pgSize = 0 → (∀ path, own p ≠ .table i path) →
    p ≠ (s'.procs i).trapframe → p ≠ (s.procs i).mappedInfo →
    (∀ q, q.length < 3 → tableAt s'.mem (s'.procs i).pagetable q ≠ some p) →
    Agree s.mem s'.mem (p + 8) (p + 4096)
  others : ∀ p, p % pgSize = 0 → (∀ path, own p ≠ .table i path) →
    p ∉ recycleList s i fl → p ≠ (s.procs i).mappedInfo →
    Agree s.mem s'.mem p (p + 4096)

/-- The frames of the image that are given back. -/
def imageFrames (m : Mem) (root info n : Nat) : List Nat :=
  (List.range' 3 (n - 3)).flatMap fun k => regionFrames m root (regionAt m info k)

/-- Every process gives its stack and its trapframe back first. -/
theorem Space.recalled {heap : Nat → Nat → Prop} (hS : Space cfg P s own i heap) :
    recalledFrames s.mem (s.procs i).pagetable (s.procs i).mappedInfo
        (s.procs i).totalMappedRegion
      = frameAt s.mem (s.procs i).pagetable (userStackTop - pgSize) ::
        (s.procs i).trapframe ::
        imageFrames s.mem (s.procs i).pagetable (s.procs i).mappedInfo
          (s.procs i).totalMappedRegion := by
  obtain ⟨n, hn⟩ := Nat.exists_eq_add_of_le hS.three
  obtain ⟨w, hw, hpa, -, -⟩ := hS.contextLeaf
  have htf : frameAt s.mem (s.procs i).pagetable (s.procs i).trapframe
      = (s.procs i).trapframe := by
    unfold frameAt
    rw [hw]
    exact hpa
  have hrange : List.range (3 + n) = 0 :: 1 :: 2 :: List.range' 3 n := by
    rw [List.range_eq_range', Nat.add_comm]
    rfl
  have hone : ∀ va, freedFrames true s.mem (s.procs i).pagetable va 1
      = [frameAt s.mem (s.procs i).pagetable va] := by
    intro va
    unfold freedFrames
    rw [if_pos rfl, List.range_one, List.map_singleton, Nat.zero_mul, Nat.add_zero]
  unfold recalledFrames imageFrames
  rw [hn, Nat.add_sub_cancel_left, hrange, List.flatMap_cons, List.flatMap_cons,
    List.flatMap_cons, hS.stack, hS.context, hS.system]
  show freedFrames true _ _ _ 1 ++ (freedFrames true _ _ _ 1 ++ ([] ++ _)) = _
  rw [hone, hone, htf]
  rfl

theorem wp_reallocProcess_recycled {heap : Nat → Nat → Prop}
    (hh : Heap s own fl) (hr : Ranges cfg s) (hS : Space cfg P s own i heap)
    (hsmall : Small s i) (hroom : Enough E
      (tableCount cfg (s.procs i).pagetable + 3) (recycleList s i fl)) :
    Wp bad E (reallocProcess cfg i) (fun _ s' => ∃ us fl' own',
      Heap s' own' fl' ∧ Recycled cfg i s own fl us s' fl') s := by
  have hlong : 0 + 3 ≤ (recycleList s i fl).length := by
    unfold recycleList
    rw [hS.recalled]
    simp only [List.length_cons, List.length_append, List.length_reverse]
    omega
  have hroot : own (s.procs i).pagetable = .table i [] :=
    hS.regions.tables [] _ (by decide) rfl
  unfold reallocProcess
  apply wp_reallocDraft (n := 0) hh hS hsmall (Or.inl hlong)
  intro us s₁ own₁ fl₁ h₁ _
  have hr₁ : Ranges cfg s₁ := hr.congr h₁.touches.apart
  have hlen₁ := congrArg List.length h₁.list
  simp only [List.length_cons] at hlen₁
  -- the old root is the new trapframe
  have htf : (s₁.procs i).trapframe = (s.procs i).pagetable :=
    (List.cons.inj h₁.list).1.symm
  have hmem : MemPage (s.procs i).pagetable := hr.memPage (hh.table_page hroot)
  have hframe := hr.frame (hh.table_page hroot)
  have hcount : Enough E (systemTables cfg (s₁.procs i).trapframe).length fl₁ := by
    rw [htf, length_systemTables hmem.lo (by omega) (by omega)]
    exact hroom.less (by omega)
  rw [wp_bind]
  apply (wp_mapSystemRegions_planted h₁.pages hr₁ h₁.draft hcount).mono
  intro _ s₂ hres
  obtain ⟨own₂, fl₂, hh₂, -, hproc₂, hpres, -, -, hpl⟩ := hres
  apply wp_setAcct hh₂
  intro s₃ hr₃ hm₃ hh₃ _
  have hproc₃ : s₃.procs i = { s₁.procs i with totalMappedRegion := 3 } := by
    rw [procs_eq hr₃, hproc₂]
  have hinfo₁ : (s₁.procs i).mappedInfo = (s.procs i).mappedInfo := by
    rw [h₁.slot]
  obtain ⟨tk, hfl, htk⟩ := hpl.taken
  have hlist : recycleList s i fl = (s₁.procs i).trapframe ::
      (s₁.procs i).pagetable :: us :: (tk ++ fl₂) := by
    rw [h₁.list, hfl]
  -- the tables there are now
  have hnot : ∀ p, p ≠ (s₁.procs i).pagetable → p ∉ tk → ∀ q, q.length < 3 →
      tableAt s₂.mem (s₁.procs i).pagetable q ≠ some p := by
    intro p hne htkp q hq ht
    rcases List.mem_cons.mp ((hpres q hq).mpr ⟨p, ht⟩) with rfl | hmemq
    · exact hne (Option.some.inj ht).symm
    · obtain ⟨t, htmem, htq⟩ := htk.of_path hmemq
      rw [htq] at ht
      exact htkp (Option.some.inj ht ▸ htmem)
  have hnd : ((s₁.procs i).trapframe :: (s₁.procs i).pagetable :: us ::
      (tk ++ fl₂)).Nodup := hlist ▸ h₁.nodup
  have hzero : TidyTables s₁.mem (s₁.procs i).pagetable := by
    intro q t _ ht j
    obtain ⟨-, rfl⟩ := tableAt_zeroed h₁.draft.root_zero ht
    have hj := j.isLt
    left
    unfold row
    exact load_eq_zero fun x hlo hhi =>
      h₁.draft.root_zero x (by omega) (by omega)
  have hinfonot : ∀ p ∈ us :: fl₁, p ≠ (s.procs i).mappedInfo := by
    rintro p hp rfl
    have hown := h₁.draft.info
    rw [hinfo₁] at hown
    rcases List.mem_cons.mp hp with heq | hp
    · have hus := h₁.draft.ustack
      rw [← heq, hown] at hus
      cases hus
    · rw [(h₁.pages.free _).mpr hp] at hown
      cases hown
  refine ⟨us, fl₂, own₂, hh₃, ?_⟩
  constructor
  case taken =>
    rw [hproc₃, hm₃]
    exact ⟨tk, hlist, htk⟩
  case page => exact h₁.page
  case present => rw [hproc₃, hm₃]; exact hpres
  case tidy => rw [hproc₃, hm₃]; exact hpl.tidy hzero
  case sp =>
    rw [hproc₃, hm₃]
    have hpage := (h₁.page (s₁.procs i).trapframe (by rw [hlist]; exact List.mem_cons_self))
    have hne : (s₁.procs i).trapframe ≠ (s₁.procs i).mappedInfo := by
      intro heq
      have hown := h₁.draft.info
      rw [← heq, h₁.draft.trapframe] at hown
      cases hown
    have hnot₁ : (s₁.procs i).trapframe ∉ (s₁.procs i).pagetable :: us :: (tk ++ fl₂) :=
      (List.nodup_cons.mp hnd).1
    have hag := hpl.others _ hpage.aligned hne (hnot _
      (fun h => hnot₁ (h ▸ List.mem_cons_self))
      (fun h => hnot₁ (List.mem_cons_of_mem _ (List.mem_cons_of_mem _
        (List.mem_append_left _ h)))))
    show load s₂.mem 8 ((s₁.procs i).trapframe + tfSp) = userStackTop
    rw [load_agree (hag.mono (Nat.le_add_right ..) (by simp only [tfSp]; omega))]
    exact h₁.sp
  case links =>
    intro p hp
    have hp₁ : p ∈ us :: fl₁ := by
      rw [hfl]
      rcases List.mem_cons.mp hp with rfl | hp
      · exact List.mem_cons_self
      · exact List.mem_cons_of_mem _ (List.mem_append_right _ hp)
    have hin : p ∈ recycleList s i fl := by
      rw [h₁.list]
      exact List.mem_cons_of_mem _ (List.mem_cons_of_mem _ hp₁)
    have hroot' := (List.nodup_cons.mp (List.nodup_cons.mp hnd).2)
    have hne : p ≠ (s₁.procs i).pagetable := by
      rintro rfl
      rw [hfl] at hp₁
      exact hroot'.1 hp₁
    have htkp : p ∉ tk := by
      intro hmem
      obtain ⟨hus, hrest⟩ := List.nodup_cons.mp hroot'.2
      rcases List.mem_cons.mp hp with rfl | hp
      · exact hus (List.mem_append_left _ hmem)
      · exact List.disjoint_of_nodup_append hrest hmem hp
    have hag := hpl.others p (h₁.page p hin).aligned
      (by rw [hinfo₁]; exact hinfonot p hp₁) (hnot p hne htkp)
    rw [hm₃, load_agree (hag.mono (Nat.le_refl _) (by omega))]
    exact h₁.links p hp₁
  case tails =>
    intro p hal hp htfp hinfo htab
    rw [hproc₃, hm₃] at htab
    rw [hproc₃] at htfp
    rw [hm₃]
    have hne : p ≠ (s₁.procs i).pagetable := by
      rintro rfl
      exact htab [] (by decide) rfl
    exact (h₁.tails p hal hp htfp hne hinfo).trans
      ((hpl.others p hal (by rw [hinfo₁]; exact hinfo) htab).mono
        (Nat.le_add_right ..) (Nat.le_refl _))
  case others =>
    intro p hal hp hnotin hinfo
    have hout := hnotin
    rw [hlist] at hout
    simp only [List.mem_cons, List.mem_append, not_or] at hout
    rw [hm₃]
    exact (h₁.others p hal hp hnotin hinfo).trans (hpl.others p hal
      (by rw [hinfo₁]; exact hinfo) (hnot p hout.2.1 hout.2.2.2.1))

-- ==== bytes

/-- A doubleword that does not hold the letter `a` before the end of a
string. -/
def Foreign (w : Nat) : Prop :=
  w = 0 ∨ (w % 256 ≠ 97 ∧ w / 256 % 4 = 0 ∧ 0 < w / 2 ^ 24 ∧ w / 2 ^ 24 < 256 ∧
    w / 2 ^ 24 ≠ 97)

/-- Entries are no text: their flags are no letter, a page number has zeros
where the next byte has ones, and what is above is the number of a
gigabyte. -/
theorem Tidy.foreign {w : Nat} (h : Tidy w) : Foreign w := by
  rcases h with rfl | ⟨n, f, hlo, hhi, hf, hodd, hloc, rfl⟩
  · exact Or.inl rfl
  · refine Or.inr ⟨?_, ?_, ?_, ?_, ?_⟩
    all_goals omega

/-- Nor are links. -/
theorem foreign_page {p : Nat} (hp : MemPage p) (hhi : p + 4096 ≤ 0x88000000) :
    Foreign p := by
  have hal := hp.aligned
  have hlo := hp.lo
  simp only [pgSize, dramBase] at hal hlo
  refine Or.inr ⟨?_, ?_, ?_, ?_, ?_⟩
  all_goals omega

theorem load_eight (m : Mem) (q : Nat) :
    load m 8 q = (m q).toNat + 256 * ((m (q + 1)).toNat + 256 * ((m (q + 2)).toNat
      + 256 * ((m (q + 3)).toNat + 256 * ((m (q + 4)).toNat
      + 256 * ((m (q + 5)).toNat + 256 * ((m (q + 6)).toNat
      + 256 * (m (q + 7)).toNat)))))) := by
  simp only [load, Nat.add_assoc, Nat.reduceAdd, Nat.mul_zero, Nat.add_zero]

theorem Foreign.bytes {m : Mem} {q k : Nat} (h : Foreign (load m 8 q)) (hk : k < 8) :
    ¬ (m (q + k) = 97 ∧ m (q + k + 1) = 0) := by
  rintro ⟨ha, hz⟩
  have ha : (m (q + k)).toNat = 97 := by rw [ha]; rfl
  have hz : (m (q + k + 1)).toNat = 0 := by rw [hz]; rfl
  rw [load_eight] at h
  have h0 := (m q).toNat_lt
  have h1 := (m (q + 1)).toNat_lt
  have h2 := (m (q + 2)).toNat_lt
  have h3 := (m (q + 3)).toNat_lt
  have h4 := (m (q + 4)).toNat_lt
  have h5 := (m (q + 5)).toNat_lt
  have h6 := (m (q + 6)).toNat_lt
  have h7 := (m (q + 7)).toNat_lt
  unfold Foreign at h
  have hcase : k = 0 ∨ k = 1 ∨ k = 2 ∨ k = 3 ∨ k = 4 ∨ k = 5 ∨ k = 6 ∨ k = 7 := by
    omega
  rcases hcase with rfl | rfl | rfl | rfl | rfl | rfl | rfl | rfl
  all_goals
    simp only [Nat.add_assoc, Nat.reduceAdd, Nat.add_zero] at ha hz
    omega

theorem Foreign.top {m : Mem} {q : Nat} (h : Foreign (load m 8 q)) :
    m (q + 7) = 0 := by
  rw [load_eight] at h
  unfold Foreign at h
  apply UInt8.toNat_inj.mp
  show (m (q + 7)).toNat = 0
  omega

-- ==== the caller's page

/-- The page gets a place on the list where it is zeroed: the root or a
table. -/
def Cleared (cfg : Config) (s : Kernel) (i : Slot) (fl : List Nat) (p : Nat) :
    Prop :=
  (recycleList s i fl)[1]? = some p ∨
    ∃ k < tableCount cfg (s.procs i).pagetable,
      (recycleList s i fl)[k + 3]? = some p

/-- The page is among the frames that are given back. -/
def Recalls (s : Kernel) (i : Slot) (p : Nat) : Prop :=
  p ∈ recalledFrames s.mem (s.procs i).pagetable (s.procs i).mappedInfo
    (s.procs i).totalMappedRegion

theorem recalledFrames_congr {m m' : Mem} {d : Nat}
    (hreg : ∀ k < d, regionAt m' info k = regionAt m info k)
    (hleaf : ∀ va, leaf m' root va = leaf m root va) :
    recalledFrames m' root info d = recalledFrames m root info d := by
  unfold recalledFrames
  refine List.flatMap_congr fun k hk => ?_
  rw [hreg k (List.mem_range.mp hk)]
  have hfr : ∀ free a n, freedFrames free m' root a n = freedFrames free m root a n :=
    fun _ _ _ => freedFrames_congr fun _ _ => hleaf _
  unfold regionFrames
  simp only [hfr]

section Caller

variable {heap : Nat → Nat → Prop} {p v : Nat}
variable (hh : Heap s own fl) (hr : Ranges cfg s) (hS : Space cfg P s own i heap)
  (hp : own p = .frame i v ∨ own p = .code)
include hh hr hS hp

omit hh hr hS in
theorem frame_used : own p ≠ .free ∧ own p ≠ .held ∧ own p ≠ .regions i ∧
    ∀ path, own p ≠ .table i path := by
  rcases hp with h | h <;> rw [h] <;> exact ⟨nofun, nofun, nofun, nofun⟩

omit hr in
theorem Space.leaf_within {m' : Mem} (hw : Within s.mem m' p) (va : Nat) :
    leaf m' (s.procs i).pagetable va = leaf s.mem (s.procs i).pagetable va := by
  obtain ⟨-, hheld, -, htab⟩ := frame_used hp
  apply leaf_congr hS.regions.tables
  intro path t ht
  apply hw.agree (hh.table_aligned path t ht) (hh.page p hheld).aligned
  rintro rfl
  exact htab path ht

omit hr in
theorem Space.region_within {m' : Mem} {k : Nat} (hw : Within s.mem m' p)
    (hk : k < maxRegions) :
    regionAt m' (s.procs i).mappedInfo k
      = regionAt s.mem (s.procs i).mappedInfo k := by
  obtain ⟨-, hheld, hreg, -⟩ := frame_used hp
  apply regionAt_agree _ hk
  apply hw.agree (tag_page (n := i) hh (by rw [hS.regions.owner]; rfl)).aligned
    (hh.page p hheld).aligned
  intro heq
  exact hreg (heq ▸ hS.regions.owner)

omit hr in
/-- The content of a frame is not what steers exec. -/
theorem recalled_within {m' : Mem} (hw : Within s.mem m' p) :
    recalledFrames m' (s.procs i).pagetable (s.procs i).mappedInfo
        (s.procs i).totalMappedRegion
      = recalledFrames s.mem (s.procs i).pagetable (s.procs i).mappedInfo
        (s.procs i).totalMappedRegion := by
  exact recalledFrames_congr (fun k hk => Space.region_within hh hS hp hw
    (Nat.lt_of_lt_of_le hk hS.regions.table.count))
    (Space.leaf_within hh hS hp hw)

omit hr in
theorem recycleList_within {m' : Mem} (hw : Within s.mem m' p) :
    recycleList { s with mem := m' } i fl = recycleList s i fl := by
  have h := recalled_within hh hS hp hw
  unfold recycleList
  show (s.procs i).pagetable :: ((recalledFrames m' (s.procs i).pagetable
    (s.procs i).mappedInfo (s.procs i).totalMappedRegion).reverse ++ fl) = _
  rw [h]

omit hr in
theorem caller_within {m' : Mem} (hr : Ranges cfg s) (hw : Within s.mem m' p) :
    Heap { s with mem := m' } own fl ∧ Ranges cfg { s with mem := m' } ∧
      Space cfg P { s with mem := m' } own i heap := by
  obtain ⟨hfree, hheld, -, -⟩ := frame_used hp
  exact ⟨hh.within (hh.page p hheld).aligned hfree hw, ⟨hr.start, hr.stop⟩,
    hS.writeFrame hh hp rfl hw⟩

/-- Exec's rebuilding of the process, whatever the page holds. -/
theorem wp_realloc_within {m' : Mem} (hsmall : Small s i)
    (hw : Within s.mem m' p) (hroom : Enough E
      (tableCount cfg (s.procs i).pagetable + 3) (recycleList s i fl)) :
    Wp bad E (reallocProcess cfg i) (fun _ s' => ∃ us fl',
      Recycled cfg i { s with mem := m' } own fl us s' fl')
      { s with mem := m' } := by
  obtain ⟨hh', hr', hS'⟩ := caller_within hh hS hp hr hw
  have hsmall' : Small { s with mem := m' } i := by
    intro k hk
    show (regionAt m' (s.procs i).mappedInfo k).npages * pgSize < 2 ^ 32
    rw [Space.region_within hh hS hp hw
      (Nat.lt_of_lt_of_le hk hS.regions.table.count)]
    exact hsmall k hk
  apply (wp_reallocProcess_recycled hh' hr' hS' hsmall'
    (by rw [recycleList_within hh hS hp hw]; exact hroom)).mono
  rintro _ s' ⟨us, fl', -, -, hrec⟩
  exact ⟨us, fl', hrec⟩

variable {us : Nat} (hrec : Recycled cfg i s own fl us s' fl')
include hrec

omit hp in
theorem Recycled.tables : ∃ tk, recycleList s i fl
      = (s'.procs i).trapframe :: (s'.procs i).pagetable :: us :: (tk ++ fl') ∧
    TablesAt s'.mem (s'.procs i).pagetable
      (systemTables cfg (s'.procs i).trapframe) tk ∧
    tk.length = tableCount cfg (s.procs i).pagetable := by
  obtain ⟨tk, hlist, htk⟩ := hrec.taken
  have hpage := hh.table_page
    (hS.regions.tables [] (s.procs i).pagetable (by decide) rfl)
  have hframe := hr.frame hpage
  have htf : (s.procs i).pagetable = (s'.procs i).trapframe :=
    (List.cons.inj hlist).1
  refine ⟨tk, hlist, htk, ?_⟩
  rw [← htk.length_eq, ← htf,
    length_systemTables (hr.memPage hpage).lo (by omega) (by omega)]

omit hp in
/-- The cleared pages are the tables of the new process. -/
theorem Recycled.cleared_iff : Cleared cfg s i fl p ↔
    ∃ q, q.length < 3 ∧ tableAt s'.mem (s'.procs i).pagetable q = some p := by
  obtain ⟨tk, hlist, htk, hlen⟩ := hrec.tables hh hr hS
  unfold Cleared
  rw [← hlen, hlist]
  constructor
  · rintro (h | ⟨k, hk, h⟩)
    · obtain rfl := Option.some.inj h
      exact ⟨[], by decide, rfl⟩
    · have h : (tk ++ fl')[k]? = some p := h
      rw [List.getElem?_append_left hk] at h
      obtain ⟨q, -, hq⟩ := htk.of_page (List.mem_of_getElem? h)
      exact ⟨q, hq⟩
  · rintro ⟨q, hq, ht⟩
    rcases List.mem_cons.mp ((hrec.present q hq).mpr ⟨p, ht⟩) with rfl | hmemq
    · exact Or.inl ht
    · right
      obtain ⟨t, htmem, htq⟩ := htk.of_path hmemq
      obtain rfl := Option.some.inj (htq.symm.trans ht)
      obtain ⟨k, hk⟩ := List.mem_iff_getElem?.mp htmem
      have hklt := (List.getElem?_eq_some_iff.mp hk).1
      refine ⟨k, hklt, ?_⟩
      show (tk ++ fl')[k]? = some t
      rw [List.getElem?_append_left hklt]
      exact hk

omit hp in
/-- A cleared page holds nothing but entries. -/
theorem Recycled.rows (hc : Cleared cfg s i fl p) (j : Fin 512) :
    Foreign (row s'.mem p j) := by
  obtain ⟨q, hq, ht⟩ := (hrec.cleared_iff hh hr hS).mp hc
  exact (hrec.tidy q p hq ht j).foreign

/-- A frame that is not cleared keeps what is behind its first
doubleword, and all of it if it is not given back. -/
theorem Recycled.kept (hnot : ¬ Cleared cfg s i fl p) :
    Agree s.mem s'.mem (p + 8) (p + 4096) ∧
      (¬ Recalls s i p → Agree s.mem s'.mem p (p + 4096)) := by
  obtain ⟨hfree, hheld, hreg, htab⟩ := frame_used hp
  have hpal := (hh.page p hheld).aligned
  have hroot := hS.regions.tables [] (s.procs i).pagetable (by decide) rfl
  have hinfo : p ≠ (s.procs i).mappedInfo := by
    rintro rfl
    exact hreg hS.regions.owner
  have hneroot : p ≠ (s.procs i).pagetable := by
    rintro rfl
    exact htab [] hroot
  constructor
  · obtain ⟨tk, hlist, -⟩ := hrec.taken
    have htf : (s.procs i).pagetable = (s'.procs i).trapframe :=
      (List.cons.inj hlist).1
    apply hrec.tails p hpal htab (htf ▸ hneroot) hinfo
    intro q hq ht
    exact hnot ((hrec.cleared_iff hh hr hS).mpr ⟨q, hq, ht⟩)
  · intro hback
    apply hrec.others p hpal htab _ hinfo
    unfold recycleList
    rw [List.mem_cons, List.mem_append, List.mem_reverse]
    rintro (h | h | h)
    · exact hneroot h
    · exact hback h
    · exact hfree ((hh.free p).mpr h)

/-- The first doubleword of a frame that is given back and not cleared is
the link. -/
theorem Recycled.link (hback : Recalls s i p) (hnot : ¬ Cleared cfg s i fl p) :
    Foreign (load s'.mem 8 p) := by
  obtain ⟨-, -, -, htab⟩ := frame_used hp
  have hroot := hS.regions.tables [] (s.procs i).pagetable (by decide) rfl
  obtain ⟨tk, hlist, htk⟩ := hrec.taken
  have hin : p ∈ recycleList s i fl := by
    unfold recycleList
    exact List.mem_cons_of_mem _ (List.mem_append_left _ (List.mem_reverse.mpr hback))
  have hlate : p ∈ us :: fl' := by
    rw [hlist] at hin
    simp only [List.mem_cons, List.mem_append] at hin ⊢
    rcases hin with rfl | rfl | h | h | h
    · rw [← (List.cons.inj hlist).1] at htab
      exact absurd hroot (htab [])
    · exact absurd ((hrec.cleared_iff hh hr hS).mpr ⟨[], by decide, rfl⟩) hnot
    · exact Or.inl h
    · obtain ⟨q, -, hq⟩ := htk.of_page h
      exact absurd ((hrec.cleared_iff hh hr hS).mpr ⟨q, hq⟩) hnot
    · exact Or.inr h
  rcases hrec.links p hlate with hz | hmem
  · rw [hz]
    exact Or.inl rfl
  · have hpage := hrec.page _ hmem
    exact foreign_page (hr.memPage hpage) (hr.frame hpage).2.1

end Caller

-- ==== the strings

/-- Whatever string exec finds at `off` in page `p` when it saves the
argument, it is there when the process has been rebuilt. -/
def Survives (cfg : Config) (i : Slot) (s : Kernel) (p off : Nat) : Prop :=
  ∀ (m' : Mem) (l : List UInt8) (es : List Event) (s' : Kernel),
    Within s.mem m' p → StringAt m' (p + off) l → off + l.length < pgSize →
    reallocProcess cfg i { s with mem := m' } = (es, .ok () s') →
    StringAt s'.mem (p + off) l

/-- The pages are too few to rebuild the process; `realloc_process`
panics. -/
def OutOfPages (cfg : Config) (s : Kernel) (i : Slot) (fl : List Nat) : Prop :=
  (recycleList s i fl).length < tableCount cfg (s.procs i).pagetable + 3

/-- The letter `a`, and nothing else, at an address. -/
def letterAt (m : Mem) (a : Nat) : Mem :=
  fun x => if x = a then 97 else if x = a + 1 then 0 else m x

theorem stringAt_letter (m : Mem) (a : Nat) : StringAt (letterAt m a) a [97] := by
  refine ⟨by decide, if_pos rfl, ?_⟩
  show letterAt m a (a + 1) = 0
  unfold letterAt
  rw [if_neg (Nat.succ_ne_self a), if_pos rfl]

theorem within_letter {m : Mem} {p off : Nat} (hoff : off + 1 < 4096) :
    Within m (letterAt m (p + off)) p := by
  intro x hx
  unfold letterAt
  rw [if_neg (by omega), if_neg (by omega)]

section Strings

variable {heap : Nat → Nat → Prop} {p v us off : Nat}
variable (hh : Heap s own fl) (hr : Ranges cfg s) (hS : Space cfg P s own i heap)
  (hp : own p = .frame i v ∨ own p = .code)
  (hrec : Recycled cfg i s own fl us s' fl')
include hh hr hS hp hrec

/-- Where the letter is still there, the page was not cleared, nor the
letter in the link. -/
theorem Recycled.letter (hoff : off < pgSize) (ha : s'.mem (p + off) = 97)
    (hz : s'.mem (p + off + 1) = 0) :
    ¬ Cleared cfg s i fl p ∧ (Recalls s i p → 8 ≤ off) := by
  have hnot : ¬ Cleared cfg s i fl p := by
    intro hc
    simp only [pgSize] at hoff
    have hrow := hrec.rows hh hr hS hc ⟨off / 8, by omega⟩
    have haddr : p + 8 * (off / 8) + off % 8 = p + off := by omega
    apply Foreign.bytes hrow (k := off % 8) (by omega)
    rw [haddr]
    exact ⟨ha, hz⟩
  refine ⟨hnot, fun hback => ?_⟩
  by_contra hlt
  exact (hrec.link hh hr hS hp hback hnot).bytes (by omega) ⟨ha, hz⟩

theorem Recycled.string {l : List UInt8} (hstr : StringAt s.mem (p + off) l)
    (hlen : off + l.length < pgSize)
    (hcond : off = pgSize - 1 ∨
      (¬ Cleared cfg s i fl p ∧ (Recalls s i p → 8 ≤ off))) :
    StringAt s'.mem (p + off) l := by
  simp only [pgSize] at hlen hcond
  -- the last byte of a page of entries is zero
  by_cases hc : Cleared cfg s i fl p
  · have hlast : off = 4095 := hcond.resolve_right fun h => h.1 hc
    subst hlast
    obtain rfl : l = [] := List.eq_nil_of_length_eq_zero (by omega)
    exact (hrec.rows hh hr hS hc ⟨511, by decide⟩).top
  · obtain ⟨htail, hall⟩ := hrec.kept hh hr hS hp hc
    apply hstr.agree
    by_cases hback : Recalls s i p
    · have h8 : 8 ≤ off := by
        rcases hcond with h | ⟨-, h⟩
        · omega
        · exact h hback
      exact htail.mono (by omega) (by omega)
    · exact (hall hback).mono (Nat.le_add_right ..) (by omega)

end Strings

/-- For every caller and every user page of it: strings at an address
survive the rebuilding of the process exactly when the page is not cleared
and, if it is given back, they are behind the link. At the last byte of a
page there is room for the empty string only. -/
theorem exec_strings_survive_iff {heap : Nat → Nat → Prop} {va w off : Nat}
    (hh : Heap s own fl) (hr : Ranges cfg s) (hS : Space cfg P s own i heap)
    (hsmall : Small s i) (hva : va < 2 ^ 39)
    (hw : leaf s.mem (s.procs i).pagetable va = some w) (hu : w &&& pteU ≠ 0)
    (hoff : off < pgSize) :
    Survives cfg i s (pte2pa w) off ↔
      OutOfPages cfg s i fl ∨ off = pgSize - 1 ∨
      (¬ Cleared cfg s i fl (pte2pa w) ∧
        (Recalls s i (pte2pa w) → 8 ≤ off)) := by
  have hp := hS.userFrame hva hw hu
  generalize pte2pa w = p at hp ⊢
  have hcl : ∀ m', Within s.mem m' p →
      (Cleared cfg { s with mem := m' } i fl p ↔ Cleared cfg s i fl p) := by
    intro m' hW
    unfold Cleared
    rw [recycleList_within hh hS hp hW]
  have hre : ∀ m', Within s.mem m' p →
      (Recalls { s with mem := m' } i p ↔ Recalls s i p) := by
    intro m' hW
    unfold Recalls
    show p ∈ recalledFrames m' _ _ _ ↔ _
    rw [recalled_within hh hS hp hW]
  constructor
  · intro hsurv
    by_cases hshort : OutOfPages cfg s i fl
    · exact Or.inl hshort
    by_cases hlast : off = pgSize - 1
    · exact Or.inr (Or.inl hlast)
    right
    right
    simp only [pgSize] at hlast hoff
    have hW : Within s.mem (letterAt s.mem (p + off)) p :=
      within_letter (by omega)
    obtain ⟨es, ⟨⟩, s', hrun, us, fl', hrec⟩ := Returns.elim
      (wp_realloc_within hh hr hS hp hsmall hW (Or.inl (Nat.not_lt.mp hshort)))
    have hstr := hsurv _ [97] es s' hW (stringAt_letter _ _)
      (by simp only [pgSize, List.length_singleton]; omega) hrun
    rw [← hcl _ hW, ← hre _ hW]
    obtain ⟨hh', hr', hS'⟩ := caller_within hh hS hp hr hW
    exact hrec.letter hh' hr' hS' hp hoff hstr.2.1 hstr.2.2
  · intro hcond m' l es s' hW hstr hlen hrun
    have hwp : Wp (fun _ => False) (fun _ _ => True) (reallocProcess cfg i) _ _ :=
      wp_realloc_within hh hr hS hp hsmall hW (Or.inr fun _ _ => trivial)
    obtain ⟨us, fl', hrec⟩ := hwp.of_run hrun fun _ _ => id
    obtain ⟨hh', hr', hS'⟩ := caller_within hh hS hp hr hW
    have hroom : ¬ OutOfPages cfg s i fl := by
      obtain ⟨tk, hlist, -, hcount⟩ := hrec.tables hh' hr' hS'
      unfold OutOfPages
      rw [← recycleList_within hh hS hp hW, hlist]
      simp only [List.length_cons, List.length_append]
      change tk.length = tableCount cfg (s.procs i).pagetable at hcount
      omega
    have hcond := hcond.resolve_left hroom
    rw [← hcl _ hW, ← hre _ hW] at hcond
    exact hrec.string hh' hr' hS' hp hstr hlen hcond

-- ==== a fresh caller

theorem FreshProcess.recycleList (hf : FreshProcess cfg s own fl i) :
    Pke.recycleList s i fl = (s.procs i).pagetable :: (s.procs i).trapframe ::
      frameAt s.mem (s.procs i).pagetable (userStackTop - pgSize) :: fl := by
  unfold Pke.recycleList
  rw [hf.space.recalled]
  unfold imageFrames
  rw [hf.total]
  rfl

/-- The stack of a fresh process is given back, becomes the stack again,
and is not cleared. -/
theorem FreshProcess.stack (hf : FreshProcess cfg s own fl i) :
    ∃ w, leaf s.mem (s.procs i).pagetable (userStackTop - pgSize) = some w ∧
      w &&& pteU ≠ 0 ∧ Recalls s i (pte2pa w) ∧
      ¬ Cleared cfg s i fl (pte2pa w) := by
  obtain ⟨w, hw, -, hl⟩ := hf.space.stackLeaf
    (show MappedRegion.Covers _ (userStackTop - pgSize) by
      rw [hf.space.stack]; exact inPages_one.mpr rfl)
  have hown : own (pte2pa w) = .frame i ((userStackTop - pgSize) / pgSize) := hl.owner
  refine ⟨w, hw, (hl.user (by decide)).1, ?_, ?_⟩
  · unfold Recalls
    rw [hf.space.recalled]
    unfold frameAt
    rw [hw]
    exact List.mem_cons_self
  · unfold Cleared
    rw [hf.recycleList]
    rintro (h | ⟨k, -, h⟩)
    · have htf : (s.procs i).trapframe = pte2pa w := Option.some.inj h
      have hlo := (hf.ranges.memPage (hf.pages.page _
        (by rw [hf.space.trapframe]; exact Owner.noConfusion))).lo
      rw [← htf, hf.space.trapframe] at hown
      injection hown with _ hvpn
      simp only [userStackTop, pgSize, dramBase] at hvpn hlo
      omega
    · rw [(hf.pages.free _).mpr (List.mem_of_getElem? h)] at hown
      cases hown

/-- Behind the link the stack of a fresh process is a safe place. -/
theorem exec_strings_survive_behind_link : ∃ cfg s own fl w,
    FreshProcess cfg s own fl 0 ∧
      leaf s.mem (s.procs 0).pagetable (userStackTop - pgSize) = some w ∧
      Survives cfg 0 s (pte2pa w) 8 := by
  obtain ⟨s, own, fl, hf, -⟩ := tinyMachine_fresh
  obtain ⟨w, hw, hu, -, hnot⟩ := hf.stack
  refine ⟨_, s, own, fl, w, hf, hw, ?_⟩
  exact (exec_strings_survive_iff hf.pages hf.ranges hf.space hf.space.small
    (by decide) hw hu (by decide)).mpr (Or.inr (Or.inr ⟨hnot, fun _ => by decide⟩))

/-- An argument of one letter at the lowest address of the stack does not
survive. -/
theorem exec_letter_lost : ∃ cfg s own fl w es s',
    FreshProcess cfg s own fl 0 ∧
      leaf s.mem (s.procs 0).pagetable (userStackTop - pgSize) = some w ∧
      StringAt s.mem (pte2pa w) [97] ∧
      reallocProcess cfg 0 s = (es, .ok () s') ∧
      ¬ StringAt s'.mem (pte2pa w) [97] := by
  obtain ⟨s, own, fl, hf, hlen⟩ := tinyMachine_fresh
  obtain ⟨w, hw, hu, -, -⟩ := hf.stack
  have hp := hf.space.userFrame (by decide) hw hu
  have hW : Within s.mem (letterAt s.mem (pte2pa w + 0)) (pte2pa w) :=
    within_letter (by decide)
  obtain ⟨hh, hr, hS⟩ := caller_within hf.pages hf.space hp hf.ranges hW
  have hf' : FreshProcess _ _ own fl 0 := ⟨hh, hr, hS, hf.total⟩
  obtain ⟨w', hw', -, hback, -⟩ := hf'.stack
  obtain rfl : w' = w := by
    have hsame := Space.leaf_within hf.pages hf.space hp hW (userStackTop - pgSize)
    exact Option.some.inj (hw'.symm.trans (hsame.trans hw))
  obtain ⟨es, ⟨⟩, s', hrun, us, fl', hrec⟩ := Returns.elim
    (wp_realloc_within hf.pages hf.ranges hf.space hp hf.space.small hW
      (Or.inl (by
        rw [hf.recycleList]
        unfold tableCount
        simp only [List.length_cons]
        split <;> omega)))
  refine ⟨_, _, own, fl, w', es, s', hf', hw', stringAt_letter _ _, hrun, ?_⟩
  intro hstr
  have hzero : 0 < pgSize := by decide
  exact absurd ((hrec.letter hh hr hS hp hzero hstr.2.1 hstr.2.2).2 hback) (by decide)

end Pke
